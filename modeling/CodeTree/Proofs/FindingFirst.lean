import Mathlib.Data.List.Pairwise
import CodeTree.Proofs.Finding
import CodeTree.Proofs.Routes

/-! # Finding the first node

Searching for the first node that a query accepts goes through the same nodes in the same order as searching for all
of them, formatting left out. But what a search inside a node comes to is passed over, with all that lies below it, if
it counts as false: a node whose value is a view of no items. So the first of all accepted nodes outside formatting is
found exactly if it counts as true or is where the search begins.
-/
namespace CodeTree
variable {t u : Store} {n m k : NodeId} {i depth : Nat} {holds : NodeId → Bool} {α : Type} {ms : List NodeId} {fuel : Nat}
  {c : NodeCell} {P : NodeId → Prop} {slot : Slot} {stop : Value → Edit Bool}

section Orders
variable (t)

def Slot.isFormatting : Slot → Bool
  | .field .formatting _ _ => true
  | _ => false

/-- The nodes that hang at a node as formatting, and those that hang there otherwise and are entered. -/
def Store.formatting (n : NodeId) : List NodeId :=
  (t.nodes[n.index]?).elim [] (fun c => (c.kind.layout.filter Slot.isFormatting).flatMap (t.hung t.filled c))

def Store.inside (n : NodeId) : List NodeId :=
  (t.nodes[n.index]?).elim [] (fun c => (c.kind.layout.filter (!·.isFormatting)).flatMap (t.hung t.filled c))

/-- A node and what lies below it without formatting, each node before what is below it. -/
def Store.outline : Nat → NodeId → List NodeId
  | 0, _ => []
  | depth + 1, n => n :: (t.inside n).flatMap (Store.outline depth)

/-- A node lies in the formatting of one of some nodes or of what is below them. -/
def Store.InFormatting (starts : List NodeId) (m : NodeId) : Prop :=
  ∃ r ∈ starts, ∃ k x, t.Descends everywhere r k ∧ x ∈ t.formatting k ∧ t.Descends everywhere x m

/-- What a search that begins at a node can come to: the node if it is accepted, otherwise what the searches from the
nodes inside come to and counts as true. -/
def Store.sought (holds : NodeId → Bool) : Nat → NodeId → List NodeId
  | 0, _ => []
  | depth + 1, n => if holds n then [n] else ((t.inside n).flatMap (Store.sought holds depth)).filter t.filled

end Orders

section Below

theorem Store.inside_sublist : (t.inside n).Sublist (t.below t.filled n) := by
  unfold Store.inside Store.below
  cases t.nodes[n.index]? with
  | none => exact .slnil
  | some c => exact List.filter_sublist.flatMap _

theorem Store.mem_below_filled : m ∈ t.below t.filled n ↔ m ∈ t.inside n ∨ m ∈ t.formatting n := by
  unfold Store.below Store.inside Store.formatting
  cases t.nodes[n.index]? with
  | none => simp
  | some c =>
    simp only [Option.elim_some,List.mem_flatMap,List.mem_filter]
    constructor
    · rintro ⟨slot,hslot,hm⟩
      cases hf : slot.isFormatting with
      | false => exact .inl ⟨slot,⟨hslot,by rw [hf]; rfl⟩,hm⟩
      | true => exact .inr ⟨slot,⟨hslot,hf⟩,hm⟩
    · rintro (⟨slot,⟨hslot,-⟩,hm⟩ | ⟨slot,⟨hslot,-⟩,hm⟩) <;> exact ⟨slot,hslot,hm⟩

theorem Store.inside_subset : t.inside n ⊆ t.below everywhere n :=
  fun _ hm => Store.below_sublist.subset (Store.mem_below_filled.mpr (.inl hm))

theorem Store.formatting_subset : t.formatting n ⊆ t.below everywhere n :=
  fun _ hm => Store.below_sublist.subset (Store.mem_below_filled.mpr (.inr hm))

theorem Store.Tree.not_inside (h : t.Tree i n) (hm : m ∈ t.formatting n) : m ∉ t.inside n := by
  intro hm'
  obtain ⟨i,c,rfl,hc⟩ := h.opens
  have hdisjoint := (List.nodup_flatMap.mp (hc.below_eq ▸ hc.nodup)).2
  unfold Store.formatting at hm
  unfold Store.inside at hm'
  rw [hc.cell,Option.elim_some] at hm hm'
  obtain ⟨slot,hslot,hm⟩ := List.mem_flatMap.mp hm
  obtain ⟨slot',hslot',hm'⟩ := List.mem_flatMap.mp hm'
  obtain ⟨hslot,hf⟩ := List.mem_filter.mp hslot
  obtain ⟨hslot',hf'⟩ := List.mem_filter.mp hslot'
  have hne : slot ≠ slot' := by
    rintro rfl
    rw [hf] at hf'
    cases hf'
  have : Std.Symm (Function.onFun List.Disjoint (t.hung everywhere c)) := ⟨fun _ _ h => List.disjoint_symm h⟩
  exact hdisjoint.forall hslot hslot' hne ((Store.hung_sublist c slot).subset hm)
    ((Store.hung_sublist c slot').subset hm')

end Below

section Outlines

theorem Store.outline_sublist (depth : Nat) : (t.outline depth n).Sublist (t.preorder t.filled depth n) := by
  induction depth generalizing n with
  | zero => exact .slnil
  | succ depth ih => exact .cons_cons n ((List.Sublist.flatMap_right _ (fun m _ => ih)).trans (Store.inside_sublist.flatMap _))

theorem Store.descends_of_outline (hm : m ∈ t.outline depth n) : t.Descends everywhere n m :=
  (Store.descends_of_preorder ((Store.outline_sublist depth).subset hm)).mono

theorem Store.Descends.step_down (h : t.Descends everywhere n m) :
    n = m ∨ ∃ k ∈ t.below everywhere n, t.Descends everywhere k m := by
  induction h with
  | self => exact .inl rfl
  | step down hangs ih =>
    refine .inr ?_
    rcases ih with rfl | ⟨k,hk,hd⟩
    · exact ⟨_,hangs,.self⟩
    · exact ⟨k,hk,.step hd hangs⟩

theorem Store.Tree.not_inFormatting (h : t.Tree i n) (hm : m ∈ t.outline depth n) : ¬ t.InFormatting [n] m := by
  rintro ⟨r,hr,k,x,hd,hx,hxm⟩
  cases List.mem_singleton.mp hr
  induction depth generalizing n with
  | zero => cases hm
  | succ depth ih =>
    obtain ⟨j,rfl⟩ := h.succ
    rcases List.mem_cons.mp hm with rfl | hm
    · exact (hd.tree h).not_above (Store.formatting_subset hx) (hxm.trans hd)
    · obtain ⟨y,hy,hm⟩ := List.mem_flatMap.mp hm
      have hbelow := Store.inside_subset hy
      have htree := (h.below hbelow).1.mono (Nat.le_succ j)
      have hym := Store.descends_of_outline hm
      -- The way to the node leads through one of those that hang here, and that is not formatting.
      rcases hd.step_down with rfl | ⟨z,hz,hzk⟩
      · cases h.below_unique (Store.formatting_subset hx) hbelow hxm hym
        exact h.not_inside hx hy
      · have hzm := hzk.trans (.trans (.step .self (Store.formatting_subset hx)) hxm)
        cases h.below_unique hz hbelow hzm hym
        exact ih htree hm (List.mem_singleton_self _) hzk

theorem Store.Tree.mem_outline (h : t.Tree i n) :
    m ∈ t.outline depth n ↔ m ∈ t.preorder t.filled depth n ∧ ¬ t.InFormatting [n] m := by
  refine ⟨fun hm => ⟨(Store.outline_sublist depth).subset hm,h.not_inFormatting hm⟩,?_⟩
  rintro ⟨hm,hnot⟩
  induction depth generalizing n i with
  | zero => cases hm
  | succ depth ih =>
    obtain ⟨i,rfl⟩ := h.succ
    rcases List.mem_cons.mp hm with rfl | hm
    · exact List.mem_cons_self
    · obtain ⟨k,hk,hm⟩ := List.mem_flatMap.mp hm
      have hbelow := Store.below_sublist.subset hk
      have htree := (h.below hbelow).1
      rcases Store.mem_below_filled.mp hk with hk | hk
      · refine List.mem_cons_of_mem _ (List.mem_flatMap.mpr ⟨k,hk,ih htree hm ?_⟩)
        rintro ⟨r,hr,z,x,hd,hx,hxm⟩
        cases List.mem_singleton.mp hr
        exact hnot ⟨n,List.mem_singleton_self n,z,x,.trans (.step .self hbelow) hd,hx,hxm⟩
      · exact absurd ⟨n,List.mem_singleton_self n,n,k,.self,hk,(Store.descends_of_preorder hm).mono⟩ hnot

/-- What a search comes to are the outermost accepted nodes of the outline that count as true, and where it begins. -/
theorem Store.Tree.mem_sought (h : t.Tree i n) : m ∈ t.sought holds depth n ↔
    m ∈ t.outline depth n ∧ holds m = true ∧ (m = n ∨ t.filled m = true) ∧
      ∀ k ∈ t.outline depth n, holds k = true → t.Descends everywhere k m → k = m := by
  induction depth generalizing n i with
  | zero => simp only [Store.sought,Store.outline,List.not_mem_nil,false_and]
  | succ depth ih =>
    obtain ⟨i,rfl⟩ := h.succ
    have htree : ∀ {k}, k ∈ t.inside n → t.Tree i k := fun hk => (h.below (Store.inside_subset hk)).1
    unfold Store.sought
    cases hn : holds n with
    | true =>
      rw [if_pos rfl,List.mem_singleton]
      constructor
      · rintro rfl
        refine ⟨List.mem_cons_self,hn,.inl rfl,fun k hk _ hd => ?_⟩
        rcases (Store.descends_of_outline hk).step_down with rfl | ⟨y,hy,hyk⟩
        · rfl
        · exact absurd (hyk.trans hd) (h.not_above hy)
      · rintro ⟨hm,-,-,houter⟩
        exact (houter n List.mem_cons_self hn (Store.descends_of_outline hm)).symm
    | false =>
      rw [if_neg Bool.false_ne_true,List.mem_filter,List.mem_flatMap]
      constructor
      · rintro ⟨⟨y,hy,hm⟩,hfilled⟩
        obtain ⟨hm,hholds,-,houter⟩ := (ih (htree hy)).mp hm
        refine ⟨List.mem_cons_of_mem _ (List.mem_flatMap.mpr ⟨y,hy,hm⟩),hholds,.inr hfilled,fun k hk hk' hd => ?_⟩
        rcases List.mem_cons.mp hk with rfl | hk
        · rw [hn] at hk'
          cases hk'
        · obtain ⟨z,hz,hk⟩ := List.mem_flatMap.mp hk
          cases h.below_unique (Store.inside_subset hz) (Store.inside_subset hy)
            ((Store.descends_of_outline hk).trans hd) (Store.descends_of_outline hm)
          exact houter k hk hk' hd
      · rintro ⟨hm,hholds,htrue,houter⟩
        have hne : m ≠ n := by
          rintro rfl
          rw [hn] at hholds
          cases hholds
        have hm : m ∈ (t.inside n).flatMap (t.outline depth) := (List.mem_cons.mp hm).resolve_left hne
        obtain ⟨y,hy,hm⟩ := List.mem_flatMap.mp hm
        have hfilled := htrue.resolve_left hne
        refine ⟨⟨y,hy,(ih (htree hy)).mpr ⟨hm,hholds,.inr hfilled,fun k hk => ?_⟩⟩,hfilled⟩
        exact houter k (List.mem_cons_of_mem _ (List.mem_flatMap.mpr ⟨y,hy,hk⟩))

theorem Store.sought_sublist (depth : Nat) : (t.sought holds depth n).Sublist ((t.outline depth n).filter holds) := by
  induction depth generalizing n with
  | zero => exact .slnil
  | succ depth ih =>
    unfold Store.sought Store.outline
    rw [List.filter_cons]
    split
    · exact .cons_cons n (List.nil_sublist _)
    · refine List.filter_sublist.trans ?_
      rw [List.filter_flatMap]
      exact List.Sublist.flatMap_right _ (fun m _ => ih)

end Outlines

section Searching
variable {p : Parser} {accepts : NodeId → Edit Bool} {onText : String → Edit Value}

/-- What was found, as a value. -/
def foundValue (found : Option NodeId) : Value := found.elim .none .node

theorem firstFound_known {f : α → Edit Value} (g : α → Option NodeId) (stops : Option NodeId → Bool) {xs : List α}
    (hf : ∀ x ∈ xs, f x p t = .ok (foundValue (g x)) t) (hstop : ∀ x ∈ xs, stop (foundValue (g x)) p t = .ok (stops (g x)) t) :
    firstFound stop f xs p t = .ok (foundValue ((xs.map g).find? stops).join) t := by
  induction xs with
  | nil => rfl
  | cons x xs ih =>
    unfold firstFound
    rw [Edit.run_bind,hf x List.mem_cons_self]
    dsimp only
    rw [Edit.run_bind,hstop x List.mem_cons_self,List.map_cons,List.find?_cons]
    dsimp only
    cases stops (g x) with
    | true => rfl
    | false => exact ih (List.forall_mem_cons.mp hf).2 (List.forall_mem_cons.mp hstop).2

theorem find_first_filled {filled : NodeId → Bool} {g : α → Option NodeId} {S : α → List NodeId} {xs : List α}
    (h : ∀ x ∈ xs, (g x).filter filled = ((S x).filter filled).head?) :
    ((xs.map g).find? (·.any filled)).join = ((xs.flatMap S).filter filled).head? := by
  induction xs with
  | nil => rfl
  | cons x xs ih =>
    have hx := h x List.mem_cons_self
    rw [List.map_cons,List.find?_cons,List.flatMap_cons,List.filter_append,List.head?_append,← hx,
      ← ih (List.forall_mem_cons.mp h).2]
    cases hg : g x with
    | none => rfl
    | some m => cases hm : filled m <;> simp [Option.filter,hm]

theorem head_filter_filled (ms : List NodeId) : (ms.filter t.filled).head?.filter t.filled = (ms.filter t.filled).head? := by
  cases hl : ms.filter t.filled with
  | nil => rfl
  | cons m rest =>
    have hm : m ∈ ms.filter t.filled := hl ▸ List.mem_cons_self
    simp [(List.mem_filter.mp hm).2]

theorem sought_head (depth : Nat) :
    (t.sought holds depth n).head?.filter t.filled = ((t.sought holds depth n).filter t.filled).head? := by
  cases depth with
  | zero => rfl
  | succ depth =>
    unfold Store.sought
    split
    · cases hn : t.filled n <;> simp [hn]
    · rw [List.filter_filter]
      simp only [Bool.and_self]
      exact head_filter_filled _

/-- What a search for the first node makes of one slot of a node. -/
def firstSlot (accepts : NodeId → Edit Bool) (onText : String → Edit Value) (fuel : Nat) (n : NodeId) : Slot → Edit Value
  | .field .child f _ => do
    let child ← look n (.field f)
    if ← truthWith look child then findIn look accepts onText fuel true child else pure .none
  | .field .children f _ => do
    let held ← look n (.field f)
    let members ← membersWith look held
    firstFound (fun found => liftM (truthWith look found)) (findIn look accepts onText fuel true) members
  | _ => pure .none

theorem findIn_slots : findIn look accepts onText (fuel + 1) true (.node n) = (do
    if ← accepts n then return .node n
    let c ← Read.node n
    let layout ← Read.lift c.layout
    firstFound (fun found => liftM (truthWith look found)) (firstSlot accepts onText fuel n) layout) := rfl

/-- What is found in one slot of a node, given what is found in the nodes that hang there. -/
def Store.slotFirst (t : Store) (holds : NodeId → Bool) (depth : Nat) (c : NodeCell) : Slot → Option NodeId
  | .field .child f shown => ((t.hung t.filled c (.field .child f shown)).flatMap (t.sought holds depth)).head?
  | .field .children f shown =>
    (((t.hung t.filled c (.field .children f shown)).flatMap (t.sought holds depth)).filter t.filled).head?
  | _ => none

theorem Store.Stands.slotFirst_filled (hc : t.Stands P n c) (hslot : slot ∈ c.kind.layout) :
    (t.slotFirst holds depth c slot).filter t.filled =
      (((if slot.isFormatting then [] else t.hung t.filled c slot).flatMap (t.sought holds depth)).filter t.filled).head? := by
  cases slot with
  | constant => rfl
  | field form f shown =>
    cases form with
    | child =>
      have hhung : ∃ ms : List NodeId, ms.length ≤ 1 ∧ t.hung t.filled c (.field .child f shown) = ms := by
        obtain ⟨v,-,hhung,hheld⟩ := hc.single hslot
        refine ⟨_,Nat.le_trans (List.length_filter_le _ _) ?_,hhung t.filled⟩
        rcases hheld with rfl | ⟨m,rfl,-⟩
        · exact Nat.zero_le 1
        · exact Nat.le_refl 1
      obtain ⟨ms,hlength,hms⟩ := hhung
      simp only [Store.slotFirst,Slot.isFormatting,hms,Bool.false_eq_true,if_false]
      cases ms with
      | nil => rfl
      | cons m rest =>
        rw [List.eq_nil_of_length_eq_zero (Nat.le_zero.mp (Nat.le_of_succ_le_succ hlength)),List.flatMap_singleton]
        exact sought_head depth
    | children => exact head_filter_filled _
    | _ => rfl

theorem Store.Tree.sought_tree (h : t.Tree i n) (hm : m ∈ t.sought holds depth n) : t.Tree i m :=
  (Store.descends_of_outline (h.mem_sought.mp hm).1).tree h

theorem truth_found {found : Option NodeId} (h : ∀ m ∈ found, t.Tree i m) (hdepth : i < t.depth) :
    (liftM (truthWith look (foundValue found)) : Edit Bool) p t = .ok (found.any t.filled) t := by
  cases found with
  | none => rfl
  | some m => exact Edit.read_ok.mpr ⟨(h m rfl).truth hdepth,rfl⟩

theorem firstFound_nodes {deep : Bool} (stops : Option NodeId → Bool) {result : NodeId → Option NodeId}
    (hfind : ∀ m ∈ ms, findIn look accepts onText fuel deep (.node m) p t = .ok (foundValue (result m)) t)
    (hstop : ∀ m ∈ ms, stop (foundValue (result m)) p t = .ok (stops (result m)) t) :
    firstFound stop (findIn look accepts onText fuel deep) (ms.map .node) p t =
      .ok (foundValue ((ms.map result).find? stops).join) t := by
  have hresult : (ms.map Value.node).map (fun v => v.node?.bind result) = ms.map result := List.map_map
  rw [← hresult]
  refine firstFound_known _ stops (fun v hv => ?_) (fun v hv => ?_)
  · obtain ⟨m,hm,rfl⟩ := List.mem_map.mp hv
    exact hfind m hm
  · obtain ⟨m,hm,rfl⟩ := List.mem_map.mp hv
    exact hstop m hm

/-- A slot of a node is searched like the nodes in it. -/
theorem firstSlot_known (hc : t.Stands (t.Tree i) n c) (hdepth : i < t.depth)
    (hfind : ∀ m, t.Tree i m → t.Descends everywhere n m → findIn look accepts onText fuel true (.node m) p t =
      .ok (foundValue (t.sought holds i m).head?) t) (hslot : slot ∈ c.kind.layout) :
    firstSlot accepts onText fuel n slot p t = .ok (foundValue (t.slotFirst holds i c slot)) t := by
  cases slot with
  | constant => rfl
  | field form f shown =>
    cases form with
    | child =>
      obtain ⟨v,hlook,hhung,hheld⟩ := hc.single hslot
      have hfirst : t.slotFirst holds i c (.field .child f shown) =
          (((t.nodesOf v).filter t.filled).flatMap (t.sought holds i)).head? := by
        rw [← hhung]
        rfl
      change ((liftM (look n (.field f)) : Edit Value) >>= _) p t = _
      rw [Edit.read_known hlook,hfirst]
      rcases hheld with rfl | ⟨m,rfl,below⟩
      · rfl
      · have hm := hc.down (m := m) hslot (by rw [hhung]; exact List.mem_filter.mpr ⟨List.mem_singleton_self m,rfl⟩)
        rw [Edit.read_known (below.truth hdepth)]
        unfold Store.nodesOf
        cases hfilled : t.filled m with
        | true => rw [if_pos rfl,hfind m hm.1 hm.2,List.filter_cons_of_pos hfilled,List.filter_nil,List.flatMap_singleton]
        | false =>
          rw [if_neg Bool.false_ne_true,List.filter_cons_of_neg (by rw [hfilled]; exact Bool.false_ne_true)]
          rfl
    | children =>
      obtain ⟨v,_,ms,hlook,hmembers,hhung,-⟩ := hc.listed hslot rfl
      change ((liftM (look n (.field f)) : Edit Value) >>= _) p t = _
      rw [Edit.read_known hlook,Edit.read_known hmembers]
      have hms : ∀ m ∈ ms, t.Tree i m ∧ t.Descends everywhere n m := fun m hm => hc.down hslot (by rw [hhung]; exact hm)
      have hfirst : t.slotFirst holds i c (.field .children f shown) =
          ((ms.map (fun m => (t.sought holds i m).head?)).find? (·.any t.filled)).join := by
        rw [find_first_filled (fun m _ => sought_head i),← hhung t.filled]
        rfl
      rw [hfirst]
      refine firstFound_nodes _ (fun m hm => hfind m (hms m hm).1 (hms m hm).2) (fun m hm => ?_)
      exact truth_found (fun k hk => (hms m hm).1.sought_tree (List.mem_of_mem_head? hk)) hdepth
    | _ => rfl

theorem Store.Stands.inside_eq (hc : t.Stands P n c) :
    t.inside n = c.kind.layout.flatMap (fun slot => if slot.isFormatting then [] else t.hung t.filled c slot) := by
  unfold Store.inside
  rw [hc.cell,Option.elim_some]
  induction c.kind.layout with
  | nil => rfl
  | cons slot slots ih =>
    rw [List.flatMap_cons,← ih]
    cases hf : slot.isFormatting with
    | true => rw [List.filter_cons_of_neg (by simp [hf]),if_pos rfl,List.nil_append]
    | false => rw [List.filter_cons_of_pos (by simp [hf]),if_neg Bool.false_ne_true,List.flatMap_cons]

theorem Store.Stands.slotFirst_tree (hc : t.Stands (t.Tree i) n c) (hslot : slot ∈ c.kind.layout)
    (hm : m ∈ t.slotFirst holds depth c slot) : t.Tree i m := by
  have hflat : m ∈ (t.hung t.filled c slot).flatMap (t.sought holds depth) := by
    rcases slot with _ | ⟨_ | _ | _ | _ | _,f,shown⟩
    case field.child => exact List.mem_of_mem_head? hm
    case field.children => exact (List.mem_filter.mp (List.mem_of_mem_head? hm)).1
    all_goals cases hm
  obtain ⟨k,hk,hm⟩ := List.mem_flatMap.mp hflat
  have hbelow : k ∈ t.below t.filled n := by
    rw [hc.below_eq]
    exact List.mem_flatMap.mpr ⟨slot,hslot,hk⟩
  exact (hc.below hbelow).1.sought_tree hm

theorem Store.Tree.findFirst (h : t.Tree i n) (hdepth : i < t.depth) (hfuel : i ≤ fuel)
    (haccepts : ∀ m, t.Descends everywhere n m → accepts m p t = .ok (holds m) t) :
    findIn look accepts onText fuel true (.node n) p t = .ok (foundValue (t.sought holds i n).head?) t := by
  induction i generalizing n fuel with
  | zero => exact h.elim
  | succ i ih =>
    obtain _ | fuel := fuel
    · omega
    obtain ⟨c,hc⟩ := id h
    rw [findIn_slots,Edit.run_bind,haccepts n .self]
    dsimp only
    unfold Store.sought
    cases hn : holds n with
    | true => rfl
    | false =>
      have hslots : ∀ slot ∈ c.kind.layout,
          firstSlot accepts onText fuel n slot p t = .ok (foundValue (t.slotFirst holds i c slot)) t := by
        intro slot hslot
        refine firstSlot_known hc (by omega) (fun m hm hd => ?_) hslot
        exact ih hm (by omega) (by omega) (fun k hk => haccepts k (hd.trans hk))
      have hstop : ∀ slot ∈ c.kind.layout, (liftM (truthWith look (foundValue (t.slotFirst holds i c slot))) : Edit Bool) p t =
          .ok ((t.slotFirst holds i c slot).any t.filled) t :=
        fun slot hslot => truth_found (fun m hm => hc.slotFirst_tree hslot hm) (by omega)
      change ((liftM (Read.node n) : Edit NodeCell) >>= _) p t = _
      rw [Edit.node_known hc.cell,Edit.read_known (Read.lift_ok.mpr hc.layout),
        firstFound_known _ (·.any t.filled) hslots hstop,find_first_filled (fun slot hslot => hc.slotFirst_filled hslot),
        if_neg Bool.false_ne_true,hc.inside_eq,List.flatMap_assoc]

end Searching

section Starts

/-- Where a search in a value begins: at a node, or at each node of a list in turn. No two of these nodes have anything
below them in common. -/
structure Store.Starts (t : Store) (height : Nat) (v : Value) (starts : List NodeId) : Prop where
  shape : (∃ n, v = .node n ∧ starts = [n]) ∨
    ∃ l lc, v = .list l ∧ t.lists[l.index]? = some lc ∧ lc.flavour = .nodes ∧ lc.items = starts.map .node
  trees : ∀ m ∈ starts, t.Tree height m
  apart : ∀ a ∈ starts, ∀ b ∈ starts, ∀ x, t.Descends everywhere a x → t.Descends everywhere b x → a = b

/-- Of lists one after the other, with a part of each, the first item of the whole is that of the parts if it is so for
each list. -/
theorem head_flatMap {β : Type} {O S : α → List β} {P : β → Prop} {xs : List α} {e : β}
    (hsub : ∀ x ∈ xs, (S x).Sublist (O x)) (hhead : ∀ x ∈ xs, ∀ e, (O x).head? = some e → P e → (S x).head? = some e)
    (he : (xs.flatMap O).head? = some e) (hP : P e) : (xs.flatMap S).head? = some e := by
  induction xs with
  | nil => cases he
  | cons x xs ih =>
    have hx := hsub x List.mem_cons_self
    rw [List.flatMap_cons,List.head?_append] at he ⊢
    cases hO : O x with
    | nil =>
      rw [hO] at he hx
      rw [List.sublist_nil.mp hx]
      exact ih (List.forall_mem_cons.mp hsub).2 (List.forall_mem_cons.mp hhead).2 he
    | cons d rest =>
      rw [hO] at he
      cases he
      rw [hhead x List.mem_cons_self e (by rw [hO]; rfl) hP]
      rfl

/-- The first accepted node of an outline is found if it counts as true or is where the search begins. -/
theorem Store.sought_first {e : NodeId} (he : ((t.outline depth n).filter holds).head? = some e)
    (htrue : e = n ∨ t.filled e = true) : (t.sought holds depth n).head? = some e := by
  induction depth generalizing n e with
  | zero => cases he
  | succ depth ih =>
    unfold Store.outline at he
    unfold Store.sought
    rw [List.filter_cons] at he
    cases hn : holds n with
    | true =>
      rw [hn,if_pos rfl] at he
      cases he
      rfl
    | false =>
      rw [hn,if_neg Bool.false_ne_true,List.filter_flatMap] at he
      have hfilled : t.filled e = true := by
        refine htrue.resolve_left ?_
        rintro rfl
        obtain ⟨k,-,hk⟩ := List.mem_flatMap.mp (List.mem_of_mem_head? he)
        rw [(List.mem_filter.mp hk).2] at hn
        cases hn
      rw [if_neg Bool.false_ne_true]
      have hhead : ((t.inside n).flatMap (t.sought holds depth)).head? = some e :=
        head_flatMap (fun k _ => Store.sought_sublist depth) (fun k _ d hd hP => ih hd (.inr hP)) he hfilled
      cases hl : (t.inside n).flatMap (t.sought holds depth) with
      | nil =>
        rw [hl] at hhead
        cases hhead
      | cons d rest =>
        rw [hl] at hhead
        cases hhead
        rw [List.filter_cons_of_pos hfilled]
        rfl

variable {height : Nat} {v : Value} {starts : List NodeId} (h : t.Starts height v starts)
include h

theorem Store.Starts.mem_outside : m ∈ starts.flatMap (t.outline depth) ↔
    m ∈ starts.flatMap (t.preorder t.filled depth) ∧ ¬ t.InFormatting starts m := by
  simp only [List.mem_flatMap]
  constructor
  · rintro ⟨r,hr,hm⟩
    obtain ⟨hmet,hnot⟩ := (h.trees r hr).mem_outline.mp hm
    refine ⟨⟨r,hr,hmet⟩,?_⟩
    rintro ⟨r',hr',k,x,hd,hx,hxm⟩
    have hup := hd.trans (.trans (.step .self (Store.formatting_subset hx)) hxm)
    cases h.apart r' hr' r hr m hup (Store.descends_of_outline hm)
    exact hnot ⟨_,List.mem_singleton_self _,k,x,hd,hx,hxm⟩
  · rintro ⟨⟨r,hr,hmet⟩,hnot⟩
    refine ⟨r,hr,(h.trees r hr).mem_outline.mpr ⟨hmet,?_⟩⟩
    rintro ⟨r',hr',hrest⟩
    cases List.mem_singleton.mp hr'
    exact hnot ⟨r,hr,hrest⟩

theorem Store.Starts.start_eq {r : NodeId} (hr : r ∈ starts) (hm : m ∈ t.outline depth r) (hstart : m ∈ starts) : m = r :=
  h.apart m hstart r hr m .self (Store.descends_of_outline hm)

theorem Store.Starts.mem_sought : m ∈ starts.flatMap (t.sought holds depth) ↔
    m ∈ (starts.flatMap (t.outline depth)).filter holds ∧ (m ∈ starts ∨ t.filled m = true) ∧
      ∀ k ∈ (starts.flatMap (t.outline depth)).filter holds, t.Descends everywhere k m → k = m := by
  simp only [List.mem_filter,List.mem_flatMap]
  constructor
  · rintro ⟨r,hr,hm⟩
    obtain ⟨hm,hholds,htrue,houter⟩ := (h.trees r hr).mem_sought.mp hm
    refine ⟨⟨⟨r,hr,hm⟩,hholds⟩,htrue.imp (fun heq : m = r => heq ▸ hr) id,?_⟩
    rintro k ⟨⟨r',hr',hk⟩,hk'⟩ hd
    cases h.apart r' hr' r hr m ((Store.descends_of_outline hk).trans hd) (Store.descends_of_outline hm)
    exact houter k hk hk' hd
  · rintro ⟨⟨⟨r,hr,hm⟩,hholds⟩,htrue,houter⟩
    refine ⟨r,hr,(h.trees r hr).mem_sought.mpr ⟨hm,hholds,htrue.imp (h.start_eq hr hm) id,fun k hk hk' hd => ?_⟩⟩
    exact houter k ⟨⟨r,hr,hk⟩,hk'⟩ hd

omit h in
theorem Store.sought_outside : (starts.flatMap (t.sought holds depth)).Sublist ((starts.flatMap (t.outline depth)).filter holds) := by
  rw [List.filter_flatMap]
  exact List.Sublist.flatMap_right _ (fun m _ => Store.sought_sublist depth)

/-- The first accepted node outside formatting is found exactly if it counts as true or the search begins there. -/
theorem Store.Starts.head_sought :
    (starts.flatMap (t.sought holds depth)).head? = ((starts.flatMap (t.outline depth)).filter holds).head? ↔
      ∀ e ∈ ((starts.flatMap (t.outline depth)).filter holds).head?, e ∈ starts ∨ t.filled e = true := by
  constructor
  · intro heq e he
    rw [← heq] at he
    exact (h.mem_sought.mp (List.mem_of_mem_head? he)).2.1
  · intro htrue
    cases hl : ((starts.flatMap (t.outline depth)).filter holds).head? with
    | none =>
      have hsub : (starts.flatMap (t.sought holds depth)).Sublist [] := by
        rw [← List.head?_eq_none_iff.mp hl]
        exact Store.sought_outside
      rw [List.sublist_nil.mp hsub]
      rfl
    | some e =>
      have he := htrue e hl
      rw [List.filter_flatMap] at hl
      refine head_flatMap (P := fun e => e ∈ starts ∨ t.filled e = true) (fun r _ => Store.sought_sublist depth)
        (fun r hr d hd hP => ?_) hl he
      have hmem := (List.mem_filter.mp (List.mem_of_mem_head? hd)).1
      exact Store.sought_first hd (hP.imp (h.start_eq hr hmem) id)

end Starts

section Values
variable {p : Parser} {accepts : NodeId → Edit Bool} {onText : String → Edit Value} {w : ViewId} {root : ListId}
  {height fuel : Nat} {v : Value} {starts : List NodeId} {deep : Bool}

theorem Store.Tree.sought_eq (h : t.Tree i n) (hdepth : i ≤ depth) : t.sought holds depth n = t.sought holds i n := by
  induction i generalizing n depth with
  | zero => exact h.elim
  | succ i ih =>
    obtain _ | depth := depth
    · omega
    unfold Store.sought
    rw [List.flatMap_congr (fun m hm => ih (h.below (Store.inside_subset hm)).1 (by omega))]

/-- How far a search goes: below all nodes, or no further than where it begins. -/
def Store.reach (t : Store) (deep : Bool) : Nat := if deep then t.depth else 1

section Nodes
variable (h : t.Tree i n) (hdepth : i < t.depth) (hfuel : i ≤ fuel) (hpos : 0 < fuel)
  (haccepts : ∀ m, t.Descends everywhere n m → accepts m p t = .ok (holds m) t)
include h hdepth hfuel hpos haccepts

theorem Store.Tree.findFirst_reach : findIn look accepts onText fuel deep (.node n) p t =
    .ok (foundValue (t.sought holds (t.reach deep) n).head?) t := by
  cases deep with
  | true =>
    rw [h.findFirst hdepth hfuel haccepts]
    change _ = EStateM.Result.ok (foundValue (t.sought holds t.depth n).head?) t
    rw [h.sought_eq (Nat.le_of_lt hdepth)]
  | false =>
    obtain _ | fuel := fuel
    · omega
    change ((accepts n) >>= _) p t = _
    rw [Edit.run_bind,haccepts n .self]
    change _ = EStateM.Result.ok (foundValue (t.sought holds 1 n).head?) t
    have hnone : (t.inside n).flatMap (t.sought holds 0) = [] := List.flatMap_eq_nil_iff.mpr (fun _ _ => rfl)
    unfold Store.sought
    rw [hnone]
    cases holds n <;> rfl

theorem Store.Tree.findAll_reach : findAllIn look accepts fuel deep (.node n) p t =
    .ok (accepted holds (t.preorder t.filled (t.reach deep) n)) t := by
  cases deep with
  | true =>
    rw [h.findAll (Nat.le_of_lt hdepth) hfuel haccepts]
    change _ = EStateM.Result.ok (accepted holds (t.preorder t.filled t.depth n)) t
    rw [h.preorder_eq (Nat.le_of_lt hdepth)]
  | false =>
    obtain _ | fuel := fuel
    · omega
    change ((accepts n) >>= _) p t = _
    rw [Edit.run_bind,haccepts n .self]
    change _ = EStateM.Result.ok (accepted holds (n :: (t.below t.filled n).flatMap (fun _ => []))) t
    have hnone : (t.below t.filled n).flatMap (fun _ => ([] : List NodeId)) = [] :=
      List.flatMap_eq_nil_iff.mpr (fun _ _ => rfl)
    rw [hnone]
    unfold accepted
    cases hn : holds n <;> simp [hn]

end Nodes

section Lists
variable (h : t.Starts height v starts) (hdepth : height + 1 < t.depth)
  (haccepts : ∀ r ∈ starts, ∀ m, t.Descends everywhere r m → accepts m p t = .ok (holds m) t)
include h hdepth haccepts

theorem Store.Starts.findFirst : findIn look accepts onText t.depth deep v p t =
    .ok (foundValue (starts.flatMap (t.sought holds (t.reach deep))).head?) t := by
  rcases h.shape with ⟨n,rfl,rfl⟩ | ⟨l,lc,rfl,hl,hflavour,hitems⟩
  · rw [List.flatMap_singleton]
    have hn := List.mem_singleton_self n
    exact (h.trees n hn).findFirst_reach (by omega) (by omega) (by omega) (haccepts n hn)
  · obtain ⟨D,hD⟩ := t.depth_pos
    have hfind : ∀ m ∈ starts, findIn look accepts onText D deep (.node m) p t =
        .ok (foundValue (t.sought holds (t.reach deep) m).head?) t :=
      fun m hm => (h.trees m hm).findFirst_reach (by omega) (by omega) (by omega) (haccepts m hm)
    have hfirst : (starts.flatMap (t.sought holds (t.reach deep))).head? =
        ((starts.map (fun m => (t.sought holds (t.reach deep) m).head?)).find? (·.any (fun _ => true))).join := by
      rw [find_first_filled (S := t.sought holds (t.reach deep)) (fun m _ => ?_),List.filter_true]
      rw [List.filter_true]
      cases (t.sought holds (t.reach deep) m).head? <;> rfl
    have hnodes : (lc.flavour == .nodes) = true := beq_iff_eq.mpr hflavour
    rw [hD]
    change ((liftM (Read.list l) : Edit ListCell) >>= _) p t = _
    rw [Edit.read_known (Read.list_ok.mpr hl),hnodes,if_pos rfl,hitems,hfirst]
    refine firstFound_nodes _ hfind (fun m hm => ?_)
    cases (t.sought holds (t.reach deep) m).head? <;> rfl

theorem Store.Starts.findAll : findAllIn look accepts t.depth deep v p t =
    .ok (accepted holds (starts.flatMap (t.preorder t.filled (t.reach deep)))) t := by
  rcases h.shape with ⟨n,rfl,rfl⟩ | ⟨l,lc,rfl,hl,hflavour,hitems⟩
  · rw [List.flatMap_singleton]
    have hn := List.mem_singleton_self n
    exact (h.trees n hn).findAll_reach (by omega) (by omega) (by omega) (haccepts n hn)
  · obtain ⟨D,hD⟩ := t.depth_pos
    have hfind : ∀ m ∈ starts, findAllIn look accepts D deep (.node m) p t =
        .ok (accepted holds (t.preorder t.filled (t.reach deep) m)) t :=
      fun m hm => (h.trees m hm).findAll_reach (by omega) (by omega) (by omega) (haccepts m hm)
    have hnodes : (lc.flavour == .nodes) = true := beq_iff_eq.mpr hflavour
    rw [hD]
    change ((liftM (Read.list l) : Edit ListCell) >>= _) p t = _
    rw [Edit.read_known (Read.list_ok.mpr hl),hnodes,if_pos rfl,hitems,accepted_flatMap]
    exact gather_nodes hfind

end Lists

/-- A node of a document, the list of its rows, or a list of nodes that one of its nodes holds. -/
inductive Store.Searchable (t : Store) (w : ViewId) : Value → Prop where
  | node {n : NodeId} (member : t.Member w n) : Store.Searchable t w (.node n)
  | rows {root : ListId} (rooted : behind (.view w) t = .ok (.list root)) : Store.Searchable t w (.list root)
  | list {n : NodeId} {c : NodeCell} {f : Field} {held : Value} {l : ListId} {lc : ListCell} (member : t.Member w n)
    (cell : t.nodes[n.index]? = some c) (stored : c.stored? (.field f) = some held) (behind : behind held t = .ok (.list l))
    (behindCell : t.lists[l.index]? = some lc) (nodes : lc.flavour = .nodes) : Store.Searchable t w (.list l)

theorem Store.Siblings.startsAt {l : ListId} {lc : ListCell} {parent : Value} {place : Attr}
    (hl : t.lists[l.index]? = some lc) (hflavour : lc.flavour = .nodes) (hitems : lc.items = ms.map .node)
    (hms : t.Siblings (t.Tree height) parent place ms) (hup : ∀ z, parent = .node z → ∀ a ∈ ms, ¬ t.Descends everywhere a z) :
    t.Starts height (.list l) (t.nodesOf (.list l)) := by
  have hnodes : t.nodesOf (.list l) = ms := Store.rowOf_eq hl hitems
  rw [hnodes]
  refine ⟨.inr ⟨l,lc,rfl,hl,hflavour,hitems⟩,hms.each,fun a ha b hb x hax hbx => ?_⟩
  exact Store.Descends.eq_of_hang (hms.each a ha) (hms.each b hb) (hms.hang a ha) (hms.hang b hb)
    (fun z hz => ⟨hup z hz a ha,hup z hz b hb⟩) hax hbx

theorem Store.Document.startsAt (h : t.Document w root height) (hv : t.Searchable w v) :
    t.Starts height v (t.nodesOf v) := by
  cases hv with
  | @node n member =>
    refine ⟨.inl ⟨n,rfl,rfl⟩,fun m hm => ?_,fun a ha b hb x _ _ => ?_⟩
    · cases List.mem_singleton.mp hm
      exact h.member member
    · rw [List.mem_singleton.mp ha,List.mem_singleton.mp hb]
  | rows rooted =>
    cases rooted.symm.trans h.rooted
    obtain ⟨ms,hl,hms⟩ := h.rows
    exact hms.startsAt hl rfl rfl (fun z hz => by cases hz)
  | @list n c f held l lc member cell stored behind behindCell nodes =>
    have htree := h.member member
    -- At its least height the node is higher than all that it holds.
    obtain ⟨j,hj,htree,hleast⟩ := htree.least
    obtain ⟨j,c',rfl,hc⟩ := htree.opens
    cases cell.symm.trans hc.cell
    obtain ⟨-,ms,rfl,hms⟩ := hc.row stored behind behindCell nodes
    refine (hms.mono (fun m hm => hm.mono (by omega))).startsAt behindCell rfl rfl (fun z hz a ha hd => ?_)
    cases hz
    exact hleast j (Nat.lt_succ_self j) (hd.tree (hms.each a ha))

section Calls
variable {a : Arguments} {q : Query}

theorem Store.Starts.call_find (h : t.Starts height v starts) : call v "find" a p t = findCall v a p t ∧
    call v "find_all" a p t = findAllCall v a p t := by
  rcases h.shape with ⟨n,rfl,rfl⟩ | ⟨l,lc,rfl,hl,hflavour,hitems⟩
  · have htree := h.trees n (List.mem_singleton_self n)
    obtain ⟨i,c,rfl,hc⟩ := htree.opens
    exact ⟨call_node (by decide) hc.cell rfl,call_node (by decide) hc.cell rfl⟩
  · exact ⟨call_list (by decide) hl hflavour rfl,call_list (by decide) hl hflavour rfl⟩

/-- Searching a node or list of a new document for the first node that a query accepts, when the query has an answer
for every node there and changes nothing. All accepted nodes that are met are given by the search for all of them;
those outside formatting are in the same order. The search for one comes to the outermost of these that count as true or
are where it begins, and gives the first. So it gives the first of all accepted nodes outside formatting if and only if
that node counts as true or is where the search begins, or there is none. -/
theorem find_first_accepted {source : String} {s u : Store} (h : newDocument source p s = .ok (.view w) t)
    (hgrows : t.Grows u) (hv : u.Searchable w v) (hquery : a.query u = .ok (q,deep))
    (hq : ∀ r ∈ u.nodesOf v, ∀ m, u.Descends everywhere r m → q.accepts m p u = .ok (holds m) u) :
    ∃ starts found outside sought : List NodeId, starts = u.nodesOf v ∧
      found = (starts.flatMap (u.preorder u.filled (u.reach deep))).filter holds ∧
      outside = (starts.flatMap (u.outline (u.reach deep))).filter holds ∧
      sought = starts.flatMap (u.sought holds (u.reach deep)) ∧
      call v "find_all" a p u = .ok (.list ⟨u.lists.size⟩) (u.addList ⟨.nodes,found.map .node,.none,none,[]⟩) ∧
      call v "find" a p u = .ok (foundValue sought.head?) u ∧
      outside.Sublist found ∧ (∀ m, m ∈ outside ↔ m ∈ found ∧ ¬ u.InFormatting starts m) ∧
      sought.Sublist outside ∧ (∀ m, m ∈ sought ↔ m ∈ outside ∧ (m ∈ starts ∨ u.filled m = true) ∧
        ∀ k ∈ outside, u.Descends everywhere k m → k = m) ∧
      (sought.head? = outside.head? ↔ ∀ e ∈ outside.head?, e ∈ starts ∨ u.filled e = true) := by
  obtain ⟨root,height,hdoc⟩ := newDocument_rooted h
  have hdoc := hdoc.grows hgrows
  have hstarts := hdoc.startsAt hv
  have hdepth : height + 1 < u.depth := hdoc.depth
  have hfirst : CodeTree.findFirst q deep v p u = _ := hstarts.findFirst hdepth hq
  have hall : CodeTree.findAll q deep v p u = _ := hstarts.findAll hdepth hq
  refine ⟨_,_,_,_,rfl,rfl,rfl,rfl,?_,?_,?_,fun m => ?_,Store.sought_outside,fun m => hstarts.mem_sought,hstarts.head_sought⟩
  · rw [hstarts.call_find.2]
    unfold findAllCall
    rw [Edit.read_known hquery]
    dsimp only
    rw [Edit.run_bind,hall]
    rfl
  · rw [hstarts.call_find.1]
    unfold findCall
    rw [Edit.read_known hquery]
    exact hfirst
  · exact (List.Sublist.flatMap_right _ (fun m _ => Store.outline_sublist _)).filter holds
  · rw [List.mem_filter,List.mem_filter,hstarts.mem_outside]
    exact ⟨fun ⟨⟨hm,hnot⟩,hholds⟩ => ⟨⟨hm,hholds⟩,hnot⟩,fun ⟨⟨hm,hholds⟩,hnot⟩ => ⟨⟨hm,hnot⟩,hholds⟩⟩

/-- The query that accepts the nodes of one type. -/
def nodesOfType (word : String) : Query := ⟨everyNode.identifier,[.rule ⟨.hasType,"",.text word⟩],[]⟩

def Store.isOf (t : Store) (word : String) (n : NodeId) : Bool := (t.nodes[n.index]?).any (·.kind.word == word)

theorem nodesOfType_accepts {word : String} (h : t.Tree i n) :
    (nodesOfType word).accepts n p t = .ok (t.isOf word n) t := by
  refine (accepts_everyNode h [⟨.hasType,"",.text word⟩]).trans ?_
  obtain ⟨i,c,rfl,hc⟩ := h.opens
  have htype : t.isOf word n = (c.kind.word == word) := by
    unfold Store.isOf
    rw [hc.cell]
    rfl
  rw [htype]
  have hrule : agrees (.rule ⟨.hasType,"",.text word⟩) (.node n) p t = .ok (c.kind.word == word) t := by
    have hattr : attr (.node n) "type" t = .ok (.text c.kind.word) := attr_stored hc.cell hc.type
    have hequal : equal (.text c.kind.word) (.ofDatum (.text word)) t = .ok (c.kind.word == word) :=
      equal_ofDatum (.text c.kind.word) word t
    rw [agrees_rule]
    unfold applyRule
    dsimp only
    simp only [bind_assoc]
    rw [Edit.read_known hattr,Edit.read_known hequal]
    rfl
  have hall : allHold agrees n (nodesOfType word).conditions p t = .ok (c.kind.word == word) t := by
    change (agrees (.rule ⟨.hasType,"",.text word⟩) (.node n) >>= _) p t = _
    rw [Edit.run_bind,hrule]
    cases c.kind.word == word <;> rfl
  refine (Edit.bind_known hall).trans ?_
  cases c.kind.word == word <;> rfl

/-- A parser that takes every text for a condition with one branch, which has no lines. -/
def emptyConditionParser : Parser := fun _ => .ok (.list [.record [("type",.text "ifelseblock"),
  ("value",.list [.record [("type",.text "if"),("first_formatting",.list []),
    ("test",nameDatum "a"),("second_formatting",.list []),
    ("third_formatting",.list []),("value",.list [])]])]])

theorem find_first_accepted_condition : ∃ w t, newDocument "" emptyConditionParser .empty = .ok (.view w) t ∧
    call (.node ⟨0⟩) "find_all" (.ofList [everyNode.identifier,.rule ⟨.hasType,"",.text "if"⟩]) emptyConditionParser t =
      .ok (.list ⟨t.lists.size⟩) (t.addList ⟨.nodes,[.node ⟨1⟩],.none,none,[]⟩) ∧
    call (.node ⟨0⟩) "find" (.ofList [everyNode.identifier,.rule ⟨.hasType,"",.text "if"⟩]) emptyConditionParser t =
      .ok .none t := by
  have hruns : (newDocument "").ensures emptyConditionParser .empty (fun v t => ⟨0⟩ ∈ t.nodesOf v ∧
      ((t.nodesOf (.node ⟨0⟩)).flatMap (t.preorder t.filled (t.reach true))).filter (t.isOf "if") = [⟨1⟩] ∧
      (t.nodesOf (.node ⟨0⟩)).flatMap (t.sought (t.isOf "if") (t.reach true)) = []) = true := by decide +kernel
  obtain ⟨v,t,hdoc,hfinds⟩ := Edit.ensures_iff.mp hruns
  obtain ⟨w,root,height,rfl,htrees⟩ := newDocument_document hdoc
  obtain ⟨hrow,hfound,hsought⟩ := of_decide_eq_true hfinds
  have hn : t.Member w ⟨0⟩ := ⟨⟨0⟩,hrow,.self⟩
  have hholds : ∀ r ∈ t.nodesOf (.node ⟨0⟩), ∀ m, t.Descends everywhere r m →
      (nodesOfType "if").accepts m emptyConditionParser t = .ok (t.isOf "if" m) t := by
    intro r hr m hm
    cases List.mem_singleton.mp hr
    exact nodesOfType_accepts (hm.tree (htrees.member hn))
  obtain ⟨starts,found,outside,sought,rfl,rfl,rfl,rfl,hall,hone,-⟩ := find_first_accepted
    (a := .ofList [everyNode.identifier,.rule ⟨.hasType,"",.text "if"⟩]) (q := nodesOfType "if") hdoc (.refl t)
    (.node hn) rfl hholds
  rw [hfound] at hall
  rw [hsought] at hone
  exact ⟨w,t,hdoc,hall,hone⟩

end Calls

end Values

end CodeTree
