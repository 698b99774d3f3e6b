import CodeTree.Proofs.Finding
import CodeTree.Proofs.Siblings

/-! # Reading order in a document

The nodes of a tree in the order in which their text is read. Reading a tree meets no fault, and it meets every node
but line ends when the node begins. So for the first time they are met in the order in which each node comes before
what lies below it, and the node read before another one is earlier in that order. This bounds the way back to the
line end that indents a line: every node of a document has an indentation.
-/
namespace CodeTree
variable {ms : List NodeId} {P : NodeId → Prop} {slot : Slot} {t : Store}

/-- Whether a node is a line end. -/
def Store.isEnd (t : Store) (n : NodeId) : Bool := (t.nodes[n.index]?).any (fun c => c.kind == .endl)

/-- Some nodes are met as an order says: all of them, line ends apart, and where one is met for the first time, those
met before it come before it in the order. -/
structure Store.Reads (t : Store) (ms order : List NodeId) : Prop where
  within : ∀ m ∈ ms, m ∈ order
  all : ∀ m ∈ order, t.isEnd m = false → m ∈ ms
  first : ∀ {xs m ys}, ms = xs ++ m :: ys → m ∉ xs → t.isEnd m = false → ∀ k ∈ xs, t.isEnd k = false → [k,m].Sublist order

section Orders
variable {t : Store} {ms ms' order order' : List NodeId} {n : NodeId}

theorem Store.Reads.nil : t.Reads [] [] := ⟨by simp,by simp,by simp⟩

theorem Store.Reads.append (h : t.Reads ms order) (h' : t.Reads ms' order') : t.Reads (ms ++ ms') (order ++ order') where
  within m hm := by
    rcases List.mem_append.mp hm with hm | hm
    · exact List.mem_append_left _ (h.within m hm)
    · exact List.mem_append_right _ (h'.within m hm)
  all m hm hend := by
    rcases List.mem_append.mp hm with hm | hm
    · exact List.mem_append_left _ (h.all m hm hend)
    · exact List.mem_append_right _ (h'.all m hm hend)
  first {xs m ys} heq hnew hm k hk hkend := by
    -- The first meeting is in the first part, or it is the first one of the second part.
    rcases List.append_eq_append_iff.mp heq with ⟨zs,rfl,hms'⟩ | ⟨zs,hms,hzs⟩
    · have hlater : m ∉ zs := fun hz => hnew (List.mem_append_right _ hz)
      rcases List.mem_append.mp hk with hk | hk
      · have hm' : m ∈ order' := h'.within m (by rw [hms']; simp)
        exact (List.singleton_sublist.mpr (h.within k hk)).append (List.singleton_sublist.mpr hm')
      · exact (h'.first hms' hlater hm k hk hkend).trans (List.sublist_append_right _ _)
    · cases zs with
      | nil =>
        rw [List.append_nil] at hms
        subst hms
        have hm' : m ∈ order' := h'.within m (by rw [← (List.nil_append ms'),← hzs]; simp)
        exact (List.singleton_sublist.mpr (h.within k hk)).append (List.singleton_sublist.mpr hm')
      | cons z zs =>
        obtain ⟨rfl,-⟩ := List.cons.inj hzs
        exact (h.first hms hnew hm k hk hkend).trans (List.sublist_append_left _ _)

theorem Store.Reads.flatMap {α : Type} {f g : α → List NodeId} {xs : List α} (h : ∀ x ∈ xs, t.Reads (f x) (g x)) :
    t.Reads (xs.flatMap f) (xs.flatMap g) := by
  induction xs with
  | nil => exact .nil
  | cons x xs ih =>
    rw [List.flatMap_cons,List.flatMap_cons]
    exact (h x List.mem_cons_self).append (ih (List.forall_mem_cons.mp h).2)

/-- A node is met when it begins, unless it is a line end, and then between its parts. -/
theorem Store.Reads.node (h : t.Reads (ms.filter (· ≠ n)) order) :
    t.Reads ((if t.isEnd n then [] else [n]) ++ ms) (n :: order) := by
  have hpart : ∀ {m}, m ∈ ms → m ≠ n → m ∈ ms.filter (· ≠ n) :=
    fun hm hne => List.mem_filter.mpr ⟨hm,by simpa using hne⟩
  have hfirst : ∀ {xs m ys}, ms = xs ++ m :: ys → m ∉ xs → m ≠ n → t.isEnd m = false →
      ∀ k ∈ xs, k ≠ n → t.isEnd k = false → [k,m].Sublist order := by
    intro xs m ys heq hnew hne hm k hk hkn hkend
    have hparts : ms.filter (· ≠ n) = xs.filter (· ≠ n) ++ m :: ys.filter (· ≠ n) := by
      rw [heq,List.filter_append,List.filter_cons_of_pos (by simpa using hne)]
    exact h.first hparts (fun hx => hnew (List.mem_of_mem_filter hx)) hm k
      (List.mem_filter.mpr ⟨hk,by simpa using hkn⟩) hkend
  have hwithin : ∀ m ∈ ms, m ∈ n :: order := by
    intro m hm
    by_cases hne : m = n
    · exact hne ▸ List.mem_cons_self
    · exact List.mem_cons_of_mem _ (h.within m (hpart hm hne))
  cases hend : t.isEnd n with
  | true =>
    have hother : ∀ {m}, t.isEnd m = false → m ≠ n := by
      rintro m hm rfl
      rw [hend] at hm
      cases hm
    refine ⟨hwithin,fun m hm hmend => ?_,fun heq hnew hm k hk hkend => ?_⟩
    · have hm := (List.mem_cons.mp hm).resolve_left (hother hmend)
      exact (List.mem_filter.mp (h.all m hm hmend)).1
    · exact (hfirst heq hnew (hother hm) hm k hk (hother hkend) hkend).cons n
  | false =>
    refine ⟨fun m hm => ?_,fun m hm hmend => ?_,fun {xs m ys} heq hnew hm k hk hkend => ?_⟩
    · rcases List.mem_cons.mp hm with rfl | hm
      · exact List.mem_cons_self
      · exact hwithin m hm
    · rcases List.mem_cons.mp hm with rfl | hm
      · exact List.mem_cons_self
      · exact List.mem_cons_of_mem _ (List.mem_filter.mp (h.all m hm hmend)).1
    · cases xs with
      | nil => cases hk
      | cons x xs =>
        obtain ⟨rfl,hms⟩ := List.cons.inj heq
        have hne : m ≠ n := fun h => hnew (h ▸ List.mem_cons_self)
        have hlater : m ∉ xs := fun hx => hnew (List.mem_cons_of_mem _ hx)
        by_cases hkn : k = n
        · have hms : ms = xs ++ m :: ys := hms
          have hm' := h.within m (hpart (by rw [hms]; simp) hne)
          rw [hkn]
          exact (List.singleton_sublist.mpr hm').cons_cons n
        · have hk := (List.mem_cons.mp hk).resolve_left hkn
          exact (hfirst hms hlater hne hm k hk hkn hkend).cons n

end Orders

section Flows
variable {α β : Type}

theorem Flow.append_ofList (xs ys : List α) : Flow.append (.ofList xs) (.ofList ys) = .ofList (xs ++ ys) := rfl

theorem Flow.flatMap_known {f : α → Flow β} {g : α → List β} {xs : List α} (h : ∀ x ∈ xs, f x = .ofList (g x)) :
    Flow.flatMap f xs = .ofList (xs.flatMap g) := by
  induction xs with
  | nil => rfl
  | cons x xs ih =>
    unfold Flow.flatMap
    rw [h x List.mem_cons_self,ih (List.forall_mem_cons.mp h).2]
    rfl

theorem Flow.flatMap_nodes {f : Value → Flow Value} {g : NodeId → List NodeId}
    (h : ∀ m ∈ ms, f (.node m) = .ofList ((g m).map .node)) :
    Flow.flatMap f (ms.map .node) = .ofList ((ms.flatMap g).map .node) := by
  rw [Flow.flatMap_known (g := fun v => (Value.node? v).elim [] (fun m => (g m).map .node)),List.flatMap_map,List.map_flatMap]
  · rfl
  · intro x hx
    obtain ⟨m,hm,rfl⟩ := List.mem_map.mp hx
    exact h m hm

end Flows

section Meetings
variable {t : Store} {n : NodeId} {c : NodeCell} {i fuel : Nat}

/-- What reading meets in one slot of a node. -/
def meetSlot (t : Store) (fuel : Nat) (n : NodeId) : Slot → Flow Value
  | .constant _ _ => .ofList [.node n]
  | .field .text f _ =>
    match look n (.field f) t with
    | .ok (.text _) => .ofList [.node n]
    | .ok _ => .ofList []
    | .error fault => .fail fault
  | .field .flag _ _ => .ofList []
  | .field .child f _ =>
    match look n (.field f) t with
    | .ok child => meetings t fuel child
    | .error fault => .fail fault
  | .field .children f _ | .field .formatting f _ =>
    match (look n (.field f) >>= members) t with
    | .ok inner => .flatMap (meetings t fuel) inner
    | .error fault => .fail fault

theorem word_endl (k : Kind) : (k.word == "endl") = (k == .endl) := by cases k <;> rfl

theorem Store.isEnd_eq (hc : t.nodes[n.index]? = some c) : t.isEnd n = (c.kind == .endl) := by
  unfold Store.isEnd
  rw [hc]
  rfl

theorem Store.Stands.isEnd (hc : t.Stands P n c) : t.isEnd n = (c.kind == .endl) := Store.isEnd_eq hc.cell

theorem Store.Tree.hasType_endl (h : t.Tree i n) : hasType (.node n) "endl" t = .ok (t.isEnd n) := by
  obtain ⟨i,c,rfl,hc⟩ := h.opens
  have hgoes : t.Goes (.node n) c.kind (.text c.kind.word) := ⟨n,c,rfl,hc.cell,rfl,hc.type⟩
  rw [hgoes.hasType,hc.isEnd,← word_endl]
  rfl

theorem meetings_typed (hc : t.nodes[n.index]? = some c) (htype : c.stored? (.field .type) = some (.text c.kind.word)) :
    meetings t (fuel + 1) (.node n) =
      .append (.ofList (if t.isEnd n then [] else [.node n])) (.flatMap (meetSlot t fuel n) c.kind.layout) := by
  have htype : c.typeValue = .text c.kind.word := by rw [NodeCell.typeValue,htype,Option.getD_some]
  have hlayout : c.layout = .ok c.kind.layout := by simp only [NodeCell.layout,htype,beq_self_eq_true,if_true]
  rw [Store.isEnd_eq hc,← word_endl]
  rw [meetings]
  simp only [hc,htype,hlayout]
  rfl

theorem meetings_node (hc : t.Stands P n c) : meetings t (fuel + 1) (.node n) =
    .append (.ofList (if t.isEnd n then [] else [.node n])) (.flatMap (meetSlot t fuel n) c.kind.layout) := meetings_typed hc.cell hc.type

/-- The nodes that reading meets in a slot of a node, if some are met below each node in the slot. -/
def Store.metIn (t : Store) (met : NodeId → List NodeId) (n : NodeId) (c : NodeCell) : Slot → List NodeId
  | .constant _ _ => [n]
  | .field .text f _ =>
    match c.stored? (.field f) with
    | some (.text _) => [n]
    | _ => []
  | .field .flag _ _ => []
  | slot => (t.hung everywhere c slot).flatMap met

/-- The nodes that reading meets in a node, down to some depth. -/
def Store.met (t : Store) : Nat → NodeId → List NodeId
  | 0, _ => []
  | depth + 1, n =>
    (if t.isEnd n then [] else [n]) ++ (t.nodes[n.index]?).elim [] (fun c => c.kind.layout.flatMap (t.metIn (t.met depth) n c))

theorem Store.Stands.met_eq (hc : t.Stands P n c) :
    t.met (i + 1) n = (if t.isEnd n then [] else [n]) ++ c.kind.layout.flatMap (t.metIn (t.met i) n c) := by
  rw [Store.met,hc.cell,Option.elim_some]

theorem meetSlot_met (hc : t.Stands (t.Tree i) n c)
    (hmeet : ∀ m, t.Tree i m → meetings t fuel (.node m) = .ofList ((t.met i m).map .node)) (hfuel : 0 < fuel)
    (hslot : slot ∈ c.kind.layout) : meetSlot t fuel n slot = .ofList ((t.metIn (t.met i) n c slot).map .node) := by
  cases slot with
  | constant text shown => rfl
  | field form f shown =>
    have hlist : form.isList = true →
        meetSlot t fuel n (.field form f shown) = .ofList ((t.metIn (t.met i) n c (.field form f shown)).map .node) := by
      intro hform
      obtain ⟨v,_,ns,hlook,hmembers,hhung,hns⟩ := hc.listed hslot hform
      have hheld : (look n (.field f) >>= members) t = .ok (ns.map .node) := (Read.bind_known hlook).trans hmembers
      have hrow := Flow.flatMap_nodes (f := meetings t fuel) (fun m hm => hmeet m (hns.each m hm))
      cases form with
      | children | formatting => simp only [meetSlot,hheld,hrow,Store.metIn,hhung]
      | _ => cases hform
    cases form with
    | text =>
      obtain ⟨v,hv,-⟩ := hc.bears _ f shown hslot
      simp only [meetSlot,look_stored hc.cell hv,Store.metIn,hv]
      cases v <;> rfl
    | flag => rfl
    | children => exact hlist rfl
    | formatting => exact hlist rfl
    | child =>
      obtain ⟨v,hlook,hhung,rfl | ⟨m,rfl,below⟩⟩ := hc.single hslot
      · obtain _ | fuel := fuel
        · omega
        simp only [meetSlot,hlook,Store.metIn,hhung,Store.nodesOf]
        rfl
      · simp only [meetSlot,hlook,hmeet m below,Store.metIn,hhung,Store.nodesOf,List.filter_true,List.flatMap_singleton]

theorem Store.Tree.meetings_met (h : t.Tree i n) (hfuel : i < fuel) :
    CodeTree.meetings t fuel (.node n) = .ofList ((t.met i n).map .node) := by
  induction i generalizing n fuel with
  | zero => exact h.elim
  | succ i ih =>
    obtain _ | fuel := fuel
    · omega
    obtain ⟨c,hc⟩ := h
    have hslots : ∀ slot ∈ c.kind.layout, meetSlot t fuel n slot = .ofList ((t.metIn (t.met i) n c slot).map .node) :=
      fun slot hslot => meetSlot_met hc (fun m hm => ih hm (by omega)) (by omega) hslot
    rw [meetings_node hc,Flow.flatMap_known hslots,Flow.append_ofList,hc.met_eq,List.map_append,List.map_flatMap]
    split <;> rfl

theorem Store.Stands.metIn_cases (hc : t.Stands P n c) (hslot : slot ∈ c.kind.layout) (met : NodeId → List NodeId) :
    t.metIn met n c slot = (t.hung everywhere c slot).flatMap met ∨
      t.metIn met n c slot = [n] ∧ t.hung everywhere c slot = [] := by
  cases slot with
  | constant text shown => exact .inr ⟨rfl,rfl⟩
  | field form f shown =>
    obtain ⟨v,hv,-⟩ := hc.bears form f shown hslot
    cases form with
    | text =>
      simp only [Store.metIn,hv]
      cases v with
      | text x => exact .inr ⟨rfl,rfl⟩
      | _ => exact .inl rfl
    | _ => exact .inl rfl

theorem Store.Tree.met_reads (h : t.Tree i n) : t.Reads (t.met i n) (t.preorder everywhere i n) := by
  induction i generalizing n with
  | zero => exact h.elim
  | succ i ih =>
    have hnodup := (List.nodup_cons.mp h.preorder_nodup).1
    have hbelow := fun {m} (hm : m ∈ t.below everywhere n) => (h.below hm).1
    obtain ⟨c,hc⟩ := h
    rw [hc.below_eq,List.flatMap_assoc] at hnodup
    rw [hc.below_eq] at hbelow
    rw [hc.met_eq,Store.preorder,hc.below_eq,List.flatMap_assoc]
    refine .node ?_
    rw [List.filter_flatMap]
    refine .flatMap (fun slot hslot => ?_)
    rcases hc.metIn_cases hslot (t.met i) with hmet | ⟨hmet,hhung⟩
    · have hreads : t.Reads ((t.hung everywhere c slot).flatMap (t.met i)) ((t.hung everywhere c slot).flatMap (t.preorder everywhere i)) :=
        .flatMap (fun m hm => ih (hbelow (List.mem_flatMap.mpr ⟨slot,hslot,hm⟩)))
      rw [hmet,List.filter_eq_self.mpr]
      · exact hreads
      · -- What is met below a node of the slot is not the node that has the slot.
        intro m hm
        have hne : m ≠ n := fun hmn => hnodup (List.mem_flatMap.mpr ⟨slot,hslot,hmn ▸ hreads.within m hm⟩)
        simpa using hne
    · rw [hmet,hhung,List.filter_cons_of_neg (by simp)]
      exact .nil

theorem Store.Tree.meetings (h : t.Tree i n) (hfuel : i < fuel) :
    ∃ ms : List NodeId, meetings t fuel (.node n) = .ofList (ms.map .node) ∧ t.Reads ms (t.preorder everywhere i n) :=
  ⟨_,h.meetings_met hfuel,h.met_reads⟩

end Meetings

section Before
variable {t : Store} {n : NodeId} {ms xs ys : List NodeId}

theorem itemBefore_first (hnew : n ∉ xs) (previous : Value) :
    itemBefore (.node n) previous ((xs ++ n :: ys).map .node) = .inl (xs.getLast?.elim previous .node) := by
  induction xs generalizing previous with
  | nil => simp [itemBefore,Value.is]
  | cons x xs ih =>
    have hne : x ≠ n := fun h => hnew (h ▸ List.mem_cons_self)
    have hrest := ih (fun h => hnew (List.mem_cons_of_mem _ h)) (.node x)
    rw [List.cons_append,List.map_cons,itemBefore,if_neg (by simpa [Value.is] using hne),hrest,List.getLast?_cons]
    cases xs.getLast? <;> rfl

theorem itemBefore_dropRepeats {previous : Value} (hne : previous ≠ .node n) :
    itemBefore (.node n) previous (dropRepeats previous (ms.map .node)) = itemBefore (.node n) previous (ms.map .node) := by
  induction ms generalizing previous with
  | nil => rfl
  | cons m ms ih =>
    have hother : m ≠ n → Value.node m ≠ .node n := fun h hv => h (Value.node.inj hv)
    rw [List.map_cons,dropRepeats]
    split
    · next hsame =>
      obtain rfl : previous = .node m := by
        cases previous <;> simp [Value.is] at hsame
        rw [hsame]
      have hmn : m ≠ n := fun h => hne (h ▸ rfl)
      rw [ih hne,itemBefore,if_neg (by simpa [Value.is] using hmn)]
    · rw [itemBefore,itemBefore]
      split
      · rfl
      · next hmn => exact ih (hother (by simpa [Value.is] using hmn))

theorem previousFrom_first {target : Value} {fuel : Nat} (htarget : target.isNone = false)
    (horder : readingOrder target t = .ok ⟨dropRepeats .none (ms.map .node),none⟩) (hms : ms = xs ++ n :: ys)
    (hnew : n ∉ xs) : previousFrom (.node n) (fuel + 1) target .none t = .ok (xs.getLast?.elim .none .node) := by
  unfold previousFrom
  rw [htarget,if_neg Bool.false_ne_true,Read.bind_known horder]
  dsimp only
  rw [itemBefore_dropRepeats (by simp),hms,itemBefore_first hnew]
  rfl

end Before

theorem readingOrder_node {n : NodeId} (hms : meetings t t.depth (.node n) = .ofList (ms.map .node)) :
    readingOrder (.node n) t = .ok ⟨dropRepeats .none (ms.map .node),none⟩ := by
  have hread : (read : Read Store) t = .ok t := rfl
  have hunder : underlying (.node n) t = .ok (.node n) := rfl
  have hflow : (pure (meetings t t.depth (.node n)) : Read (Flow Value)) t = .ok (.ofList (ms.map .node)) := by
    rw [hms]
    rfl
  unfold readingOrder
  rw [Read.bind_known hread,Read.bind_known hunder]
  dsimp only
  rw [Read.bind_known hflow]
  rfl

theorem readingOrder_list {v : Value} {l : ListId} {lc : ListCell} (hunder : underlying v t = .ok (.list l))
    (hl : t.lists[l.index]? = some lc) (hflavour : lc.flavour = .nodes)
    (hms : Flow.flatMap (meetings t t.depth) lc.items = .ofList (ms.map .node)) :
    readingOrder v t = .ok ⟨dropRepeats .none (ms.map .node),none⟩ := by
  have hread : (read : Read Store) t = .ok t := rfl
  have hflow : (pure (Flow.flatMap (meetings t t.depth) lc.items) : Read (Flow Value)) t = .ok (.ofList (ms.map .node)) := by
    rw [hms]
    rfl
  unfold readingOrder
  rw [Read.bind_known hread,Read.bind_known hunder]
  dsimp only
  rw [Read.list_known hl,if_pos (by rw [hflavour]; rfl),Read.bind_known hflow]
  rfl

section Documents
variable {t : Store} {w : ViewId} {root : ListId} {height i : Nat} {n m : NodeId}

theorem Store.Tree.readingOrder (h : t.Tree i n) (hdepth : i < t.depth) :
    ∃ ms : List NodeId, readingOrder (.node n) t = .ok ⟨dropRepeats .none (ms.map .node),none⟩ ∧
      t.Reads ms (t.preorder everywhere i n) := by
  obtain ⟨ms,hms,hreads⟩ := h.meetings hdepth
  exact ⟨ms,readingOrder_node hms,hreads⟩

theorem idxOf_lt_of_sublist {order : List NodeId} (hnodup : order.Nodup) (hsub : [m,n].Sublist order) :
    order.idxOf m < order.idxOf n := by
  obtain ⟨before,after,rfl,hm,hn⟩ := List.cons_sublist_iff.mp hsub
  have hn := List.singleton_sublist.mp hn
  have hnot : n ∉ before := fun h => (List.disjoint_of_nodup_append hnodup) h hn
  rw [List.idxOf_append_of_mem hm,List.idxOf_append_of_notMem hnot]
  have hlt := List.idxOf_lt_length_of_mem hm
  omega

/-- The nodes of a document in their order. -/
def Store.reading (t : Store) (w : ViewId) (height : Nat) : List NodeId :=
  (t.nodesOf (.view w)).flatMap (t.preorder everywhere height)

theorem Store.Descends.preorder_sublist (hd : t.Descends everywhere n m) (h : t.Tree i n) :
    (t.preorder everywhere i m).Sublist (t.preorder everywhere i n) := by
  induction hd with
  | self => exact List.Sublist.refl _
  | @step m k down hangs ih =>
    refine List.Sublist.trans ?_ ih
    have hm := down.tree h
    obtain ⟨j,rfl⟩ := hm.succ
    have hk := (hm.below hangs).1
    rw [hk.preorder_eq (Nat.le_succ j),Store.preorder]
    obtain ⟨before,after,hbelow⟩ := List.append_of_mem hangs
    rw [hbelow,List.flatMap_append,List.flatMap_cons]
    exact ((List.sublist_append_left _ _).trans (List.sublist_append_right _ _)).cons m

section Document
variable (h : t.Document w root height)
include h

theorem Store.Document.nodes : ∃ ms : List NodeId, t.nodesOf (.view w) = ms ∧
    t.lists[root.index]? = some ⟨.nodes,ms.map .node,.none,some .root,[]⟩ ∧ t.Siblings (t.Tree height) (.view w) .root ms := by
  obtain ⟨vc,hw,-,htarget,-,-,hextra⟩ := h.view
  obtain ⟨ms,hl,hms⟩ := h.rows
  exact ⟨ms,(Store.nodesOf_covers (.inr ⟨w,vc,rfl,hw,htarget,hextra⟩)).trans (Store.rowOf_eq hl rfl),hl,hms⟩

theorem Store.Document.mem_reading : m ∈ t.reading w height ↔ t.Member w m := by
  obtain ⟨ms,hms,-,hrows⟩ := h.nodes
  unfold Store.reading Store.Member
  rw [hms,List.mem_flatMap]
  constructor
  · rintro ⟨r,hr,hm⟩
    exact ⟨r,hr,(hrows.each r hr).mem_preorder.mp hm⟩
  · rintro ⟨r,hr,hm⟩
    exact ⟨r,hr,(hrows.each r hr).mem_preorder.mpr hm⟩

theorem Store.Document.preorder_sublist (hn : t.Member w n) :
    (t.preorder everywhere height n).Sublist (t.reading w height) := by
  obtain ⟨ms,hms,-,hrows⟩ := h.nodes
  obtain ⟨r,hr,hd⟩ := hn
  rw [hms] at hr
  refine (hd.preorder_sublist (hrows.each r hr)).trans ?_
  unfold Store.reading
  obtain ⟨before,after,hsplit⟩ := List.append_of_mem hr
  rw [hms,hsplit,List.flatMap_append,List.flatMap_cons]
  exact (List.sublist_append_left _ _).trans (List.sublist_append_right _ _)

theorem Store.Document.reading_nodup : (t.reading w height).Nodup := by
  obtain ⟨ms,hms,-,hrows⟩ := h.nodes
  unfold Store.reading
  rw [hms,List.nodup_flatMap]
  refine ⟨fun r hr => (hrows.each r hr).preorder_nodup,hrows.nodup.imp_of_mem (fun {r r'} hr hr' hne x hx hx' => ?_)⟩
  have htree := hrows.each r hr
  have htree' := hrows.each r' hr'
  -- A row hangs at the document, so it does not lie below another one.
  have happart : ∀ {a b}, a ∈ ms → b ∈ ms → a ≠ b → ¬ t.Descends everywhere a b := by
    intro a b ha hb hab hd
    cases hd with
    | self => exact hab rfl
    | @step m _ down hangs =>
      have hm := down.tree (hrows.each a ha)
      obtain ⟨j,rfl⟩ := hm.succ
      obtain ⟨-,_,bc,hbc,hparent,-⟩ := hm.below hangs
      obtain ⟨bc',hbc',hparent',-⟩ := hrows.hang b hb
      rw [hbc] at hbc'
      cases hbc'
      rw [hparent] at hparent'
      cases hparent'
  rcases Store.Descends.compare htree htree' (htree.mem_preorder.mp hx) (htree'.mem_preorder.mp hx') with hd | hd
  · exact happart hr hr' hne hd
  · exact happart hr' hr hne.symm hd

theorem Store.Document.reading_length : (t.reading w height).length ≤ t.nodes.size := by
  have hindex : ((t.reading w height).map NodeId.index).Nodup := by
    refine h.reading_nodup.map (fun a b hab => ?_)
    cases a
    cases b
    exact congrArg NodeId.mk hab
  have hsub : (t.reading w height).map NodeId.index ⊆ List.range t.nodes.size := by
    intro j hj
    obtain ⟨m,hm,rfl⟩ := List.mem_map.mp hj
    have htree := h.member (h.mem_reading.mp hm)
    obtain ⟨i,c,rfl,hc⟩ := htree.opens
    exact List.mem_range.mpr (Store.lt_nodes_of_get hc.cell)
  have hle := (List.subperm_of_subset hindex hsub).length_le
  rwa [List.length_map,List.length_range] at hle

theorem Store.Document.underlying : underlying (.view w) t = .ok (.list root) := by
  obtain ⟨vc,hw,-,htarget,-⟩ := h.view
  have hdepth := h.depth
  obtain ⟨D,hD⟩ : ∃ D, t.depth = D + 2 := ⟨t.depth - 2,by omega⟩
  unfold CodeTree.underlying
  rw [Read.bind_known (a := t.depth) rfl,hD,underlyingAt,Read.view_known hw,htarget]
  rfl

theorem Store.Document.meetings :
    ∃ ms : List NodeId, Flow.flatMap (meetings t t.depth) ((t.nodesOf (.view w)).map .node) = .ofList (ms.map .node) ∧
      t.Reads ms (t.reading w height) := by
  obtain ⟨rows,hrows,-,hsiblings⟩ := h.nodes
  have hdepth := h.depth
  have hmeet : ∀ m, t.Tree height m → ∃ ms : List NodeId, CodeTree.meetings t t.depth (.node m) = .ofList (ms.map .node) ∧
      t.Reads ms (t.preorder everywhere height m) := fun m hm => hm.meetings (by omega)
  choose! g hg using hmeet
  have hg := fun m hm => hg m (hsiblings.each m hm)
  refine ⟨rows.flatMap g,?_,?_⟩
  · rw [hrows]
    exact Flow.flatMap_nodes (fun m hm => (hg m hm).1)
  · unfold Store.reading
    rw [hrows]
    exact .flatMap (fun m hm => (hg m hm).2)

/-- What reading meets in that at which a node of a document hangs: the node, and what belongs to it in the order of the
document. -/
theorem Store.Document.around (hn : t.Member w n) :
    ∃ c order ms, t.nodes[n.index]? = some c ∧ c.parent.isNone = false ∧ n ∈ order ∧ order.Sublist (t.reading w height) ∧
      t.Reads ms order ∧ readingOrder c.parent t = .ok ⟨dropRepeats .none (ms.map .node),none⟩ ∧
      (c.parent = .view w ∧ Flow.flatMap (CodeTree.meetings t t.depth) ((t.nodesOf (.view w)).map .node) = .ofList (ms.map .node) ∨
        ∃ q, c.parent = .node q ∧ t.Member w q ∧ n ∈ t.below everywhere q ∧
          CodeTree.meetings t t.depth (.node q) = .ofList (ms.map .node)) := by
  obtain ⟨r,hr,hd⟩ := id hn
  cases hd with
  | self =>
    obtain ⟨rows,hrows,hl,hsiblings⟩ := h.nodes
    obtain ⟨c,hc,hparent,-⟩ := hsiblings.hang n (hrows ▸ hr)
    obtain ⟨ms,hms,hreads⟩ := h.meetings
    refine ⟨c,_,ms,hc,by rw [hparent]; rfl,h.mem_reading.mpr hn,List.Sublist.refl _,hreads,?_,.inl ⟨hparent,hms⟩⟩
    rw [hparent]
    rw [hrows] at hms
    exact readingOrder_list h.underlying hl rfl hms
  | @step q _ down hangs =>
    have hq : t.Member w q := ⟨r,hr,down⟩
    have htree := h.member hq
    have hdepth := h.depth
    obtain ⟨ms,hms,hreads⟩ := htree.meetings (show height < t.depth by omega)
    have hmem : n ∈ t.preorder everywhere height q := htree.mem_preorder.mpr (.step .self hangs)
    have hsub := h.preorder_sublist hq
    obtain ⟨j,rfl⟩ := htree.succ
    obtain ⟨-,_,c,hc,hparent,-⟩ := htree.below hangs
    refine ⟨c,_,ms,hc,by rw [hparent]; rfl,hmem,hsub,hreads,?_,.inr ⟨q,hparent,hq,hangs,hms⟩⟩
    rw [hparent]
    exact readingOrder_node hms

/-- The node read before another node of a document, which is no line end, is earlier in the order or a line end. -/
theorem Store.Document.previousRendered (hn : t.Member w n) (hend : t.isEnd n = false) :
    (previousRendered n).Returns t (fun v => v = .none ∨ ∃ k, v = .node k ∧ t.Member w k ∧
      (t.isEnd k = false → [k,n].Sublist (t.reading w height))) := by
  obtain ⟨D,hD⟩ : ∃ D, 2 * t.depth = D + 1 := ⟨2 * t.depth - 1,by have := h.depth; omega⟩
  obtain ⟨c,order,ms,hc,hsome,hmem,hsub,hreads,horder,-⟩ := h.around hn
  obtain ⟨xs,ys,hms,hnew⟩ := List.eq_append_cons_of_mem (hreads.all n hmem hend)
  refine ⟨xs.getLast?.elim .none .node,?_,?_⟩
  · unfold CodeTree.previousRendered
    rw [Read.bind_known (a := t.depth) rfl,Read.node_known hc,hD]
    exact previousFrom_first hsome horder hms hnew
  · cases hlast : xs.getLast? with
    | none => exact .inl rfl
    | some k =>
      have hk : k ∈ xs := List.mem_of_getLast? hlast
      have hmet : k ∈ ms := by
        rw [hms]
        exact List.mem_append_left _ hk
      refine .inr ⟨k,rfl,h.mem_reading.mp (hsub.subset (hreads.within k hmet)),fun hkend => ?_⟩
      exact (hreads.first hms hnew hend k hk hkend).trans hsub

/-- The line end that indents a node of a document, if there is one. It comes before the node in any order in which what is
read before a node does. -/
theorem Store.Document.indentationNode {R : NodeId → NodeId → Prop} (htrans : ∀ {a b c}, R a b → R b c → R a c)
    (hprevious : ∀ {m k}, t.Member w m → t.isEnd m = false → CodeTree.previousRendered m t = .ok (.node k) → R k m)
    (hn : t.Member w n) : (indentationNode n).Returns t (fun v =>
      v = .none ∨ ∃ k, v = .node k ∧ t.Member w k ∧ t.isEnd k = true ∧ R k n) := by
  have hback : ∀ fuel m, t.Member w m → (t.reading w height).idxOf m < fuel → (indentationNodeAt fuel m).Returns t (fun v =>
      v = .none ∨ ∃ k, v = .node k ∧ t.Member w k ∧ t.isEnd k = true ∧ R k m) := by
    intro fuel
    induction fuel with
    | zero => exact fun m _ hlt => absurd hlt (Nat.not_lt_zero _)
    | succ fuel ih =>
      intro m hm hlt
      unfold indentationNodeAt
      refine .known (h.member hm).hasType_endl ?_
      cases hend : t.isEnd m with
      | true => exact .pure (.inl rfl)
      | false =>
        obtain ⟨v,hv,hcases⟩ := h.previousRendered hm hend
        refine .bind (.orElse (.of_ok hv rfl)) (fun _ hsame => hsame ▸ ?_)
        rcases hcases with rfl | ⟨k,rfl,hk,hearlier⟩
        · exact .pure (.inl rfl)
        · have hR := hprevious hm hend hv
          refine .known (h.member hk).hasType_endl ?_
          cases hkend : t.isEnd k with
          | true => exact .pure (.inr ⟨k,rfl,hk,hkend,hR⟩)
          | false =>
            have hlt' := idxOf_lt_of_sublist h.reading_nodup (hearlier hkend)
            exact (ih k hk (by omega)).imp (fun _ => .imp_right (fun ⟨e,hv,he,hend,hRe⟩ => ⟨e,hv,he,hend,htrans hRe hR⟩))
  have hlt : (t.reading w height).idxOf n < t.depth := by
    have hidx := List.idxOf_lt_length_of_mem (h.mem_reading.mpr hn)
    have hlength := h.reading_length
    unfold Store.depth
    omega
  exact .known (a := t.depth) rfl (hback _ n hn hlt)

/-- All line ends of a document name their indentation by a text. -/
def Store.Indents (t : Store) (w : ViewId) : Prop :=
  ∀ m c, t.Member w m → t.nodes[m.index]? = some c → c.kind = .endl → ∃ x, c.stored? (.field .indent) = some (.text x)

theorem Store.Document.indentationOf (hends : t.Indents w) (hn : t.Member w n) :
    (indentationOf n).Returns t (fun v => ∃ x, v = .text x) := by
  refine .bind (h.indentationNode (R := fun _ _ => True) (fun _ _ => trivial) (fun _ _ _ => trivial) hn) (fun v hv => ?_)
  rcases hv with rfl | ⟨k,rfl,hk,hend,-⟩
  · exact .pure ⟨_,rfl⟩
  · have htree := h.member hk
    obtain ⟨i,c,rfl,hc⟩ := htree.opens
    rw [hc.isEnd,beq_iff_eq] at hend
    obtain ⟨x,hx⟩ := hends k c hk hc.cell hend
    exact .of_ok (look_stored hc.cell hx) ⟨x,rfl⟩

theorem Store.Document.attr_indentation (hends : t.Indents w) (hn : t.Member w n) :
    (attr (.node n) "indentation").Returns t (fun v => ∃ x, v = .text x) := by
  obtain ⟨D,hD⟩ := t.depth_pos
  refine .known (a := t.depth) rfl ?_
  rw [hD]
  exact (h.indentationOf hends hn).orElse

/-- What follows a node of a document is another one, or nothing. -/
theorem Store.Document.nextSibling (hn : t.Member w n) :
    (nextSibling n).Returns t (fun v => v = .none ∨ ∃ m, v = .node m ∧ t.Member w m) := by
  have hrow : ∀ {l : ListId} {lc : ListCell} {ms : List NodeId}, t.lists[l.index]? = some lc → lc.items = ms.map .node →
      (∀ m ∈ ms, t.Member w m) → listOf? n t = .ok (some (.list l)) →
      (CodeTree.nextSibling n).Returns t (fun v => v = .none ∨ ∃ m, v = .node m ∧ t.Member w m) := by
    intro l lc ms hl hitems hms hlist
    refine (nextSibling_mem hlist hl).imp (fun v hv => hv.imp id (fun hv => ?_))
    rw [hitems] at hv
    obtain ⟨m,hm,rfl⟩ := List.mem_map.mp hv
    exact ⟨m,rfl,hms m hm⟩
  have hnone : listOf? n t = .ok none →
      (CodeTree.nextSibling n).Returns t (fun v => v = .none ∨ ∃ m, v = .node m ∧ t.Member w m) := by
    intro hlist
    have hfollowers : followers? n t = .ok none := by
      unfold followers?
      rw [Read.bind_known hlist]
      rfl
    exact .known hfollowers (.pure (.inl rfl))
  obtain ⟨rows,hrows,hroot,hsiblings⟩ := h.nodes
  obtain ⟨vc,hw,-,htarget,-,-,hextra⟩ := h.view
  obtain ⟨r,hr,hd⟩ := id hn
  cases hd with
  | self =>
    obtain ⟨c,hc,hparent,hplace⟩ := hsiblings.hang n (hrows ▸ hr)
    have hheld : c.heldIn t = .ok (.view w) := by
      unfold NodeCell.heldIn
      rw [hplace,hparent]
      rfl
    have hcovers : t.Covers (.view w) root := .inr ⟨w,vc,rfl,hw,htarget,hextra⟩
    refine hrow hroot rfl (fun m hm => ⟨m,hrows.symm ▸ hm,.self⟩) ?_
    rw [listOf_known hc (by rw [hparent]; rfl) hheld,listIn_covers hcovers hroot rfl]
  | @step q _ down hangs =>
    have hq : t.Member w q := ⟨r,hr,down⟩
    have htree := h.member hq
    have hdepth := h.depth
    obtain ⟨j,rfl⟩ := htree.succ
    obtain ⟨qc,hqc⟩ := id htree
    have hmember : ∀ {slot : Slot} {m : NodeId}, slot ∈ qc.kind.layout → m ∈ t.hung everywhere qc slot → t.Member w m := by
      intro slot m hslot hm
      refine ⟨r,hr,.step down ?_⟩
      rw [hqc.below_eq]
      exact List.mem_flatMap.mpr ⟨slot,hslot,hm⟩
    have hbelow := hangs
    rw [hqc.below_eq,List.mem_flatMap] at hbelow
    obtain ⟨slot,hslot,hmem⟩ := hbelow
    cases slot with
    | constant => cases hmem
    | field form f shown =>
      obtain ⟨-,⟨hform,c,hc,hparent,hplace⟩ | ⟨⟨c,hc,hparent,hplace⟩,-⟩⟩ := (hqc.hung hslot).2 n hmem
      · obtain ⟨v,hv,hb⟩ := hqc.bears form f shown hslot
        have hheld := (heldIn_field hparent hplace).trans (look_stored hqc.cell hv)
        have hlist := listOf_known hc (by rw [hparent]; rfl) hheld
        cases hb with
        | datum d hform' =>
          rw [hform] at hform'
          cases hform'
        | empty => exact hnone hlist
        | child hangs below => exact hnone hlist
        | row hform' covers cell siblings =>
          refine hrow cell rfl (fun m hm => hmember hslot ?_) (hlist.trans (listIn_covers covers cell rfl))
          rw [Store.hung_list hform' hv,Store.nodesOf_covers covers,Store.rowOf_eq cell rfl]
          exact hm
        | loose cell plain items siblings =>
          refine hnone (hlist.trans ?_)
          rw [listIn,Read.list_known cell,if_neg (by rw [plain]; decide)]
          rfl
      · -- Spacing that was set anew hangs at the delimiter, where no list is held.
        have hlook : (look q (.field .delimiter)).Returns t (fun v => listIn v t = .ok none) := by
          cases hv : qc.stored? (.field .delimiter) with
          | some v =>
            refine .of_ok (look_stored hqc.cell hv) ?_
            obtain ⟨g,hg,hfield⟩ := (hqc.own _ _ hv).resolve_left (by simp)
            cases hfield
            obtain ⟨form,shown,hslot⟩ := mem_slotFields hg
            have htext : form.isText = true := layout_delimits _ _ hslot
            obtain ⟨v',hv',hb⟩ := hqc.bears form .delimiter shown hslot
            cases hv.symm.trans hv'
            cases hb with
            | datum d => cases d <;> rfl
            | row hform => cases form <;> first | exact absurd htext (by decide) | exact absurd hform (by decide)
            | _ => cases htext
          | none =>
            refine (htree.look_missing (by omega) hqc.cell rfl (by decide +kernel) hv).imp (fun v hv => ?_)
            rcases hv with hv | ⟨rfl,-⟩
            · rcases hv with rfl | ⟨m,_,rfl,-⟩ <;> rfl
            · rfl
        obtain ⟨v,hv,hlist⟩ := hlook
        exact hnone ((listOf_known hc (by rw [hparent]; rfl) ((heldIn_field hparent hplace).trans hv)).trans hlist)

theorem Store.Document.attr_next (hn : t.Member w n) :
    (attr (.node n) "next").Returns t (fun v => v = .none ∨ ∃ m, v = .node m ∧ t.Member w m) := by
  obtain ⟨D,hD⟩ := t.depth_pos
  refine .known (a := t.depth) rfl ?_
  rw [hD]
  exact (h.nextSibling hn).orElse

end Document

end Documents

section Viewing

theorem withoutSeparators_returns {s : Store} {L : List Value}
    (h : ∀ x ∈ L, ∃ m c, x = .node m ∧ s.nodes[m.index]? = some c) :
    (withoutSeparators L).Returns s (fun xs => xs ⊆ L) := by
  induction L with
  | nil => exact .pure (List.Subset.refl _)
  | cons x L ih =>
    obtain ⟨m,c,rfl,hc⟩ := h x List.mem_cons_self
    refine .bind (ih (List.forall_mem_cons.mp h).2) (fun others hothers => ?_)
    have hseparates : separates (.node m) s = .ok c.kind.separates := Read.node_known hc
    refine .known hseparates (.pure ?_)
    split
    · exact List.subset_cons_of_subset _ hothers
    · exact List.cons_subset_cons _ hothers

end Viewing

end CodeTree
