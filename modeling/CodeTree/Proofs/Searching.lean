import CodeTree.Proofs.Trees

/-! # Searches in a tree

An attribute that a node does not store is searched for: in the view that the node holds as its value,
otherwise among the nodes below it. In a tree such a search never fails. It comes to nothing or to a node of
the tree, and never to a list; only a search of the node itself can come to that node.
-/
namespace CodeTree
variable {α β : Type} {f : Field} {ms : List NodeId} {lc : ListCell} {l : ListId} {F : Nat} {P : NodeId → Prop}
  {onText : String → Read Value} {v : Value} {R : Value → Prop} {stop : Value → Read Bool} {vc : ViewCell}

namespace Read

/-- A question has an answer, and it is as it should be. -/
def Returns (r : Read α) (t : Store) (Q : α → Prop) : Prop := ∃ a, r t = .ok a ∧ Q a

variable {t : Store} {r : Read α} {Q : α → Prop}

theorem Returns.of_ok {a : α} (h : r t = .ok a) (hQ : Q a) : r.Returns t Q := ⟨a,h,hQ⟩

theorem Returns.pure {a : α} (hQ : Q a) : (Pure.pure a : Read α).Returns t Q := ⟨a,rfl,hQ⟩

theorem Returns.congr {r' : Read α} (h : r.Returns t Q) (hr : r' t = r t) : r'.Returns t Q := by
  obtain ⟨a,ha,hQ⟩ := h
  exact ⟨a,hr.trans ha,hQ⟩

theorem Returns.imp {R : α → Prop} (h : r.Returns t Q) (hQR : ∀ a, Q a → R a) : r.Returns t R := by
  obtain ⟨a,ha,hQ⟩ := h
  exact ⟨a,ha,hQR a hQ⟩

theorem Returns.bind {f : α → Read β} {R : β → Prop} (h : r.Returns t Q) (hf : ∀ a, Q a → (f a).Returns t R) :
    (r >>= f).Returns t R := by
  obtain ⟨a,ha,hQ⟩ := h
  obtain ⟨b,hb,hR⟩ := hf a hQ
  exact ⟨b,Read.bind_ok.mpr ⟨a,ha,hb⟩,hR⟩

theorem Returns.known {f : α → Read β} {R : β → Prop} {a : α} (ha : r t = .ok a) (hf : (f a).Returns t R) :
    (r >>= f).Returns t R := hf.congr (bind_known ha)

theorem Returns.orElse {d : Read α} (h : r.Returns t Q) : (Read.orElseMissing r d).Returns t Q := by
  obtain ⟨a,ha,hQ⟩ := h
  refine ⟨a,?_,hQ⟩
  unfold Read.orElseMissing
  rw [ha]

end Read

/-- A way of looking attributes up that does in a store what looking with some fuel does. -/
def Look.At (look : Look) (t : Store) (fuel : Nat) : Prop := ∀ n a, look n a t = lookAt fuel n a t

theorem lookAt_at (t : Store) (fuel : Nat) : (lookAt fuel).At t fuel := fun _ _ => rfl

theorem look_at (t : Store) : look.At t t.depth := fun _ _ => rfl

/-- A word that no pattern is hidden in. -/
def plainlySought (word : String) : Bool := !(soughtWord word).startsWith "re:" && !(soughtWord word).startsWith "g:"

/-- What a search can come to below some height: nothing, or a node of a tree that is less high. -/
def Store.Below (t : Store) (height : Nat) (v : Value) : Prop := v = .none ∨ ∃ m j, v = .node m ∧ j < height ∧ t.Tree j m

section Search
variable {t : Store} {n : NodeId} {c : NodeCell} {height fuel : Nat} {word : String}

theorem Store.Below.mono {i j : Nat} (h : t.Below i v) (hij : i ≤ j) : t.Below j v := by
  rcases h with rfl | ⟨m,k,rfl,hk,hm⟩
  · exact .inl rfl
  · exact .inr ⟨m,k,rfl,Nat.lt_of_lt_of_le hk hij,hm⟩

theorem firstFound_returns {Q : Value → Prop} {f : α → Read Value} {xs : List α} (hf : ∀ x ∈ xs, (f x).Returns t Q)
    (hstop : ∀ v, Q v → (stop v).Returns t (fun _ => True)) (hnone : Q .none) : (firstFound stop f xs).Returns t Q := by
  induction xs with
  | nil => exact .pure hnone
  | cons x xs ih =>
    refine (hf x List.mem_cons_self).bind (fun v hv => (hstop v hv).bind (fun b _ => ?_))
    cases b with
    | true => exact .pure hv
    | false => exact ih (List.forall_mem_cons.mp hf).2

theorem lookAt_stored (hc : t.nodes[n.index]? = some c) (hv : c.stored? (.field f) = some v) (hfuel : 0 < fuel) :
    lookAt fuel n (.field f) t = .ok v := by
  obtain _ | fuel := fuel
  · omega
  simp only [lookAt,Read.bind_ok,Read.node_ok]
  refine ⟨c,hc,?_⟩
  rw [NodeCell.own_field,hv]
  rfl

theorem NodeCell.alias_field (c : NodeCell) (f : Field) : c.alias? (.field f) = none := by
  unfold NodeCell.alias?
  split <;> first | rfl | contradiction

theorem membersWith_covers {look : Look} (h : t.Covers v l) (hl : t.lists[l.index]? = some lc) :
    membersWith look v t = .ok lc.items := by
  have hlist : itemsWith look (.list l) t = .ok lc.items := by
    simp only [itemsWith,Read.bind_ok,Read.list_ok,Read.pure_ok]
    exact ⟨lc,hl,rfl⟩
  rcases h with rfl | ⟨w,vc,rfl,hw,htarget,-⟩
  · exact hlist
  · simp only [membersWith,Read.bind_ok,Read.view_ok]
    exact ⟨vc,hw,by rw [htarget]; exact hlist⟩

section Stands
variable {P : NodeId → Prop} (h : t.Stands P n c)
include h

theorem Store.Stands.layout : c.layout = .ok c.kind.layout := by
  simp [NodeCell.layout,NodeCell.typeValue,h.type]

theorem Store.Stands.hasWord (hw : plainlySought word = true) : (hasWord word n).Returns t (fun _ => True) := by
  simp only [plainlySought,Bool.and_eq_true,Bool.not_eq_true'] at hw
  unfold CodeTree.hasWord
  refine .known (Read.node_ok.mpr h.cell) ?_
  have hids : ∃ words, c.identifiers = .ok words := by
    unfold NodeCell.identifiers NodeCell.typeValue
    rw [h.type]
    exact ⟨_,rfl⟩
  obtain ⟨words,hwords⟩ := hids
  refine .known (Read.lift_ok.mpr hwords) ⟨words.contains (soughtWord word),?_,trivial⟩
  rw [Read.lift_ok]
  unfold matchesWord
  rw [hw.1,hw.2]
  rfl

/-- A node stores under a field what the field bears, or nothing at all. -/
theorem Store.Stands.stored (hv : c.stored? (.field f) = some v) :
    (∃ word, v = .text word) ∨ ∃ form, t.Bears P n f form v := by
  rcases h.own _ _ hv with htype | ⟨g,hg,hfg⟩
  · cases htype
    rw [h.type] at hv
    cases hv
    exact .inl ⟨_,rfl⟩
  · cases hfg
    obtain ⟨form,shown,hslot⟩ := mem_slotFields hg
    obtain ⟨w,hw,hb⟩ := h.bears form f shown hslot
    rw [hv] at hw
    cases hw
    exact .inr ⟨form,hb⟩

/-- A list that a node stores is there, and a list of nodes hangs at the node. -/
theorem Store.Stands.borne (hv : c.stored? (.field f) = some (.list l)) :
    ∃ lc, t.lists[l.index]? = some lc ∧ (lc.flavour = .nodes → lc.parent = .node n) := by
  rcases h.stored hv with ⟨_,hw⟩ | ⟨form,hb⟩
  · cases hw
  · generalize hx : Value.list l = x at hb
    cases hb with
    | datum d => cases d <;> cases hx
    | empty => cases hx
    | child => cases hx
    | row _ covers cell =>
      subst hx
      rcases covers with hl | ⟨_,_,hw,-⟩
      · cases hl
        exact ⟨_,cell,fun _ => rfl⟩
      · cases hw
    | loose cell plain =>
      cases hx
      exact ⟨_,cell,fun hnodes => by rw [plain] at hnodes; cases hnodes⟩

/-- A node stands in another store as it does if that store keeps it, the nodes below, its lists and the views. -/
theorem Store.Stands.carry {u : Store} {Q : NodeId → Prop} (hcell : u.nodes[n.index]? = some c)
    (hhangs : ∀ {parent place m}, P m → t.Hangs parent place m → u.Hangs parent place m)
    (hlists : ∀ {l : ListId} {c}, t.lists[l.index]? = some c → (c.flavour = .nodes → c.parent = .node n) → u.lists[l.index]? = some c)
    (hcovers : ∀ {v l}, t.Covers v l → u.Covers v l) (hPQ : ∀ m, P m → Q m) : u.Stands Q n c := by
  -- A list that the node bears is one that stays.
  have hback : ∀ {f l lc}, c.stored? (.field f) = some (.list l) → u.lists[l.index]? = some lc →
      t.lists[l.index]? = some lc := by
    intro f l lc hv hl
    obtain ⟨lc',ht,hparent⟩ := h.borne hv
    rw [ht,← hl,hlists ht hparent]
  refine ⟨hcell,h.type,h.own,fun form f shown hslot => ?_,?_⟩
  · obtain ⟨v,hv,hb⟩ := h.bears form f shown hslot
    exact ⟨v,hv,hb.carry hhangs hlists hcovers hPQ⟩
  · rintro f g v w hfg hv hw ⟨l,lc,rfl,hl,hplain⟩ ⟨l',lc',rfl,hl',hplain'⟩ k k' kc kc' hk hk' hkc hkc'
    cases hk
    cases hk'
    exact h.apart f g _ _ hfg hv hw ⟨l,lc,rfl,hback hv hl,hplain⟩ ⟨l',lc',rfl,hback hw hl',hplain'⟩ _ _ _ _ rfl rfl
      (hback hv hkc) (hback hw hkc')

end Stands

/-- A view that a field holds is there, and stands for a list that hangs at the field. -/
theorem Store.Stands.view (h : t.Stands P n c) {w : ViewId} (hv : c.stored? (.field f) = some (.view w)) :
    ∃ vc l ms, t.views[w.index]? = some vc ∧ vc.target = .list l ∧ vc.extra = [] ∧
      t.lists[l.index]? = some ⟨.nodes,ms.map .node,.node n,some (.field f),[]⟩ ∧
      t.Siblings P (.node n) (.field f) ms := by
  rcases h.stored hv with ⟨_,hw⟩ | ⟨form,hb⟩
  · cases hw
  · generalize hx : Value.view w = x at hb
    cases hb with
    | datum d => cases d <;> cases hx
    | empty => cases hx
    | child => cases hx
    | loose => cases hx
    | row hform covers cell siblings =>
      subst hx
      rcases covers with hl | ⟨_,vc,hw,hvc,htarget,hextra⟩
      · cases hl
      · cases hw
        exact ⟨vc,_,_,hvc,htarget,hextra,cell,siblings⟩

/-- What a search makes of one slot of a node. -/
def searchSlot (look : Look) (word : String) (onText : String → Read Value) (fuel : Nat) (n : NodeId) : Slot → Read Value
  | .field .child f _ => do
    let child ← look n (.field f)
    if ← truthWith look child then findIn look (hasWord word) onText fuel true child else pure .none
  | .field .children f _ => do
    let held ← look n (.field f)
    let members ← membersWith look held
    firstFound (truthWith look) (findIn look (hasWord word) onText fuel true) members
  | _ => pure .none

theorem findIn_node {look : Look} : findIn look (hasWord word) onText (fuel + 1) true (.node n) = (do
      if ← hasWord word n then return .node n
      let c ← Read.node n
      let layout ← Read.lift c.layout
      firstFound (truthWith look) (searchSlot look word onText fuel n) layout) := rfl

/-- Asking for the length of a node has an answer. -/
def Store.Measured (t : Store) (look : Look) (height : Nat) : Prop :=
  ∀ i m, i < height → t.Tree i m → (lengthWith look m).Returns t (fun _ => True)

theorem Store.Below.truth {look : Look} (hlength : t.Measured look height) (hv : t.Below height v) :
    (truthWith look v).Returns t (fun _ => True) := by
  rcases hv with rfl | ⟨m,i,rfl,hi,hm⟩
  · exact .pure trivial
  · exact (hlength i m hi hm).bind (fun k _ => .pure trivial)

theorem findIn_row {look : Look}
    (hfind : ∀ m ∈ ms, (findIn look (hasWord word) onText fuel true (.node m)).Returns t (t.Below height))
    (hstop : ∀ v, t.Below height v → (stop v).Returns t (fun _ => True)) :
    (firstFound stop (findIn look (hasWord word) onText fuel true) (ms.map .node)).Returns t (t.Below height) := by
  refine firstFound_returns (fun x hx => ?_) hstop (.inl rfl)
  obtain ⟨m,hm,rfl⟩ := List.mem_map.mp hx
  exact hfind m hm

/-- Searching a slot of a node comes to what is below the node. -/
theorem searchSlot_returns {look : Look} (hlook : look.At t F) (hF : height < F) (hc : t.Stands (t.Tree height) n c)
    (hlength : t.Measured look (height + 1)) (hfind : ∀ m, t.Tree height m →
      (findIn look (hasWord word) onText fuel true (.node m)).Returns t (t.Below (height + 1))) {slot : Slot}
    (hslot : slot ∈ c.kind.layout) : (searchSlot look word onText fuel n slot).Returns t (t.Below (height + 1)) := by
  have hnone : (pure .none : Read Value).Returns t (t.Below (height + 1)) := .pure (.inl rfl)
  cases slot with
  | constant text shown => exact hnone
  | field form f shown =>
    obtain ⟨v,hv,hb⟩ := hc.bears form f shown hslot
    have hlook : look n (.field f) t = .ok v := (hlook n _).trans (lookAt_stored hc.cell hv (by omega))
    cases form with
    | text => exact hnone
    | flag => exact hnone
    | formatting => exact hnone
    | child =>
      refine .known hlook ?_
      cases hb with
      | datum d hform => cases hform
      | row hform => cases hform
      | empty => exact .known rfl hnone
      | @child m hangs below =>
        have hbelow : t.Below (height + 1) (.node m) := .inr ⟨m,height,rfl,Nat.lt_succ_self _,below⟩
        refine (hbelow.truth hlength).bind (fun b _ => ?_)
        cases b with
        | true => exact hfind m below
        | false => exact hnone
    | children =>
      refine .known hlook ?_
      cases hb with
      | datum d hform => cases hform
      | row hform covers cell siblings =>
        refine .known (membersWith_covers covers cell) ?_
        exact findIn_row (fun m hm => hfind m (siblings.each m hm)) (fun v hv => hv.truth hlength)

theorem Store.Stands.value (hc : t.Stands P n c) (hF : 0 < F)
    (hfind : (searchWith (lookAt (F - 1)) "value" (.node n)).Returns t R) : (lookAt F n (.field .value)).Returns t (fun v =>
      c.stored? (.field .value) = some v ∨ c.stored? (.field .value) = none ∧ R v) := by
  cases hv : c.stored? (.field .value) with
  | some v => exact .of_ok (lookAt_stored hc.cell hv hF) (.inl rfl)
  | none =>
    obtain _ | F := F
    · omega
    simp only [lookAt]
    refine .known (Read.node_ok.mpr hc.cell) ?_
    rw [NodeCell.own_field,hv]
    refine .known (Read.node_ok.mpr hc.cell) ?_
    rw [NodeCell.alias_field]
    exact hfind.imp (fun v hv => .inr ⟨trivial,hv⟩)

/-- Searching a node of a tree comes to the node itself or to what is below it, and its length can be asked
for. The two go together: a search asks for the length of what it finds, and what has no value is searched
for one. -/
theorem Store.Tree.searched (i : Nat) (hdepth : i ≤ t.depth) :
    (∀ n, t.Tree i n → ∀ look F fuel word onText, Look.At look t F → i ≤ F → i ≤ fuel → plainlySought word = true →
      (findIn look (CodeTree.hasWord word) onText fuel true (.node n)).Returns t (fun v => v = .node n ∨ t.Below i v)) ∧
    (∀ n, t.Tree i n → ∀ look F, Look.At look t F → i < F → (lengthWith look n).Returns t (fun _ => True)) := by
  induction i with
  | zero => exact ⟨fun _ h => h.elim,fun _ h => h.elim⟩
  | succ i ih =>
    obtain ⟨ihfind,ihlength⟩ := ih (by omega)
    have hfind : ∀ n, t.Tree (i + 1) n → ∀ look F fuel word onText, Look.At look t F → i + 1 ≤ F → i + 1 ≤ fuel →
        plainlySought word = true → (findIn look (CodeTree.hasWord word) onText fuel true (.node n)).Returns t
          (fun v => v = .node n ∨ t.Below (i + 1) v) := by
      intro n ⟨c,hc⟩ look F fuel word onText hlook hF hfuel hword
      obtain _ | fuel := fuel
      · omega
      have hlength : t.Measured look (i + 1) := by
        intro j m hj hm
        exact ihlength m (hm.mono (by omega)) look F hlook (by omega)
      rw [findIn_node]
      refine (hc.hasWord hword).bind (fun b _ => ?_)
      cases b with
      | true => exact .pure (.inl rfl)
      | false =>
        refine .known (Read.node_ok.mpr hc.cell) (.known (Read.lift_ok.mpr hc.layout) ?_)
        have hslots : ∀ slot ∈ c.kind.layout,
            (searchSlot look word onText fuel n slot).Returns t (t.Below (i + 1)) := by
          intro slot hslot
          refine searchSlot_returns hlook (by omega) hc hlength (fun m hm => ?_) hslot
          refine (ihfind m hm look F fuel word onText hlook (by omega) (by omega) hword).imp (fun v hv => ?_)
          rcases hv with rfl | hv
          · exact .inr ⟨m,i,rfl,Nat.lt_succ_self i,hm⟩
          · exact hv.mono (Nat.le_succ i)
        exact (firstFound_returns hslots (fun v hv => hv.truth hlength) (.inl rfl)).imp (fun v hv => .inr hv)
    refine ⟨hfind,?_⟩
    intro n hn look F hlook hF
    obtain ⟨c,hc⟩ := id hn
    have hvalue : (searchWith (lookAt (F - 1)) "value" (.node n)).Returns t (fun v => v = .node n ∨ t.Below (i + 1) v) :=
      .known rfl (hfind n hn _ _ _ _ _ (lookAt_at t _) (by omega) hdepth (by decide +kernel))
    refine ((hc.value (by omega) hvalue).congr (hlook n _)).orElse.bind (fun v hv => ?_)
    cases v with
    | view w =>
      rcases hv with hv | ⟨-,hv⟩
      · obtain ⟨vc,_,_,hw,-⟩ := hc.view hv
        exact .known (Read.view_ok.mpr hw) (.pure trivial)
      · rcases hv with hv | hv | ⟨_,_,hv,-⟩ <;> cases hv
    | _ => exact .pure trivial

end Search

section Looking

/-- An attribute that nodes, lists and views have no answer of their own for. -/
def Attr.quiet : Attr → Bool
  | .field f => f != .value
  | .other word =>
    word ∉ ["parent","on_attribute","init","node_list","style","next","previous"] && !word.endsWith "_"

/-- The constant texts of all layouts. -/
def constantTexts : List String := [":",")","(",".",",","yield","in","if","async","as","]","[","=","*","import","from","for",
  "else","`","\x7d","\x7b","with","while","try","return","raise","print","nonlocal","lambda","global","finally","exec",
  "except","elif","del","def","class","await","assert","@",">>",";","->","**"]

/-- The constant text of a slot is one of those; a field has none. -/
def Slot.isListed : Slot → Bool
  | .constant text _ => constantTexts.contains text
  | .field _ _ _ => true

theorem layout_listed (k : Kind) : ∀ slot ∈ k.layout, slot.isListed = true := by
  cases k <;> decide

theorem constantTexts_quiet : ∀ text ∈ constantTexts, (Attr.ofWord text).quiet = true ∧ plainlySought text = true := by
  decide +kernel

theorem layout_quiet {k : Kind} {text : String} {shown : Shown} (h : .constant text shown ∈ k.layout) :
    (Attr.ofWord text).quiet = true ∧ plainlySought text = true :=
  constantTexts_quiet text (List.contains_iff_mem.mp (layout_listed k _ h))

theorem Attr.word_ofWord (word : String) : (Attr.ofWord word).word = word := by
  unfold Attr.ofWord
  cases h : Field.ofWord? word with
  | none => rfl
  | some f =>
    have hf := List.find?_some h
    simpa [Attr.word] using hf

theorem NodeCell.alias_other (c : NodeCell) {word : String} (hword : word.endsWith "_" = false) :
    c.alias? (.other word) = none := by
  have hne : ∀ x : String, x.endsWith "_" = true → word ≠ x := by
    rintro x hx rfl
    rw [hx] at hword
    cases hword
  unfold NodeCell.alias?
  split
  · next heq => exact absurd (Attr.other.inj heq) (hne _ (by decide +kernel))
  · next heq => exact absurd (Attr.other.inj heq) (hne _ (by decide +kernel))
  · next heq _ _ =>
    cases heq
    rw [hword]
    rfl
  · rfl

theorem ViewCell.own_nodes (h : vc.extra = []) : vc.own? (.other "node_list") = some vc.target := by
  unfold ViewCell.own?
  rw [h]
  rfl

section Quiet
variable {a : Attr} (ha : a.quiet = true)
include ha

theorem NodeCell.own_quiet (c : NodeCell) : c.own? a = c.stored? a := by
  unfold NodeCell.own?
  split
  · simp [Attr.quiet] at ha
  · simp [Attr.quiet] at ha
  · simp [Attr.quiet] at ha
  · rfl

theorem NodeCell.alias_quiet (c : NodeCell) : c.alias? a = none := by
  cases a with
  | field f => exact c.alias_field f
  | other word =>
    simp only [Attr.quiet,Bool.and_eq_true,Bool.not_eq_true'] at ha
    exact c.alias_other ha.2

theorem ListCell.own_quiet (h : lc.extra = []) : lc.own? a = none := by
  unfold ListCell.own?
  rw [h]
  simp only [List.lookup_nil]
  split <;> first | rfl | simp [Attr.quiet] at ha

theorem ViewCell.own_quiet (h : vc.extra = []) : vc.own? a = none := by
  unfold ViewCell.own?
  rw [h]
  simp only [List.lookup_nil]
  split <;> first | rfl | simp [Attr.quiet] at ha

end Quiet

variable {t : Store} {n : NodeId} {c : NodeCell} {i : Nat} {a : Attr}

theorem Store.depth_pos (t : Store) : ∃ D, t.depth = D + 1 := ⟨_,rfl⟩

theorem Store.Tree.lookAt_value (hn : t.Tree i n) (hdepth : i ≤ t.depth) (hF : i < F) (hc : t.nodes[n.index]? = some c) :
    (lookAt F n (.field .value)).Returns t (fun v =>
      c.stored? (.field .value) = some v ∨ c.stored? (.field .value) = none ∧ (v = .node n ∨ t.Below i v)) := by
  have hsearch : (searchWith (lookAt (F - 1)) "value" (.node n)).Returns t (fun v => v = .node n ∨ t.Below i v) :=
    .known rfl ((Store.Tree.searched i hdepth).1 n hn _ _ _ _ _ (lookAt_at t _) (by omega) hdepth (by decide +kernel))
  obtain ⟨i,rfl⟩ : ∃ j, i = j + 1 := ⟨i - 1,by rcases i with _ | i <;> first | exact hn.elim | rfl⟩
  obtain ⟨c',hc'⟩ := hn
  cases hc'.cell.symm.trans hc
  exact hc'.value (by omega) hsearch

theorem attrWith_list_returns {look : Look} {fuel : Nat} (hl : t.lists[l.index]? = some lc) (hflavour : lc.flavour = .nodes)
    (hitems : lc.items = ms.map .node) (hms : ∀ m ∈ ms, t.Tree i m) (hown : lc.own? a = none)
    (hsought : plainlySought a.word = true) (hdepth : i + 1 ≤ t.depth) (hlook : look.At t F) (hF : i ≤ F) :
    (attrWith look fuel (.list l) a).Returns t (t.Below (i + 1)) := by
  have hnodes : (lc.flavour == .nodes) = true := by rw [hflavour]; rfl
  unfold attrWith
  refine .known (Read.list_ok.mpr hl) ?_
  rw [if_pos hnodes,hown]
  refine .known rfl ?_
  obtain ⟨D,hD⟩ := t.depth_pos
  rw [hD]
  refine .known (Read.list_ok.mpr hl) ?_
  rw [if_pos hnodes,hitems]
  refine findIn_row (fun m hm => ?_) (fun v _ => .pure trivial)
  have hfound := (Store.Tree.searched i (by omega)).1 m (hms m hm) look F D a.word
    (fun s => pure (.int (positionOf a.word.toList s.toList 0))) hlook hF (by omega) hsought
  refine hfound.imp (fun v hv => ?_)
  rcases hv with rfl | hv
  · exact .inr ⟨m,i,rfl,Nat.lt_succ_self i,hms m hm⟩
  · exact hv.mono (Nat.le_succ i)

/-- An attribute that a node does not have itself is asked of the view that is its value, otherwise it is
searched for at the node and below. -/
theorem Store.Tree.look_beyond (hn : t.Tree i n) (hdepth : i + 2 ≤ t.depth) (hc : t.nodes[n.index]? = some c)
    (hown : c.own? a = none) (halias : c.alias? a = none) (hne : a ≠ .field .value) (hsought : plainlySought a.word = true)
    (hthrough : ∀ w, c.stored? (.field .value) = some (.view w) → ∀ D, t.depth = D + 1 →
      (attrWith (lookAt D) t.depth (.view w) a).Returns t R) :
    (look n a).Returns t (fun v => (∃ w, c.stored? (.field .value) = some (.view w)) ∧ R v ∨
      (∀ w, c.stored? (.field .value) ≠ some (.view w)) ∧ (v = .node n ∨ t.Below i v)) := by
  obtain ⟨D,hD⟩ := t.depth_pos
  have hsearch : (searchWith (lookAt D) a.word (.node n)).Returns t (fun v => v = .node n ∨ t.Below i v) :=
    .known rfl ((Store.Tree.searched i (by omega)).1 n hn _ _ _ _ _ (lookAt_at t D) (by omega) (by omega) hsought)
  unfold look
  refine .known rfl ?_
  rw [hD]
  refine .known (Read.node_ok.mpr hc) ?_
  rw [hown]
  refine .known (Read.node_ok.mpr hc) ?_
  rw [halias]
  simp only [if_neg hne]
  refine (hn.lookAt_value (by omega) (by omega) hc).orElse.bind (fun v hv => ?_)
  have hplain : (∀ w, v ≠ .view w) → ∀ w, c.stored? (.field .value) ≠ some (.view w) := by
    intro hview w hw
    rcases hv with hv | ⟨hv,-⟩
    · rw [hw] at hv
      exact hview w (Option.some.inj hv).symm
    · rw [hw] at hv
      cases hv
  cases v with
  | view w =>
    rcases hv with hv | ⟨-,hv⟩
    · exact (Read.Returns.orElse (.known rfl (hthrough w hv D hD))).imp (fun u hu => .inl ⟨⟨w,hv⟩,hu⟩)
    · rcases hv with hv | hv | ⟨_,_,hv,-⟩ <;> cases hv
  | _ => exact hsearch.imp (fun u hu => .inr ⟨hplain (fun w hw => by cases hw),hu⟩)

theorem Store.Tree.stands (hn : t.Tree i n) (hc : t.nodes[n.index]? = some c) :
    ∃ j, i = j + 1 ∧ t.Stands (t.Tree j) n c := by
  cases i with
  | zero => exact hn.elim
  | succ j =>
    obtain ⟨c',hc'⟩ := hn
    cases hc'.cell.symm.trans hc
    exact ⟨j,rfl,hc'⟩

/-- What a node does not store is found below it, or is the node itself; the latter only if the value of the
node is not a view, since what is in the view is below the node. -/
theorem Store.Tree.look_missing (hn : t.Tree i n) (hdepth : i + 2 ≤ t.depth) (hc : t.nodes[n.index]? = some c)
    (ha : a.quiet = true) (hsought : plainlySought a.word = true) (hnone : c.stored? a = none) :
    (look n a).Returns t (fun v =>
      t.Below i v ∨ v = .node n ∧ ∀ w, c.stored? (.field .value) ≠ some (.view w)) := by
  have hne : a ≠ .field .value := by
    rintro rfl
    cases ha
  obtain ⟨j,rfl,hs⟩ := hn.stands hc
  refine (hn.look_beyond (R := t.Below (j + 1)) hdepth hc ((c.own_quiet ha).trans hnone) (c.alias_quiet ha) hne hsought
    (fun w hw D hD => ?_)).imp (fun v hv => ?_)
  · obtain ⟨vc,l,ms,hvc,htarget,hextra,hl,hms⟩ := hs.view hw
    rw [hD]
    refine .known (Read.view_ok.mpr hvc) ?_
    rw [ViewCell.own_quiet ha hextra,htarget]
    exact attrWith_list_returns hl rfl rfl hms.each (ListCell.own_quiet ha rfl) hsought (by omega) (lookAt_at t D)
      (by omega)
  · rcases hv with ⟨-,hv⟩ | ⟨hview,rfl | hv⟩
    · exact .inl hv
    · exact .inr ⟨rfl,hview⟩
    · exact .inl hv

theorem Store.Tree.look_nodes (hn : t.Tree i n) (hdepth : i + 2 ≤ t.depth) (hc : t.nodes[n.index]? = some c) :
    (look n (.other "node_list")).Returns t (fun v => ∀ l, v = .list l →
      (∃ w, c.stored? (.field .value) = some (.view w)) ∧ ∃ lc, t.lists[l.index]? = some lc ∧ lc.parent = .node n) := by
  obtain ⟨j,rfl,hs⟩ := hn.stands hc
  have hnone : c.stored? (.other "node_list") = none := by
    cases hv : c.stored? (.other "node_list") with
    | none => rfl
    | some v => rcases hs.own _ v hv with h | ⟨_,-,h⟩ <;> cases h
  have hown : c.own? (.other "node_list") = none := hnone
  refine (hn.look_beyond (R := fun v => ∃ l lc, v = .list l ∧ t.lists[l.index]? = some lc ∧ lc.parent = .node n) hdepth hc
    hown (c.alias_other (by decide +kernel)) (fun h => by cases h) (by decide +kernel)
    (fun w hw D hD => ?_)).imp (fun v hv l hl => ?_)
  · obtain ⟨vc,l,ms,hvc,htarget,hextra,hl,-⟩ := hs.view hw
    rw [hD]
    refine .known (Read.view_ok.mpr hvc) ?_
    rw [ViewCell.own_nodes hextra,htarget]
    exact .pure ⟨l,_,rfl,hl,rfl⟩
  · rcases hv with ⟨hview,l',lc,rfl,hlc,hparent⟩ | ⟨-,rfl | rfl | ⟨_,_,rfl,-⟩⟩
    · cases hl
      exact ⟨hview,lc,hlc,hparent⟩
    · cases hl
    · cases hl
    · cases hl

end Looking

end CodeTree
