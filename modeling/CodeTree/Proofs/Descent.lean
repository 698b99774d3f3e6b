import Mathlib.Data.List.Flatten
import Mathlib.Data.List.Nodup
import CodeTree.Proofs.Searching

/-! # What lies below a node

The nodes that hang in the slots of a node, in the order of its layout, and all that lies below it, each node
before what is below it. In a tree this order meets every node once. A child may be passed over together with
all that is below it; what is met then is a part of the whole, in the same order.
-/
namespace CodeTree
variable {f : Field} {form : Form} {l : ListId} {depth : Nat} {k x a b : NodeId} {shown : Shown} {v : Value}

def Value.node? : Value → Option NodeId
  | .node n => some n
  | _ => Option.none

section Definitions
variable (t : Store)

/-- The nodes of a list. -/
def Store.rowOf (l : ListId) : List NodeId := ((t.lists[l.index]?).elim [] ListCell.items).filterMap Value.node?

/-- The nodes that a value holds: itself, or those of a list, bare or behind a view. -/
def Store.nodesOf : Value → List NodeId
  | .node m => [m]
  | .list l => t.rowOf l
  | .view w =>
    match (t.views[w.index]?).map ViewCell.target with
    | some (.list l) => t.rowOf l
    | _ => []
  | _ => []

/-- The nodes that hang in a slot of a node, of the children only those that are to be entered. -/
def Store.hung (enter : NodeId → Bool) (c : NodeCell) : Slot → List NodeId
  | .field .child f _ => ((c.stored? (.field f)).elim [] t.nodesOf).filter enter
  | .field .children f _ | .field .formatting f _ => (c.stored? (.field f)).elim [] t.nodesOf
  | _ => []

/-- The nodes that hang at a node, in the order of its layout. -/
def Store.below (enter : NodeId → Bool) (n : NodeId) : List NodeId :=
  (t.nodes[n.index]?).elim [] (fun c => c.kind.layout.flatMap (t.hung enter c))

/-- A node and what lies below it, down to some depth, each node before what lies below it. -/
def Store.preorder (enter : NodeId → Bool) : Nat → NodeId → List NodeId
  | 0, _ => []
  | depth + 1, n => n :: (t.below enter n).flatMap (Store.preorder enter depth)

/-- A node is another one or lies below it. -/
inductive Store.Descends (enter : NodeId → Bool) (n : NodeId) : NodeId → Prop where
  | self : Store.Descends enter n n
  | step {m k : NodeId} (down : Store.Descends enter n m) (hangs : k ∈ t.below enter m) : Store.Descends enter n k

end Definitions

/-- Every child is entered. -/
abbrev everywhere : NodeId → Bool := fun _ => true

variable {t u : Store} {n m : NodeId} {c : NodeCell} {P : NodeId → Prop} {enter : NodeId → Bool}

section Rows

theorem filterMap_node? (ms : List NodeId) : (ms.map Value.node).filterMap Value.node? = ms := by
  induction ms with
  | nil => rfl
  | cons m ms ih => exact congrArg (m :: ·) ih

theorem Store.rowOf_eq {lc : ListCell} {ms : List NodeId} (hl : t.lists[l.index]? = some lc)
    (hitems : lc.items = ms.map .node) : t.rowOf l = ms := by
  simp only [Store.rowOf,hl,Option.elim_some,hitems,filterMap_node?]

theorem Store.nodesOf_covers (h : t.Covers v l) : t.nodesOf v = t.rowOf l := by
  rcases h with rfl | ⟨w,vc,rfl,hw,htarget,-⟩
  · rfl
  · simp only [Store.nodesOf,hw,Option.map_some,htarget]

theorem Store.nodesOf_ofDatum (t : Store) (d : Datum) : t.nodesOf (.ofDatum d) = [] := by
  cases d <;> rfl

theorem Store.Bears.hung (h : t.Bears P n f form v) : (t.nodesOf v).Nodup ∧ ∀ m ∈ t.nodesOf v, P m ∧
      (form.isText = false ∧ t.Hangs (.node n) (.field f) m ∨ t.Loose v ∧ t.Hangs (.node n) (.field .delimiter) m) := by
  cases h with
  | datum d =>
    rw [t.nodesOf_ofDatum]
    exact ⟨List.nodup_nil,by simp⟩
  | empty => exact ⟨List.nodup_nil,by simp [Store.nodesOf]⟩
  | @child m hangs below =>
    refine ⟨List.nodup_cons.mpr ⟨by simp,List.nodup_nil⟩,fun m' hm' => ?_⟩
    cases List.mem_singleton.mp hm'
    exact ⟨below,.inl ⟨rfl,hangs⟩⟩
  | row isList covers cell siblings =>
    rw [Store.nodesOf_covers covers,Store.rowOf_eq cell rfl]
    have htext : form.isText = false := by cases form <;> first | rfl | cases isList
    exact ⟨siblings.nodup,fun m hm => ⟨siblings.each m hm,.inl ⟨htext,siblings.hang m hm⟩⟩⟩
  | loose cell plain items siblings =>
    have hnodes : t.nodesOf (.list _) = _ := Store.rowOf_eq cell items
    rw [hnodes]
    exact ⟨siblings.nodup,fun m hm => ⟨siblings.each m hm,.inr ⟨⟨_,_,rfl,cell,plain⟩,siblings.hang m hm⟩⟩⟩

end Rows

section Below

theorem Store.hung_list (hform : form.isList = true) (hv : c.stored? (.field f) = some v) :
    t.hung enter c (.field form f shown) = t.nodesOf v := by
  cases form with
  | children | formatting => simp only [Store.hung,hv,Option.elim_some]
  | _ => cases hform

theorem Store.hung_sublist (c : NodeCell) (slot : Slot) : (t.hung enter c slot).Sublist (t.hung everywhere c slot) := by
  rcases slot with _ | ⟨_ | _ | _ | _ | _,_,_⟩
  case field.child f _ =>
    simp only [Store.hung,List.filter_true]
    exact List.filter_sublist
  all_goals exact List.Sublist.refl _

theorem Store.below_sublist : (t.below enter n).Sublist (t.below everywhere n) := by
  unfold Store.below
  cases t.nodes[n.index]? with
  | none => exact .slnil
  | some c => exact .flatMap_right _ (fun slot _ => t.hung_sublist c slot)

/-- No field for nodes is called a delimiter. -/
def Slot.delimits : Slot → Bool
  | .field form .delimiter _ => form.isText
  | _ => true

theorem layout_delimits (k : Kind) : ∀ slot ∈ k.layout, slot.delimits = true := by
  cases k <;> decide

variable (h : t.Stands P n c)
include h

theorem Store.Stands.below_eq : t.below enter n = c.kind.layout.flatMap (t.hung enter c) := by
  simp only [Store.below,h.cell,Option.elim_some]

theorem Store.Stands.hung (hslot : .field form f shown ∈ c.kind.layout) :
    (t.hung everywhere c (.field form f shown)).Nodup ∧ ∀ m ∈ t.hung everywhere c (.field form f shown), P m ∧
      (form.isText = false ∧ t.Hangs (.node n) (.field f) m ∨ t.Hangs (.node n) (.field .delimiter) m ∧
        ∃ l lc, c.stored? (.field f) = some (.list l) ∧ t.lists[l.index]? = some lc ∧ lc.flavour = .plain ∧
          Value.node m ∈ lc.items) := by
  obtain ⟨v,hv,hb⟩ := h.bears form f shown hslot
  have hheld : t.hung everywhere c (.field form f shown) = t.nodesOf v ∨ t.hung everywhere c (.field form f shown) = [] := by
    cases form <;> simp [Store.hung,hv]
  rcases hheld with hheld | hheld
  · rw [hheld]
    refine ⟨hb.hung.1,fun m hm => ?_⟩
    obtain ⟨hP,hplace | ⟨⟨l,lc,rfl,hl,hplain⟩,hplace⟩⟩ := hb.hung.2 m hm
    · exact ⟨hP,.inl hplace⟩
    · refine ⟨hP,.inr ⟨hplace,l,lc,hv,hl,hplain,?_⟩⟩
      simp only [Store.nodesOf,Store.rowOf,hl,Option.elim_some,List.mem_filterMap] at hm
      obtain ⟨x,hx,hxm⟩ := hm
      cases x <;> cases hxm
      exact hx
  · rw [hheld]
    exact ⟨List.nodup_nil,by simp⟩

/-- A field for one node holds it, or nothing. -/
theorem Store.Stands.single (hslot : .field .child f shown ∈ c.kind.layout) : ∃ v, look n (.field f) t = .ok v ∧
    (∀ enter, t.hung enter c (.field .child f shown) = (t.nodesOf v).filter enter) ∧ (v = .none ∨ ∃ m, v = .node m ∧ P m) := by
  obtain ⟨v,hv,hb⟩ := h.bears _ f shown hslot
  refine ⟨v,look_stored h.cell hv,fun enter => by simp only [Store.hung,hv,Option.elim_some],?_⟩
  cases hb with
  | datum d hform => cases hform
  | empty => exact .inl rfl
  | child hangs below => exact .inr ⟨_,rfl,below⟩
  | row hform => cases hform

/-- A field for a list holds one whose items are the nodes that hang there. -/
theorem Store.Stands.listed (hslot : .field form f shown ∈ c.kind.layout) (hform : form.isList = true) :
    ∃ v place ms, look n (.field f) t = .ok v ∧ membersWith look v t = .ok (ms.map .node) ∧
      (∀ enter, t.hung enter c (.field form f shown) = ms) ∧ t.Siblings P (.node n) place ms := by
  obtain ⟨v,hv,hb⟩ := h.bears _ f shown hslot
  have hlook := look_stored h.cell hv
  cases hb with
  | datum d htext => cases form <;> cases htext <;> cases hform
  | empty => cases hform
  | child => cases hform
  | row _ covers cell siblings =>
    exact ⟨v,_,_,hlook,membersWith_covers covers cell,
      fun _ => (Store.hung_list hform hv).trans ((Store.nodesOf_covers covers).trans (Store.rowOf_eq cell rfl)),siblings⟩
  | loose cell plain items siblings =>
    exact ⟨_,_,_,hlook,(membersWith_covers (.inl rfl) cell).trans (by rw [items]),
      fun _ => (Store.hung_list hform hv).trans (Store.rowOf_eq cell items),siblings⟩

/-- What hangs at a node names it, and has what all have that hang there. -/
theorem Store.Stands.below (hm : m ∈ t.below enter n) : P m ∧ ∃ f, t.Hangs (.node n) (.field f) m := by
  have hm := Store.below_sublist.subset hm
  rw [h.below_eq,List.mem_flatMap] at hm
  obtain ⟨slot,hslot,hm⟩ := hm
  cases slot with
  | constant => cases hm
  | field form f shown =>
    obtain ⟨hP,⟨-,hplace⟩ | ⟨hplace,-⟩⟩ := (h.hung hslot).2 m hm
    · exact ⟨hP,_,hplace⟩
    · exact ⟨hP,_,hplace⟩

theorem Store.Stands.down {slot : Slot} (hslot : slot ∈ c.kind.layout) (hm : m ∈ t.hung everywhere c slot) :
    P m ∧ t.Descends everywhere n m := by
  have hbelow : m ∈ t.below everywhere n := by
    rw [h.below_eq]
    exact List.mem_flatMap.mpr ⟨_,hslot,hm⟩
  exact ⟨(h.below hbelow).1,.step .self hbelow⟩

/-- No two slots share a node: what hangs at two fields names them, and plain lists are apart. -/
theorem Store.Stands.nodup : (t.below everywhere n).Nodup := by
  have hplaces : ∀ {a b : Attr} {m : NodeId}, t.Hangs (.node n) a m → t.Hangs (.node n) b m → a = b := by
    rintro a b m ⟨mc,hmc,-,ha⟩ ⟨mc',hmc',-,hb⟩
    rw [hmc] at hmc'
    cases hmc'
    exact Option.some.inj (ha.symm.trans hb)
  have hdelimiter : ∀ {form f shown}, Slot.field form f shown ∈ c.kind.layout → form.isText = false → f ≠ .delimiter := by
    rintro form f shown hslot hform rfl
    have hd := layout_delimits c.kind _ hslot
    exact Bool.false_ne_true (hform.symm.trans hd)
  rw [h.below_eq,List.nodup_flatMap]
  constructor
  · intro slot hslot
    cases slot with
    | constant => exact List.nodup_nil
    | field form f shown => exact (h.hung hslot).1
  · have hfields := layout_nodup c.kind
    unfold slotFields List.Nodup at hfields
    rw [List.pairwise_filterMap] at hfields
    refine hfields.imp_of_mem (fun {a b} ha hb hne => ?_)
    rcases a with _ | ⟨form,f,shown⟩
    · exact List.disjoint_nil_left _
    rcases b with _ | ⟨form',g,shown'⟩
    · exact List.disjoint_nil_right _
    have hfg : f ≠ g := hne f rfl g rfl
    intro m hm hm'
    obtain ⟨-,⟨hform,hplace⟩ | ⟨hplace,l,lc,hv,hl,hplain,hm⟩⟩ := (h.hung ha).2 m hm
    · obtain ⟨-,⟨-,hplace'⟩ | ⟨hplace',-⟩⟩ := (h.hung hb).2 m hm'
      · exact hfg (Attr.field.inj (hplaces hplace hplace'))
      · exact hdelimiter ha hform (Attr.field.inj (hplaces hplace hplace'))
    · obtain ⟨-,⟨hform',hplace'⟩ | ⟨-,l',lc',hv',hl',hplain',hm'⟩⟩ := (h.hung hb).2 m hm'
      · exact hdelimiter hb hform' (Attr.field.inj (hplaces hplace' hplace))
      · exact h.apart f g _ _ hfg hv hv' ⟨l,lc,rfl,hl,hplain⟩ ⟨l',lc',rfl,hl',hplain'⟩ l l' lc lc' rfl rfl hl hl' _ hm hm'

end Below

section Orders
variable {i : Nat}

theorem Store.Tree.below (h : t.Tree (i + 1) n) (hm : m ∈ t.below enter n) :
    t.Tree i m ∧ ∃ f, t.Hangs (.node n) (.field f) m := by
  obtain ⟨c,hc⟩ := h
  exact hc.below hm

theorem Store.Tree.succ (h : t.Tree i n) : ∃ j, i = j + 1 := by
  cases i with
  | zero => exact h.elim
  | succ j => exact ⟨j,rfl⟩

theorem Store.Tree.opens (h : t.Tree i n) : ∃ j c, i = j + 1 ∧ t.Stands (t.Tree j) n c := by
  obtain ⟨j,rfl⟩ := h.succ
  obtain ⟨c,hc⟩ := h
  exact ⟨j,c,rfl,hc⟩

/-- What lies below a tree is a tree, no higher. -/
theorem Store.Descends.tree (hd : t.Descends enter n m) (h : t.Tree i n) : t.Tree i m := by
  induction hd with
  | self => exact h
  | step _ hangs ih =>
    obtain ⟨j,rfl⟩ := ih.succ
    exact (ih.below hangs).1.mono (Nat.le_succ j)

theorem Store.Descends.mono (hd : t.Descends enter n m) : t.Descends everywhere n m := by
  induction hd with
  | self => exact .self
  | step _ hangs ih => exact .step ih (Store.below_sublist.subset hangs)

theorem Store.Descends.trans (hd : t.Descends enter n m) (hd' : t.Descends enter m k) : t.Descends enter n k := by
  induction hd' with
  | self => exact hd
  | step _ hangs ih => exact .step ih hangs

theorem Store.Tree.preorder_eq (h : t.Tree i n) (hdepth : i ≤ depth) : t.preorder enter depth n = t.preorder enter i n := by
  induction i generalizing n depth with
  | zero => exact h.elim
  | succ i ih =>
    obtain _ | depth := depth
    · omega
    simp only [Store.preorder,List.cons.injEq,true_and]
    exact List.flatMap_congr (fun m hm => ih (h.below hm).1 (by omega))

theorem Store.descends_of_preorder (hm : m ∈ t.preorder enter depth n) : t.Descends enter n m := by
  induction depth generalizing n with
  | zero => cases hm
  | succ depth ih =>
    simp only [Store.preorder,List.mem_cons,List.mem_flatMap] at hm
    rcases hm with rfl | ⟨k,hk,hm⟩
    · exact .self
    · exact Store.Descends.trans (.step .self hk) (ih hm)

theorem Store.Tree.mem_preorder (h : t.Tree i n) : m ∈ t.preorder enter i n ↔ t.Descends enter n m := by
  constructor
  · exact Store.descends_of_preorder
  · intro hd
    induction hd with
    | self =>
      obtain ⟨i,rfl⟩ := h.succ
      exact List.mem_cons_self
    | @step m k down hangs ih =>
      clear down
      induction i generalizing n with
      | zero => exact h.elim
      | succ i ihi =>
        have hsucc := h
        simp only [Store.preorder,List.mem_cons,List.mem_flatMap] at ih ⊢
        rcases ih with rfl | ⟨x,hx,hm⟩
        · refine .inr ⟨k,hangs,?_⟩
          obtain ⟨i,rfl⟩ := (hsucc.below hangs).1.succ
          exact List.mem_cons_self
        · exact .inr ⟨x,hx,ihi (hsucc.below hx).1 hm⟩

theorem Store.preorder_sublist (depth : Nat) : (t.preorder enter depth n).Sublist (t.preorder everywhere depth n) := by
  induction depth generalizing n with
  | zero => exact .slnil
  | succ depth ih =>
    exact .cons_cons n ((List.Sublist.flatMap_right _ (fun m _ => ih)).trans (Store.below_sublist.flatMap _))

theorem Store.Descends.compare (h : t.Tree i n) (h' : t.Tree i k) (hd : t.Descends everywhere n x)
    (hd' : t.Descends everywhere k x) : t.Descends everywhere n k ∨ t.Descends everywhere k n := by
  induction hd with
  | self => exact .inr hd'
  | @step m x down hangs ih =>
    cases hd' with
    | self => exact .inl (.step down hangs)
    | @step m' _ down' hangs' =>
      have hm := down.tree h
      have hm' := down'.tree h'
      obtain ⟨i,rfl⟩ := hm.succ
      obtain ⟨-,_,xc,hxc,hparent,-⟩ := hm.below hangs
      obtain ⟨-,_,xc',hxc',hparent',-⟩ := hm'.below hangs'
      rw [hxc] at hxc'
      cases hxc'
      rw [hparent] at hparent'
      cases hparent'
      exact ih down'

/-- No node lies below one that hangs at it. -/
theorem Store.Tree.not_above (h : t.Tree i n) (hm : m ∈ t.below everywhere n) : ¬ t.Descends everywhere m n := by
  intro hd
  -- At its least height the node is higher than all that lies below it.
  obtain ⟨j,-,htree,hleast⟩ := h.least
  obtain ⟨j,rfl⟩ := htree.succ
  exact hleast j (Nat.lt_succ_self j) (hd.tree (htree.below hm).1)

theorem Store.Descends.eq_of_hang {parent : Value} {place place' : Attr} (ha : t.Tree i a) (hb : t.Tree i b)
    (hangs : t.Hangs parent place a) (hangs' : t.Hangs parent place' b)
    (hup : ∀ z, parent = .node z → ¬ t.Descends everywhere a z ∧ ¬ t.Descends everywhere b z)
    (hax : t.Descends everywhere a x) (hbx : t.Descends everywhere b x) : a = b := by
  have hstep : ∀ {a b : NodeId} {place : Attr}, t.Tree i a → t.Hangs parent place b →
      (∀ z, parent = .node z → ¬ t.Descends everywhere a z) → t.Descends everywhere a b → a = b := by
    intro a b place ha hangs hup hd
    cases hd with
    | self => rfl
    | @step m _ down below =>
      have hm := down.tree ha
      obtain ⟨j,rfl⟩ := hm.succ
      obtain ⟨-,_,bc,hbc,hp,-⟩ := hm.below below
      obtain ⟨bc',hbc',hp',-⟩ := hangs
      cases hbc.symm.trans hbc'
      exact absurd down (hup m (hp'.symm.trans hp))
  rcases Store.Descends.compare ha hb hax hbx with hd | hd
  · exact hstep ha hangs' (fun z hz => (hup z hz).1) hd
  · exact (hstep hb hangs (fun z hz => (hup z hz).2) hd).symm

theorem Store.Tree.below_unique (h : t.Tree i n) (ha : a ∈ t.below everywhere n) (hb : b ∈ t.below everywhere n)
    (hax : t.Descends everywhere a x) (hbx : t.Descends everywhere b x) : a = b := by
  obtain ⟨j,rfl⟩ := h.succ
  obtain ⟨hta,_,hangs⟩ := h.below ha
  obtain ⟨htb,_,hangs'⟩ := h.below hb
  refine Store.Descends.eq_of_hang hta htb hangs hangs' (fun z hz => ?_) hax hbx
  cases hz
  exact ⟨h.not_above ha,h.not_above hb⟩

theorem Store.Tree.preorder_nodup (h : t.Tree i n) : (t.preorder everywhere i n).Nodup := by
  induction i generalizing n with
  | zero => exact h.elim
  | succ i ih =>
    have hdown : ∀ k ∈ t.below everywhere n, ∀ x ∈ t.preorder everywhere i k, t.Descends everywhere k x :=
      fun k hk x hx => (h.below hk).1.mem_preorder.mp hx
    refine List.nodup_cons.mpr ⟨?_,List.nodup_flatMap.mpr ⟨fun k hk => ih (h.below hk).1,?_⟩⟩
    · intro hn
      obtain ⟨k,hk,hn⟩ := List.mem_flatMap.mp hn
      exact h.not_above hk (hdown k hk n hn)
    · obtain ⟨c,hc⟩ := id h
      refine hc.nodup.imp_of_mem (fun {k k'} hk hk' hne x hx hx' => ?_)
      exact hne (h.below_unique hk hk' (hdown k hk x hx) (hdown k' hk' x hx'))

end Orders

end CodeTree
