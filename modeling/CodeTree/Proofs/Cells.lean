import Mathlib.Data.List.Forall2
import Mathlib.Tactic.Common
import CodeTree.Proofs.Runs

/-! # Cells and how far a store has grown

A mark says how many cells of each sort a store has. Cells are only ever added at the end, so the
cells that a run adds are those between the mark before it and the mark after it, and two stores can
agree on such a range. A run that touches new cells only, or one old node besides, lets a store grow.
-/
namespace CodeTree
variable {l : ListId} {a b : Mark} {i : Nat} {c : NodeCell} {n : NodeId} {s t u : Store} {w : ViewId}

theorem Value.is_list {v : Value} {l : ListId} : v.is (.list l) = true ↔ v = .list l := by
  cases v <;> simp [Value.is]

theorem Value.is_node {v : Value} {m : NodeId} : v.is (.node m) = true ↔ v = .node m := by
  cases v <;> simp [Value.is]

theorem Value.is_view {v : Value} {w : ViewId} : v.is (.view w) = true ↔ v = .view w := by
  cases v <;> simp [Value.is]

section Pairs
variable {α β : Type} [BEq α] [LawfulBEq α]

theorem lookup_putPair (key other : α) (v : β) (xs : List (α × β)) :
    (putPair key v xs).lookup other = if other == key then some v else xs.lookup other := by
  induction xs with
  | nil => cases h : other == key <;> simp [putPair,List.lookup_cons,h]
  | cons x xs ih =>
    obtain ⟨k,w⟩ := x
    by_cases hk : k = key
    · subst hk
      cases h : other == k <;> simp [putPair,List.lookup_cons,h]
    · cases h : other == k with
      | false => simp [putPair,hk,List.lookup_cons,h,ih]
      | true =>
        have ho := eq_of_beq h
        subst ho
        simp [putPair,hk]

end Pairs

namespace NodeCell

theorem stored_put (c : NodeCell) (a b : Attr) (v : Value) :
    (c.put a v).stored? b = if b = a then some v else c.stored? b := by
  simp only [stored?,put,lookup_putPair,beq_iff_eq]

@[simp] theorem stored_put_self (c : NodeCell) (a : Attr) (v : Value) : (c.put a v).stored? a = some v := by
  simp [stored_put]

theorem stored_put_of_ne {a b : Attr} {v : Value} (h : b ≠ a) : (c.put a v).stored? b = c.stored? b := by
  simp [stored_put,h]

@[simp] theorem own_field (c : NodeCell) (f : Field) : c.own? (.field f) = c.stored? (.field f) := rfl

end NodeCell

/-- How many cells of each sort there are. -/
structure Mark where
  nodes : Nat
  lists : Nat
  views : Nat

instance : LE Mark := ⟨fun a b => a.nodes ≤ b.nodes ∧ a.lists ≤ b.lists ∧ a.views ≤ b.views⟩

namespace Mark

theorem le_def : a ≤ b ↔ a.nodes ≤ b.nodes ∧ a.lists ≤ b.lists ∧ a.views ≤ b.views := Iff.rfl

theorem le_refl (a : Mark) : a ≤ a := ⟨Nat.le_refl _,Nat.le_refl _,Nat.le_refl _⟩

theorem le_trans {c : Mark} (h : a ≤ b) (h' : b ≤ c) : a ≤ c :=
  ⟨Nat.le_trans h.1 h'.1,Nat.le_trans h.2.1 h'.2.1,Nat.le_trans h.2.2 h'.2.2⟩

end Mark

namespace Store

def mark (s : Store) : Mark := ⟨s.nodes.size,s.lists.size,s.views.size⟩

@[simp] theorem mark_nodes (s : Store) : s.mark.nodes = s.nodes.size := rfl
@[simp] theorem mark_lists (s : Store) : s.mark.lists = s.lists.size := rfl
@[simp] theorem mark_views (s : Store) : s.mark.views = s.views.size := rfl

/-- Two stores have the same cells from one mark to another. -/
structure Agree (a b : Mark) (s t : Store) : Prop where
  nodes : ∀ i, a.nodes ≤ i → i < b.nodes → t.nodes[i]? = s.nodes[i]?
  lists : ∀ i, a.lists ≤ i → i < b.lists → t.lists[i]? = s.lists[i]?
  views : ∀ i, a.views ≤ i → i < b.views → t.views[i]? = s.views[i]?

namespace Agree
variable {a b a' b' : Mark} {s t u : Store}

theorem refl (a b : Mark) (s : Store) : Agree a b s s := ⟨fun _ _ _ => rfl,fun _ _ _ => rfl,fun _ _ _ => rfl⟩

theorem symm (h : Agree a b s t) : Agree a b t s :=
  ⟨fun i h₁ h₂ => (h.nodes i h₁ h₂).symm,fun i h₁ h₂ => (h.lists i h₁ h₂).symm,
    fun i h₁ h₂ => (h.views i h₁ h₂).symm⟩

theorem trans (h : Agree a b s t) (h' : Agree a b t u) : Agree a b s u :=
  ⟨fun i h₁ h₂ => (h'.nodes i h₁ h₂).trans (h.nodes i h₁ h₂),
    fun i h₁ h₂ => (h'.lists i h₁ h₂).trans (h.lists i h₁ h₂),
    fun i h₁ h₂ => (h'.views i h₁ h₂).trans (h.views i h₁ h₂)⟩

theorem narrow (h : Agree a b s t) (ha : a ≤ a') (hb : b' ≤ b) : Agree a' b' s t :=
  ⟨fun i h₁ h₂ => h.nodes i (Nat.le_trans ha.1 h₁) (Nat.lt_of_lt_of_le h₂ hb.1),
    fun i h₁ h₂ => h.lists i (Nat.le_trans ha.2.1 h₁) (Nat.lt_of_lt_of_le h₂ hb.2.1),
    fun i h₁ h₂ => h.views i (Nat.le_trans ha.2.2 h₁) (Nat.lt_of_lt_of_le h₂ hb.2.2)⟩

end Agree

/-- Cells are added, and of the old ones only a node can be another. -/
structure GrowsOff (n : NodeId) (s t : Store) : Prop where
  mark : s.mark ≤ t.mark
  nodes : ∀ i, i < s.nodes.size → i ≠ n.index → t.nodes[i]? = s.nodes[i]?
  lists : ∀ i, i < s.lists.size → t.lists[i]? = s.lists[i]?
  views : ∀ i, i < s.views.size → t.views[i]? = s.views[i]?

/-- Cells are added, and the old ones stay as they are. -/
structure Grows (s t : Store) : Prop where
  mark : s.mark ≤ t.mark
  nodes : ∀ i, i < s.nodes.size → t.nodes[i]? = s.nodes[i]?
  lists : ∀ i, i < s.lists.size → t.lists[i]? = s.lists[i]?
  views : ∀ i, i < s.views.size → t.views[i]? = s.views[i]?

theorem Grows.refl (s : Store) : Grows s s :=
  ⟨Mark.le_refl _,fun _ _ => rfl,fun _ _ => rfl,fun _ _ => rfl⟩

theorem Grows.off (h : Grows s t) (n : NodeId) : GrowsOff n s t :=
  ⟨h.mark,fun i hi _ => h.nodes i hi,h.lists,h.views⟩

theorem Grows.agree (h : Grows s t) (a : Mark) : Agree a s.mark s t :=
  ⟨fun i _ hi => h.nodes i hi,fun i _ hi => h.lists i hi,fun i _ hi => h.views i hi⟩

theorem GrowsOff.refl (n : NodeId) (s : Store) : GrowsOff n s s := (Grows.refl s).off n

theorem GrowsOff.trans (h : GrowsOff n s t) (h' : GrowsOff n t u) : GrowsOff n s u where
  mark := Mark.le_trans h.mark h'.mark
  nodes i hi hn := (h'.nodes i (Nat.lt_of_lt_of_le hi h.mark.1) hn).trans (h.nodes i hi hn)
  lists i hi := (h'.lists i (Nat.lt_of_lt_of_le hi h.mark.2.1)).trans (h.lists i hi)
  views i hi := (h'.views i (Nat.lt_of_lt_of_le hi h.mark.2.2)).trans (h.views i hi)

/-- A node that is not there cannot be changed. -/
theorem GrowsOff.grows (h : GrowsOff n s t) (hn : s.nodes.size ≤ n.index) : Grows s t :=
  ⟨h.mark,fun i hi => h.nodes i hi (by omega),h.lists,h.views⟩

theorem Grows.trans_off (h : Grows s t) (h' : GrowsOff n t u) (hn : s.nodes.size ≤ n.index) : Grows s u :=
  ((h.off n).trans h').grows hn

theorem Grows.trans (h : Grows s t) (h' : Grows t u) : Grows s u := h.trans_off (h'.off ⟨s.nodes.size⟩) (Nat.le_refl _)

theorem GrowsOff.agree_apart (h : GrowsOff n s t) (hn : n.index < a.nodes ∨ b.nodes ≤ n.index) (hb : b ≤ s.mark) :
    Agree a b s t where
  nodes i ha hi := h.nodes i (Nat.lt_of_lt_of_le hi hb.1) (by omega)
  lists i _ hi := h.lists i (Nat.lt_of_lt_of_le hi hb.2.1)
  views i _ hi := h.views i (Nat.lt_of_lt_of_le hi hb.2.2)

theorem GrowsOff.agree (h : GrowsOff n s t) (hn : n.index < a.nodes) (hb : b ≤ s.mark) :
    Agree a b s t := h.agree_apart (.inl hn) hb

/-- The store with one more cell, or with one cell changed. -/
def addNode (s : Store) (c : NodeCell) : Store := { s with nodes := s.nodes.push c }
def addList (s : Store) (c : ListCell) : Store := { s with lists := s.lists.push c }
def addView (s : Store) (c : ViewCell) : Store := { s with views := s.views.push c }
def mapNode (s : Store) (n : NodeId) (f : NodeCell → NodeCell) : Store :=
  { s with nodes := s.nodes.modify n.index f }
def mapList (s : Store) (l : ListId) (f : ListCell → ListCell) : Store :=
  { s with lists := s.lists.modify l.index f }
def mapView (s : Store) (w : ViewId) (f : ViewCell → ViewCell) : Store :=
  { s with views := s.views.modify w.index f }

section Cells
variable (s : Store) (n : NodeId) (l : ListId) (w : ViewId) (c : NodeCell) (lc : ListCell) (vc : ViewCell)
variable (f : NodeCell → NodeCell) (g : ListCell → ListCell) (h : ViewCell → ViewCell) (i : Nat)

@[simp] theorem addNode_lists : (s.addNode c).lists = s.lists := rfl
@[simp] theorem addNode_views : (s.addNode c).views = s.views := rfl
@[simp] theorem addList_nodes : (s.addList lc).nodes = s.nodes := rfl
@[simp] theorem addList_views : (s.addList lc).views = s.views := rfl
@[simp] theorem addView_nodes : (s.addView vc).nodes = s.nodes := rfl
@[simp] theorem addView_lists : (s.addView vc).lists = s.lists := rfl
@[simp] theorem mapNode_lists : (s.mapNode n f).lists = s.lists := rfl
@[simp] theorem mapNode_views : (s.mapNode n f).views = s.views := rfl
@[simp] theorem mapList_nodes : (s.mapList l g).nodes = s.nodes := rfl
@[simp] theorem mapList_views : (s.mapList l g).views = s.views := rfl
@[simp] theorem mapView_nodes : (s.mapView w h).nodes = s.nodes := rfl
@[simp] theorem mapView_lists : (s.mapView w h).lists = s.lists := rfl

@[simp] theorem addNode_size : (s.addNode c).nodes.size = s.nodes.size + 1 := Array.size_push ..
@[simp] theorem addList_size : (s.addList lc).lists.size = s.lists.size + 1 := Array.size_push ..
@[simp] theorem addView_size : (s.addView vc).views.size = s.views.size + 1 := Array.size_push ..
@[simp] theorem mapNode_size : (s.mapNode n f).nodes.size = s.nodes.size := Array.size_modify ..
@[simp] theorem mapList_size : (s.mapList l g).lists.size = s.lists.size := Array.size_modify ..
@[simp] theorem mapView_size : (s.mapView w h).views.size = s.views.size := Array.size_modify ..

theorem addNode_get : (s.addNode c).nodes[i]? = if i = s.nodes.size then some c else s.nodes[i]? :=
  Array.getElem?_push
theorem addList_get : (s.addList lc).lists[i]? = if i = s.lists.size then some lc else s.lists[i]? :=
  Array.getElem?_push
theorem addView_get : (s.addView vc).views[i]? = if i = s.views.size then some vc else s.views[i]? :=
  Array.getElem?_push

theorem mapNode_get : (s.mapNode n f).nodes[i]? = if n.index = i then s.nodes[i]?.map f else s.nodes[i]? := by
  simp only [mapNode,Array.getElem?_modify]
variable {s n c f} in
theorem mapNode_self (hc : s.nodes[n.index]? = some c) : (s.mapNode n f).nodes[n.index]? = some (f c) := by
  rw [mapNode_get,if_pos rfl,hc]
  rfl
theorem mapList_get : (s.mapList l g).lists[i]? = if l.index = i then s.lists[i]?.map g else s.lists[i]? := by
  simp only [mapList,Array.getElem?_modify]
theorem mapView_get : (s.mapView w h).views[i]? = if w.index = i then s.views[i]?.map h else s.views[i]? := by
  simp only [mapView,Array.getElem?_modify]

end Cells

theorem grows_addNode (s : Store) (c : NodeCell) : Grows s (s.addNode c) where
  mark := ⟨by simp,Nat.le_refl _,Nat.le_refl _⟩
  nodes i hi := by rw [addNode_get,if_neg (by omega)]
  lists _ _ := rfl
  views _ _ := rfl

theorem grows_addList (s : Store) (c : ListCell) : Grows s (s.addList c) where
  mark := ⟨Nat.le_refl _,by simp,Nat.le_refl _⟩
  nodes _ _ := rfl
  lists i hi := by rw [addList_get,if_neg (by omega)]
  views _ _ := rfl

theorem grows_addView (s : Store) (c : ViewCell) : Grows s (s.addView c) where
  mark := ⟨Nat.le_refl _,Nat.le_refl _,by simp⟩
  nodes _ _ := rfl
  lists _ _ := rfl
  views i hi := by rw [addView_get,if_neg (by omega)]

theorem growsOff_mapNode (s : Store) (n : NodeId) (f : NodeCell → NodeCell) : GrowsOff n s (s.mapNode n f) where
  mark := ⟨by simp,Nat.le_refl _,Nat.le_refl _⟩
  nodes i _ hn := by rw [mapNode_get,if_neg (fun h => hn h.symm)]
  lists _ _ := rfl
  views _ _ := rfl

theorem lt_nodes_of_get (h : s.nodes[i]? = some c) : i < s.nodes.size := by
  by_contra hi
  rw [Array.getElem?_eq_none (by omega)] at h
  cases h

theorem lt_lists_of_get {c : ListCell} (h : s.lists[i]? = some c) : i < s.lists.size := by
  by_contra hi
  rw [Array.getElem?_eq_none (by omega)] at h
  cases h

theorem lt_views_of_get {c : ViewCell} (h : s.views[i]? = some c) : i < s.views.size := by
  by_contra hi
  rw [Array.getElem?_eq_none (by omega)] at h
  cases h

end Store

namespace Edit
variable {p : Parser} {s t : Store} {u : Unit}

theorem newNode_run (p : Parser) (s : Store) (c : NodeCell) :
    newNode c p s = .ok ⟨s.nodes.size⟩ (s.addNode c) := rfl

theorem newNode_ok : newNode c p s = .ok n t ↔ n = ⟨s.nodes.size⟩ ∧ t = s.addNode c := by
  rw [newNode_run,EStateM.Result.ok.injEq,eq_comm,@eq_comm _ t]

theorem newList_ok {c : ListCell} : newList c p s = .ok l t ↔ l = ⟨s.lists.size⟩ ∧ t = s.addList c := by
  change EStateM.Result.ok _ (s.addList c) = _ ↔ _
  rw [EStateM.Result.ok.injEq,eq_comm,@eq_comm _ t]

theorem newView_ok {c : ViewCell} : newView c p s = .ok w t ↔ w = ⟨s.views.size⟩ ∧ t = s.addView c := by
  change EStateM.Result.ok _ (s.addView c) = _ ↔ _
  rw [EStateM.Result.ok.injEq,eq_comm,@eq_comm _ t]

theorem updateNode_ok {f : NodeCell → NodeCell} : updateNode n f p s = .ok u t ↔ t = s.mapNode n f := by
  change EStateM.Result.ok _ (s.mapNode n f) = _ ↔ _
  rw [EStateM.Result.ok.injEq,@eq_comm _ t]
  simp

theorem updateList_ok {f : ListCell → ListCell} : updateList l f p s = .ok u t ↔ t = s.mapList l f := by
  change EStateM.Result.ok _ (s.mapList l f) = _ ↔ _
  rw [EStateM.Result.ok.injEq,@eq_comm _ t]
  simp

theorem updateView_ok {f : ViewCell → ViewCell} : updateView w f p s = .ok u t ↔ t = s.mapView w f := by
  change EStateM.Result.ok _ (s.mapView w f) = _ ↔ _
  rw [EStateM.Result.ok.injEq,@eq_comm _ t]
  simp

end Edit

end CodeTree
