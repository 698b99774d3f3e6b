import CodeTree.Proofs.CommaFrames
import CodeTree.Proofs.DocumentBoxes

/-! # Going from sibling to sibling

A node that names the holder of its list finds the list and the sibling that follows it there. The nodes of a new document
name the holder.
-/
namespace CodeTree
variable {α : Type} {t : Store} {m : NodeId} {c : NodeCell} {l : ListId} {lc : ListCell} {holder : Value} {place : Attr}
  {i : Nat} {f : Field} {v r : Value} {w : ViewId}

/-- A list that a field of a node holds, itself or behind a view, or that a document shows. -/
inductive Store.HoldsList (t : Store) : Value → Attr → ListId → Prop where
  | list {n : NodeId} {c : NodeCell} {f : Field} {l : ListId} (cell : t.nodes[n.index]? = some c)
      (stored : c.stored? (.field f) = some (.list l)) : Store.HoldsList t (.node n) (.field f) l
  | view {n : NodeId} {c : NodeCell} {f : Field} {l : ListId} {w : ViewId} {vc : ViewCell}
      (cell : t.nodes[n.index]? = some c) (stored : c.stored? (.field f) = some (.view w))
      (shown : t.views[w.index]? = some vc) (target : vc.target = .list l) : Store.HoldsList t (.node n) (.field f) l
  | root {w : ViewId} {vc : ViewCell} {l : ListId} (shown : t.views[w.index]? = some vc) (form : vc.form = .document)
      (target : vc.target = .list l) : Store.HoldsList t (.view w) .root l

section Found

theorem fromItem_split {xs ys : List Value} (h : .node m ∉ xs) : fromItem (.node m) (xs ++ .node m :: ys) = .node m :: ys := by
  induction xs with
  | nil => simp [fromItem,Value.is_node.mpr]
  | cons x xs ih =>
    rw [List.mem_cons,not_or] at h
    have hx : x.is (.node m) = false := Bool.eq_false_iff.mpr (fun hx => h.1 (Value.is_node.mp hx).symm)
    simp only [fromItem,List.cons_append,List.dropWhile_cons,hx,Bool.not_false,if_true]
    exact ih h.2

theorem split_at_item {L : List Value} (hnodup : L.Nodup) (hm : L[i]? = some (.node m)) :
    L = L.take i ++ .node m :: L.drop (i + 1) ∧ .node m ∉ L.take i ∧ .node m ∉ L.drop (i + 1) := by
  obtain ⟨hi,hitem⟩ := List.getElem?_eq_some_iff.mp hm
  have hsplit : L = L.take i ++ .node m :: L.drop (i + 1) := by
    rw [← hitem,← List.drop_eq_getElem_cons hi,List.take_append_drop]
  refine ⟨hsplit,?_⟩
  rw [hsplit] at hnodup
  obtain ⟨-,hrest,hapart⟩ := List.nodup_append.mp hnodup
  exact ⟨fun h => hapart _ h _ List.mem_cons_self rfl,(List.nodup_cons.mp hrest).1⟩

theorem secondOrNone_cons (x : Value) (xs : List Value) : secondOrNone (x :: xs) = xs.head?.getD .none := by
  cases xs <;> rfl

theorem held_root {vc : ViewCell} (shown : t.views[w.index]? = some vc) (form : vc.form = .document) :
    held (.view w) (some .root) t = .ok (.view w) := by
  obtain ⟨D,hD⟩ : ∃ D, 2 * t.depth = D + 1 := ⟨2 * t.depth - 1,by have := t.depth_pos; omega⟩
  have hroot : rootOf (.view w) t = .ok (.view w) := by
    change rootAt (2 * t.depth) (.view w) t = _
    rw [hD]
    unfold rootAt
    dsimp only
    rw [Read.view_known shown,if_pos (by rw [form]; rfl)]
    rfl
  unfold held
  dsimp only
  rw [if_pos rfl,Read.orElseMissing,hroot]

theorem held_field {n : NodeId} (hc : t.nodes[n.index]? = some c) (hv : c.stored? (.field f) = some v) :
    held (.node n) (some (.field f)) t = .ok v := by
  unfold held
  dsimp only
  rw [if_neg (fun h => by cases h)]
  exact look_stored hc hv

theorem Store.HoldsList.held (h : t.HoldsList holder place l) : CodeTree.held holder (some place) t = .ok (.list l) ∨
    ∃ w vc, CodeTree.held holder (some place) t = .ok (.view w) ∧ t.views[w.index]? = some vc ∧ vc.target = .list l := by
  cases h with
  | list cell stored => exact .inl (held_field cell stored)
  | view cell stored shown target => exact .inr ⟨_,_,held_field cell stored,shown,target⟩
  | root shown form target => exact .inr ⟨_,_,held_root shown form,shown,target⟩

theorem Store.HoldsList.heldIn (h : t.HoldsList holder place l) (hparent : c.parent = holder) (hplace : c.place = some place) :
    c.heldIn t = CodeTree.held holder (some place) t ∧ c.parent.isNone = false := by
  unfold NodeCell.heldIn
  rw [hparent,hplace]
  cases h with
  | list | view => exact ⟨by rw [if_neg (fun h => by cases h)],rfl⟩
  | root shown form target =>
    rw [if_pos rfl,held_root shown form]
    exact ⟨rfl,rfl⟩

variable (hheld : t.HoldsList holder place l) (hl : t.lists[l.index]? = some lc) (hnodes : lc.flavour = .nodes)
include hheld hl hnodes

theorem Store.HoldsList.listOf (hm : t.Hangs holder place m) : listOf? m t = .ok (some (.list l)) := by
  obtain ⟨c,hc,hparent,hplace⟩ := hm
  obtain ⟨hlooks,hsome⟩ := hheld.heldIn hparent hplace
  rcases hheld.held with hfound | ⟨w,vc,hfound,hvc,htarget⟩
  · rw [listOf_known hc hsome (hlooks.trans hfound)]
    exact listIn_covers (.inl rfl) hl hnodes
  · rw [listOf_known hc hsome (hlooks.trans hfound),listIn,Read.view_known hvc,htarget]
    rfl

theorem Store.HoldsList.nextSibling (hnodup : lc.items.Nodup) (hi : lc.items[i]? = some (.node m)) (hm : t.Hangs holder place m) :
    CodeTree.nextSibling m t = .ok (lc.items[i + 1]?.getD .none) := by
  obtain ⟨hsplit,hbefore,-⟩ := split_at_item hnodup hi
  have hfollowers : followers? m t = .ok (some (.node m :: lc.items.drop (i + 1))) := by
    rw [followers_eq (hheld.listOf hl hnodes hm) hl,hsplit,fromItem_split hbefore,← hsplit]
  unfold CodeTree.nextSibling
  rw [Read.bind_known hfollowers]
  simp only [Option.map_some,Option.getD_some,secondOrNone_cons,List.head?_drop]
  rfl

end Found

/-- In a document nodes hang where their list is held. -/
theorem Store.Document.hangs {root : ListId} {height : Nat} (h : t.Document w root height)
    (hholder : holder = .view w ∨ ∃ n, holder = .node n ∧ t.Member w n) (hheld : t.HoldsList holder place l)
    (hl : t.lists[l.index]? = some lc) (hnodes : lc.flavour = .nodes) (hm : .node m ∈ lc.items) :
    t.Hangs holder place m := by
  have hmember : ∀ {n c f v}, Value.node n = .view w ∨ (∃ n', Value.node n = .node n' ∧ t.Member w n') →
      t.nodes[n.index]? = some c → c.stored? (.field f) = some v → behind v t = .ok (.list l) →
      t.Hangs (.node n) (.field f) m := by
    rintro n c f v (hw | ⟨_,hw,hn⟩) hc hv hbehind
    · cases hw
    · cases hw
      obtain ⟨c',hs⟩ := (h.member hn).mono (Nat.le_succ _)
      cases hc.symm.trans hs.cell
      obtain ⟨-,ms,rfl,hms⟩ := hs.row hv hbehind hl hnodes
      obtain ⟨m',hm',heq⟩ := List.mem_map.mp hm
      cases heq
      exact hms.hang m hm'
  cases hheld with
  | list cell stored => exact hmember hholder cell stored rfl
  | view cell stored shown target =>
    exact hmember hholder cell stored (by rw [behind,Read.view_known shown,target]; rfl)
  | root shown form target =>
    rcases hholder with hw | ⟨_,hn,-⟩
    · cases hw
      obtain ⟨vc,hw,-,hroot,-⟩ := h.view
      cases hw.symm.trans shown
      cases hroot.symm.trans target
      obtain ⟨ms,hms,hsiblings⟩ := h.rows
      cases hl.symm.trans hms
      obtain ⟨m',hm',heq⟩ := List.mem_map.mp hm
      cases heq
      exact hsiblings.hang m hm'
    · cases hn

end CodeTree
