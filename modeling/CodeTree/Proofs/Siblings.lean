import CodeTree.Attribute
import CodeTree.Proofs.Stepping
import CodeTree.Proofs.Searching

/-! # Siblings

A node finds its siblings by what it names: what holds it, and the place where it is held. If a list of nodes is held
there and the node is in it, once, then what comes before and after it in the list is what the node answers.
-/
namespace CodeTree
variable {t : Store} {n : NodeId} {c : NodeCell} {l : ListId} {lc : ListCell} {xs ys : List Value}

/-- The value in which a node looks for itself. -/
def NodeCell.heldIn (c : NodeCell) : Read Value :=
  if c.place = some .root then pure c.parent else held c.parent c.place

theorem heldIn_field {q : NodeId} {f : Field} (hparent : c.parent = .node q) (hplace : c.place = some (.field f)) :
    c.heldIn t = look q (.field f) t := by
  unfold NodeCell.heldIn
  rw [hparent,hplace,if_neg (by intro h; cases h)]
  unfold held
  dsimp only
  rw [if_neg (by intro h; cases h)]
  rfl

/-- The list that a value found there stands for. -/
def listIn : Value → Read (Option Value)
  | .view w => return some (← Read.view w).target
  | .list l => do if (← Read.list l).flavour == .nodes then return some (.list l) else return none
  | _ => return none

theorem listOf_known {v : Value} (hc : t.nodes[n.index]? = some c) (hparent : c.parent.isNone = false)
    (hheld : c.heldIn t = .ok v) : listOf? n t = listIn v t := by
  unfold listOf?
  rw [Read.node_known hc,hparent,if_neg Bool.false_ne_true]
  have hjoin : ∀ r : Read Value, r t = .ok v → (do
      let container ← r
      match container with
      | .view w => return some (← Read.view w).target
      | .list l => if (← Read.list l).flavour == .nodes then return some container else return none
      | _ => return none : Read (Option Value)) t = listIn v t := by
    intro r hr
    rw [Read.bind_known hr]
    cases v <;> rfl
  unfold NodeCell.heldIn at hheld
  split at hheld
  · next hroot =>
    rw [if_pos hroot]
    exact hjoin _ hheld
  · next hroot =>
    rw [if_neg hroot]
    exact hjoin _ hheld

theorem listIn_covers {v : Value} (hcovers : t.Covers v l) (hl : t.lists[l.index]? = some lc)
    (hflavour : lc.flavour = .nodes) : listIn v t = .ok (some (.list l)) := by
  rcases hcovers with rfl | ⟨w,vc,rfl,hw,htarget,-⟩
  · rw [listIn,Read.list_known hl,if_pos (by rw [hflavour]; rfl)]
    rfl
  · rw [listIn,Read.view_known hw,htarget]
    rfl

section List
variable (hlist : listOf? n t = .ok (some (.list l))) (hl : t.lists[l.index]? = some lc)
include hlist hl

theorem followers_eq : followers? n t = .ok (some (fromItem (.node n) lc.items)) := by
  unfold followers?
  rw [Read.bind_known hlist]
  dsimp only
  rw [Read.bind_known (items_list_ok.mpr ⟨lc,hl,rfl⟩)]
  rfl

theorem nextSibling_mem : (nextSibling n).Returns t (fun v => v = .none ∨ v ∈ lc.items) := by
  refine .known (followers_eq hlist hl) (.pure ?_)
  have hsub : fromItem (.node n) lc.items ⊆ lc.items := (List.dropWhile_suffix _).subset
  dsimp only [Option.map_some,Option.getD_some]
  match hfrom : fromItem (.node n) lc.items with
  | [] => exact .inl rfl
  | [_] => exact .inl rfl
  | x :: y :: rest =>
    have hy : y ∈ lc.items := hsub (by rw [hfrom]; simp)
    exact .inr hy

end List

end CodeTree
