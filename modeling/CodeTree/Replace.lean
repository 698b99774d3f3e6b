import CodeTree.Items

/-! # Replacing nodes

A node is replaced in place: it keeps its identity and what holds it, and takes over the kind and
the fields of what replaces it. Insertion beside a node puts a value into the list that holds it.
-/
namespace CodeTree

def replaceNode (n : NodeId) (v : Value) : Edit Unit := do
  match ← plainNodeFrom v .none none with
  | .node new =>
    let taken ← Read.node new
    Edit.updateNode n (fun c => { c with kind := taken.kind, origin := some (taken.origin.getD new) })
    match ← snapshot (.node new) with
    | .record fields =>
      let c ← Read.node n
      fill n c.parent c.place (branches fields)
    | _ => throw .wrongSort
  | _ => throw .wrongSort

/-- Replaces a node by a text that differs from its own. -/
def rewordNode (n : NodeId) (text : String) : Edit Unit := do
  if text != (← textOf (.node n)) then replaceNode n (.text text)

end CodeTree
