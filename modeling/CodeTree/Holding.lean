import CodeTree.Lookup

/-! # Holding nodes

The small edits from which all others are made: storing an attribute, hanging a value somewhere,
making a list, and setting the spacing before or after a word.
-/
namespace CodeTree

def putAttr (n : NodeId) (a : Attr) (v : Value) : Edit Unit := Edit.updateNode n (·.put a v)

def setHolder (v parent : Value) (place : Option Attr) : Edit Unit := do
  match v with
  | .node n => Edit.updateNode n (fun c => { c with parent := parent, place := place })
  | .list l =>
    if (← Read.list l).flavour == .nodes then
      Edit.updateList l (fun c => { c with parent := parent, place := place })
    else throw .noAttribute
  | .view w => Edit.updateView w (fun c => { c with parent := some parent, place := place })
  | _ => throw .noAttribute

/-- Tells all items what holds them, one after the other. -/
def setHolders (parent : Value) (place : Option Attr) : List Value → Edit Unit
  | [] => pure ()
  | v :: rest => do
    setHolder v parent place
    setHolders parent place rest

def newNodeList (items : List Value) (parent : Value) (place : Option Attr) : Edit ListId :=
  Edit.newList ⟨.nodes, items, parent, place, []⟩

def newLooseList (items : List Value) : Edit ListId := newNodeList items .none none

def newPlainList (items : List Value) : Edit ListId := Edit.newList ⟨.plain, items, .none, none, []⟩

def newSpace (parent : Value) (place : Option Attr) : Edit NodeId :=
  Edit.newNode {
    kind := .space, parent := parent, place := place, building := false
    texts := [.type, .value], lists := [], children := []
    attrs := [(.field .type, .text "space"), (.field .value, .text " ")] }

/-- Makes the formatting under a field one space or nothing. A node that is being built keeps it as
a plain list. -/
def setSpacing (n : NodeId) (f : Field) (place : Option Attr) (present : Bool) : Edit Unit := do
  let c ← Read.node n
  let loose := c.building || !c.lists.contains f
  let spaces ← if present then do
      let space ← newSpace (.node n) (if loose then place else some (.field f))
      pure [Value.node space]
    else pure []
  let l ← if loose then newPlainList spaces else newLooseList spaces
  putAttr n (.field f) (.list l)

end CodeTree
