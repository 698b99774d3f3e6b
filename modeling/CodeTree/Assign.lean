import CodeTree.Conversion

/-! # Assigning attributes

Assigning to a field of a node converts the value to what the field holds: text, a child or a list.
Other attributes are stored as they come. Attributes that are computed cannot be assigned.
-/
namespace CodeTree

/-- The attribute that a name stands for when it is assigned. -/
def Kind.assigned (k : Kind) (a : Attr) : Attr :=
  match k, a with
  | .forLoop, .other "else_" | .whileLoop, .other "else_" | .tryStmt, .other "else_" =>
    .field .elseBranch
  | .tryStmt, .other "finally_" => .field .finallyBranch
  | .withContextItem, .other "as_" => .field .alias
  | _, a => a

def placeNamed : Value → Option Attr
  | .text word => some (.ofWord word)
  | _ => none

/-- Stores a value under an attribute of a node, converted to what the attribute holds. -/
def assignConverted (n : NodeId) (a : Attr) (v : Value) : Edit Unit := do
  let c ← Read.node n
  match a with
  | .other "parent" => Edit.updateNode n (fun c => { c with parent := v })
  | .other "on_attribute" => Edit.updateNode n (fun c => { c with place := placeNamed v })
  | .other "init" =>
    let building ← truth v
    Edit.updateNode n (fun c => { c with building := building })
  | .other _ => putAttr n a v
  | .field f =>
    if c.building then putAttr n a v
    else if c.texts.contains f then putAttr n a (← textFieldValue v)
    else if c.children.contains f then putAttr n a (← childFrom n v (.node n) (some a))
    else if c.lists.contains f then putAttr n a (← listFor (.node n) v (.node n) (some a))
    else putAttr n a v

def assignNode (n : NodeId) (word : String) (v : Value) : Edit Unit := do
  let kind := (← Read.node n).kind
  let a := kind.assigned (.ofWord word)
  let v ← prepareStore n kind a v
  if (nodeProperties.lookup word).isSome then throw .noAttribute
  assignConverted n a v
  wrapHeld n a

def assignList (l : ListId) (word : String) (v : Value) : Edit Unit := do
  match word with
  | "parent" => Edit.updateList l (fun c => { c with parent := v })
  | "on_attribute" => Edit.updateList l (fun c => { c with place := placeNamed v })
  | "data" =>
    let inside ← items v
    Edit.updateList l (fun c => { c with items := inside })
  | _ => Edit.updateList l (fun c => { c with extra := putPair word v c.extra })

def assignView (w : ViewId) (word : String) (v : Value) : Edit Unit := do
  match word with
  | "parent" => Edit.updateView w (fun c => { c with parent := some v })
  | "on_attribute" => Edit.updateView w (fun c => { c with place := placeNamed v })
  | "node_list" => Edit.updateView w (fun c => { c with target := v })
  | "style" => Edit.updateView w (fun c => { c with style := some v })
  | "data" =>
    let inside ← items v
    Edit.updateView w (fun c => { c with items := inside })
  | _ => Edit.updateView w (fun c => { c with extra := putPair word v c.extra })

def assign (v : Value) (word : String) (new : Value) : Edit Unit := do
  match v with
  | .node n => assignNode n word new
  | .list l =>
    if (← Read.list l).flavour != .nodes || (← isComputed v word) then throw .noAttribute
    assignList l word new
  | .view w =>
    if ← isComputed v word then throw .noAttribute
    assignView w word new
  | _ => throw .noAttribute

end CodeTree
