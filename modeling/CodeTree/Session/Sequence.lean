import CodeTree.Session.Arguments

/-! # Values as sequences

Taking, replacing and deleting items by position, whatever holds them. A node passes this on to the
view that it holds as its value. Lists of nodes and other lists are changed as they are; views keep
their list in step.
-/
namespace CodeTree

/-- Where an item or a run of items is. -/
inductive Spot where
  | index (i : Int)
  | span (s : Span)
deriving Repr

/-- The view that a node holds as its value, if it holds one. -/
def heldView? (n : NodeId) : Read (Option ViewId) := do
  match ← Read.orElseMissing (look n (.field .value)) (pure .none) with
  | .view w => return some w
  | _ => return none

def itemAt (inside : List Value) (i : Int) : Except Fault Value :=
  match (indexIn? inside.length i).bind (fun j => inside[j]?) with
  | some v => .ok v
  | none => .error .outOfRange

def itemOf (v : Value) (i : Int) : Read Value := do
  match v with
  | .view w => Read.lift (itemAt (← Read.view w).items i)
  | .node n =>
    match ← heldView? n with
    | some w => Read.lift (itemAt (← Read.view w).items i)
    | none => throw .wrongSort
  | .list l =>
    let c ← Read.list l
    if c.flavour == .stream then throw .wrongSort
    Read.lift (itemAt c.items i)
  | .data (.record _) => throw .noKey
  | _ => Read.lift (itemAt (← items v) i)

/-- The items in a span, as the same sort of sequence. -/
def spanOf (v : Value) (s : Span) : Edit Value := do
  match v with
  | .view w => spanOfView w s
  | .node n =>
    match ← heldView? n with
    | some w => spanOfView w s
    | none => throw .wrongSort
  | .list l =>
    let c ← Read.list l
    match c.flavour with
    | .nodes => return .list (← newLooseList (s.inside c.items))
    | .stream => throw .wrongSort
    | flavour => return .list (← Edit.newList ⟨flavour, s.inside c.items, .none, none, []⟩)
  | .text t => return .text (String.ofList (s.inside t.toList))
  | .data (.list ds) => return .data (.list (s.inside ds))
  | .keys ks => return .keys (s.inside ks)
  | _ => throw .wrongSort

def replaceInList (l : ListId) (p : Spot) (v : Value) : Edit Unit := do
  let c ← Read.list l
  let new ← match c.flavour with
    | .nodes => plainNodeFrom v c.parent c.place
    | .plain => pure v
    | _ => throw .wrongSort
  let c ← Read.list l
  match p with
  | .index i =>
    match indexIn? c.items.length i with
    | some j => Edit.updateList l (fun c => { c with items := c.items.set j new })
    | none => throw .outOfRange
  | .span s =>
    let inside ← items new
    Edit.updateList l (fun c => { c with items := s.replace inside c.items })

def putAt (v : Value) (p : Spot) (new : Value) : Edit Unit := do
  let inView (w : ViewId) : Edit Unit := do
    match p with
    | .index i => setItem w i new
    | .span s =>
      replaceSpan w s new
      realign w
  match v with
  | .view w => inView w
  | .node n =>
    match ← heldView? n with
    | some w => inView w
    | none => throw .wrongSort
  | .list l => replaceInList l p new
  | _ => throw .wrongSort

def deleteInList (l : ListId) (p : Spot) : Edit Unit := do
  let c ← Read.list l
  if c.flavour != .nodes && c.flavour != .plain then throw .wrongSort
  match p with
  | .index i =>
    match indexIn? c.items.length i with
    | some j => Edit.updateList l (fun c => { c with items := c.items.eraseIdx j })
    | none => throw .outOfRange
  | .span s => Edit.updateList l (fun c => { c with items := s.replace [] c.items })

def deleteAt (v : Value) (p : Spot) : Edit Unit := do
  let inView (w : ViewId) : Edit Unit := do
    match p with
    | .index i => popFromView w i
    | .span s => deleteSpan w s
  match v with
  | .view w => inView w
  | .node n =>
    match ← heldView? n with
    | some w => inView w
    | none => throw .noAttribute
  | .list l => deleteInList l p
  | _ => throw .wrongSort

def holds (v x : Value) : Read Bool := do
  match v with
  | .text s =>
    match x with
    | .text t => return decide (positionOf t.toList s.toList 0 ≥ 0)
    | _ => throw .wrongSort
  | _ => isAmong x (← items v)

end CodeTree
