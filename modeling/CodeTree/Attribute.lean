import CodeTree.Neighbours

/-! # Attributes by name

What a node, list or view answers when asked for an attribute by name: something computed, something
stored, or the result of a search.
-/
namespace CodeTree

/-- The computed attributes of a node, in alphabetical order. -/
def nodeProperties : List (String × (NodeId → Read Value)) := [
  ("absolute_bounding_box", fun n => return .box (← boxInDocument (.node n))),
  ("bounding_box", fun n => return .box (← ownBox (.node n))),
  ("indentation", indentationOf),
  ("index_on_parent", indexInParent false),
  ("index_on_parent_raw", indexInParent true),
  ("next", nextSibling),
  ("next_rendered", nextRendered),
  ("previous", previousSibling),
  ("previous_rendered", previousRendered),
  ("root", fun n => rootOf (.node n))]

def listProperties : List (String × (Value → Read Value)) := [
  ("absolute_bounding_box", fun v => return .box (← boxInDocument v)),
  ("bounding_box", fun v => return .box (← ownBox v)),
  ("root", rootOf)]

/-- The computed attributes of a document. It lies in its own text as its list does. -/
def documentProperties : List (String × (ViewId → Read Value)) := [
  ("absolute_bounding_box", fun w => do
    let keys ← routeKeys (← underlying (.view w))
    let whole ← snapshot (.view w)
    return .box (← Read.lift (whole.boxAt keys))),
  ("bounding_box", fun w => return .box (← ownBox (.view w))),
  ("root", fun w => pure (.view w))]

def attrAt : Nat → Value → String → Read Value
  | 0, _, _ => throw .tooDeep
  | fuel + 1, v, word =>
    match v with
    | .node n => do
      let searched := missingWith look (fun w b => attrAt fuel (.view w) b.word) n (.ofWord word)
      match nodeProperties.lookup word with
      | some property => Read.orElseMissing (property n) searched
      | none =>
        match (← Read.node n).own? (.ofWord word) with
        | some stored => pure stored
        | none => searched
    | .list l => do
      if (← Read.list l).flavour == .nodes then
        match listProperties.lookup word with
        | some property => Read.orElseMissing (property v) (plainAttr v (.ofWord word))
        | none => plainAttr v (.ofWord word)
      else throw .noAttribute
    | .view w => do
      let c ← Read.view w
      let forwarded := attrAt fuel c.target word
      match (if c.form == .document then documentProperties.lookup word else none) with
      | some property => Read.orElseMissing (property w) forwarded
      | none =>
        match c.own? (.ofWord word) with
        | some stored => pure stored
        | none => forwarded
    | v => plainAttr v (.ofWord word)

def attr (v : Value) (word : String) : Read Value := do attrAt (← Read.depth) v word

/-- Attributes that are computed cannot be stored. -/
def isComputed (v : Value) (word : String) : Read Bool := do
  match v with
  | .node _ => return (nodeProperties.lookup word).isSome
  | .list _ => return (listProperties.lookup word).isSome
  | .view w =>
    return (← Read.view w).form == .document && (documentProperties.lookup word).isSome
  | _ => return false

/-- The attributes of a node by whose value it is mainly told apart. -/
def Kind.mainAttr : Kind → String
  | .classDef | .funcDef => "name"
  | _ => "value"

/-- The list behind a view; other values stand for themselves. -/
def behind : Value → Read Value
  | .view w => return (← Read.view w).target
  | v => pure v

/-- A way goes on from nodes, lists of nodes and views only. -/
def stepTo (v child : Value) : Read Value := do
  match child with
  | .node _ | .view _ => return child
  | .list l => if (← Read.list l).flavour == .nodes then return child else return v
  | _ => return v

/-- Where a sequence of names and positions leads from a value. Steps that lead to anything but a
node, list or view are passed over; a name that is unknown or a position past the end leads
nowhere. -/
def follow (v : Value) : List Value → Read (Option Value)
  | [] => return some (← behind v)
  | .text word :: rest => do
    match ← Read.orElseMissing (some <$> attr v word) (pure none) with
    | none => return none
    | some child => follow (← stepTo v child) rest
  | key :: rest => do
    let v ← behind v
    let i ← match key with
      | .int i => pure i
      | .bool b => pure (if b then 1 else 0)
      | _ => throw .wrongSort
    let length ← match v with
      | .node n => lengthWith look n
      | _ => do
        let inside ← items v
        pure inside.length
    if i ≥ (length : Int) then return none
    let inside ← items v
    match (indexIn? inside.length i).bind (fun j => inside[j]?) with
    | some child => follow (← stepTo v child) rest
    | none => throw .outOfRange

/-- The route that a sequence of names and positions leads to, if any. -/
def routeFrom (v : Value) (way : Value) : Read Value := do
  if way.isNone then return .route v (← routeKeys v)
  match ← follow v (← items way) with
  | some goal => return .route goal (← routeKeys goal)
  | none => return .none

end CodeTree
