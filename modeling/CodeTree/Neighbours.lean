import CodeTree.Compare
import CodeTree.Order
import CodeTree.Route

/-! # Neighbours and indentation

The siblings of a node are the members of the list that holds it. Its neighbours in reading order
are looked for below its parent, then below each ancestor in turn. The indentation of a node is that
of the nearest line end before it.
-/
namespace CodeTree

/-- What a value holds at a place. A document holds itself at the place of its root. -/
def held (v : Value) (place : Option Attr) : Read Value := do
  match place with
  | none => throw .wrongSort
  | some a =>
    if a = .root then Read.orElseMissing (rootOf v) (plainAttr v a) else plainAttr v a

/-- The list that a node is in, as the list itself and not the view. -/
def listOf? (n : NodeId) : Read (Option Value) := do
  let c ← Read.node n
  if c.parent.isNone then return none
  let container ← if c.place = some .root then pure c.parent else held c.parent c.place
  match container with
  | .view w => return some (← Read.view w).target
  | .list l => if (← Read.list l).flavour == .nodes then return some container else return none
  | _ => return none

/-- The items from the given one on, itself included. -/
def fromItem (v : Value) (items : List Value) : List Value := items.dropWhile (fun x => !x.is v)

/-- The items after a node in its list, the nearest first. -/
def followers? (n : NodeId) : Read (Option (List Value)) := do
  match ← listOf? n with
  | some container => return some (fromItem (.node n) (← items container))
  | none => return none

/-- The items before a node in its list, the nearest first, the node itself in front of them. -/
def predecessors? (n : NodeId) : Read (Option (List Value)) := do
  match ← listOf? n with
  | some container => return some (fromItem (.node n) (← items container).reverse)
  | none => return none

def secondOrNone : List Value → Value
  | _ :: second :: _ => second
  | _ => .none

def nextSibling (n : NodeId) : Read Value :=
  return ((← followers? n).map secondOrNone).getD .none

def previousSibling (n : NodeId) : Read Value :=
  return ((← predecessors? n).map secondOrNone).getD .none

/-- The items after the first, which has to be there. -/
def afterFirst : Option (List Value) → Read (Option (List Value))
  | none => pure none
  | some [] => throw .noMore
  | some (_ :: rest) => pure (some rest)

def followersOf (n : NodeId) : Read (Option (List Value)) := do afterFirst (← followers? n)

def predecessorsOf (n : NodeId) : Read (Option (List Value)) := do afterFirst (← predecessors? n)

/-- The position of a node among the items of what its parent holds, or in the list itself. -/
def indexInParent (raw : Bool) (n : NodeId) : Read Value := do
  let c ← Read.node n
  if !(← truth c.parent) then return .none
  match ← held c.parent c.place with
  | .view w =>
    let container ← Read.view w
    let among ← if raw then items container.target else pure container.items
    return .int (← indexOf (.node n) among)
  | .list l =>
    let container ← Read.list l
    if container.flavour == .nodes then return .int (← indexOf (.node n) container.items)
    return .none
  | _ => return .none

/-- The item before the first occurrence of `v`; at the first position, what came before. -/
def itemBefore (v : Value) (previous : Value) : List Value → Sum Value Value
  | [] => .inr previous
  | x :: rest => if x.is v then .inl previous else itemBefore v x rest

def previousFrom (v : Value) : Nat → Value → Value → Read Value
  | 0, _, _ => throw .tooDeep
  | fuel + 1, target, previous => do
    if target.isNone then return .none
    let flow ← readingOrder target
    match itemBefore v previous flow.items with
    | .inl found => return found
    | .inr last =>
      match flow.fault with
      | some fault => throw fault
      | none => previousFrom v fuel (← parentOf target) last

def previousRendered (n : NodeId) : Read Value := do
  previousFrom (.node n) (2 * (← Read.depth)) (← Read.node n).parent .none

/-- The item before some occurrence of `v`, the first that has one. -/
def itemBeforeSome (v : Value) (previous : Value) : List Value → Option Value
  | [] => none
  | x :: rest => if x.is v && !previous.isNone then some previous else itemBeforeSome v x rest

def nextFrom (v : Value) : Nat → Value → Read Value
  | 0, _ => throw .tooDeep
  | fuel + 1, target => do
    if target.isNone then return .none
    let order ← Read.lift (← readingOrder target).toExcept
    match itemBeforeSome v .none order.reverse with
    | some found => return found
    | none => nextFrom v fuel (← parentOf target)

def nextRendered (n : NodeId) : Read Value := do
  nextFrom (.node n) (2 * (← Read.depth)) (← Read.node n).parent

def indentationNodeAt : Nat → NodeId → Read Value
  | 0, _ => throw .tooDeep
  | fuel + 1, n => do
    if ← hasType (.node n) "endl" then return .none
    let previous ← computed n "previous_rendered" (previousRendered n)
    if previous.isNone then return .none
    if ← hasType previous "endl" then return previous
    match previous with
    | .node p => indentationNodeAt fuel p
    | _ => throw .wrongSort

/-- The line end whose indentation is that of a node, if the node is not on the first line. -/
def indentationNode (n : NodeId) : Read Value := do indentationNodeAt (← Read.depth) n

def indentationOf (n : NodeId) : Read Value := do
  match ← indentationNode n with
  | .none => return .text ""
  | v => plainAttr v (.field .indent)

def startsLine (n : NodeId) : Read Bool := do
  let previous ← computed n "previous_rendered" (previousRendered n)
  if ← truth previous then hasType previous "endl" else return false

end CodeTree
