import CodeTree.Compare
import CodeTree.Snapshot

/-! # Routes and boxes

The route to a node or list is the list of attribute names and positions that lead to it from the
root, found by climbing from holder to holder. A box is where its text lies.
-/
namespace CodeTree

/-- What holds a node: the list it is in, or its parent. -/
def holder (v : Value) : Read Value := do
  let place ← placeOf v
  let parent ← parentOf v
  match place, parent with
  | some a, .node p =>
    match ← look p a with
    | .view w => do
      let target := (← Read.view w).target
      return if target.is v then parent else target
    | held => return if held.is v then parent else held
  | _, _ => return parent

/-- The word of the first slot of a node under which a list is held. -/
def slotHolding (p : NodeId) (v : Value) : List Slot → Read (Option Key)
  | [] => pure none
  | slot :: rest => do
    let held ← look p (.ofWord slot.word)
    if held.is v then return some (.name slot.word)
    let inner ← Read.orElseMissing (plainAttr held (.other "node_list")) (pure .none)
    if inner.is v then return some (.name slot.word)
    slotHolding p v rest

/-- The key under which the holder holds a node or list. -/
def holderKey (v : Value) : Read (Option Key) := do
  let found ← holder v
  if found.isNone then return none
  let container ← match found with
    | .view w => do
      let c ← Read.view w
      pure (if c.form == .document then c.target else found)
    | _ => pure found
  let isNodeList (x : Value) : Read Bool := do
    match x with
    | .list l => return (← Read.list l).flavour == .nodes
    | _ => return false
  match container with
  | .node p => do
    let layout ← Read.lift (← Read.node p).layout
    if ← isNodeList v then slotHolding p v layout
    else
      let place ← placeOf v
      return (layout.find? (fun slot => some slot.word == place.map Attr.word)).map
        (fun slot => .name slot.word)
  | .list l => do
    let c ← Read.list l
    if c.flavour == .nodes then
      let member ← match v with
        | .view w => pure (← Read.view w).target
        | _ => pure v
      return some (.index (← indexOf member c.items))
    throw .noAttribute
  | .view _ => throw .wrongSort
  | _ => throw .noAttribute

def keysFrom : Nat → Value → List Key → Read (List Key)
  | 0, _, _ => throw .tooDeep
  | fuel + 1, v, below => do
    if v.isNone then return below
    let keys := match ← holderKey v with
      | some key => key :: below
      | none => below
    keysFrom fuel (← holder v) keys

/-- The keys that lead to a node or list from its root. -/
def routeKeys (v : Value) : Read (List Key) := do keysFrom (2 * (← Read.depth)) v []

def rootAt : Nat → Value → Read Value
  | 0, _ => throw .tooDeep
  | fuel + 1, v => do
    match v with
    | .view w =>
      if (← Read.view w).form == .document then return v
      rootAt fuel (← parentOf v)
    | _ => rootAt fuel (← parentOf v)

def rootOf (v : Value) : Read Value := do rootAt (2 * (← Read.depth)) v

def ownBox (v : Value) : Read Box := do Read.lift (← snapshot v).box

/-- The box of what lies at some keys below a value, in the text of the whole document. -/
def boxWithin (v : Value) (keys : List Key) : Read Box := do
  let before ← routeKeys v
  let whole ← snapshot (← rootOf v)
  Read.lift (whole.boxAt (before ++ keys))

def boxInDocument (v : Value) : Read Box := boxWithin v []

end CodeTree
