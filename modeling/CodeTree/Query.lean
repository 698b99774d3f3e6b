import CodeTree.Replace

/-! # Queries

A query asks for nodes by one of their words, by the value that nodes of a kind are mainly told
apart by, by further conditions and by the values of fields. Each of these is matched against a
text, a pattern, a list of alternatives or a function of the value.
-/
namespace CodeTree

structure Query where
  identifier : Value
  conditions : List Value
  fields : List (String × Value)

def applyRule (r : Rule) (x : Value) : Edit Value := do
  match r.sort with
  | .const => return .ofDatum r.operand
  | .hasType => return .bool (← equal (← attr x "type") (.ofDatum r.operand))
  | .lacksType => return .bool !(← equal (← attr x "type") (.ofDatum r.operand))
  | .equals => return .bool (← equal x (.ofDatum r.operand))
  | .member => return .bool (← isAmong x (← items (.ofDatum r.operand)))
  | .even =>
    let i ← Edit.lift (literalInteger x)
    return .bool (i % 2 == 0)
  | .startsWith =>
    match x, r.operand with
    | .text s, .text start => return .bool (s.startsWith start)
    | .text _, _ => throw .wrongSort
    | _, _ =>
      let _ ← attr x "startswith"
      throw .wrongSort
  | .attr => attr x r.attr
  | .attrEquals => return .bool (← equal (← attr x r.attr) (.ofDatum r.operand))
  | .text => return .text (← textOf x)
  | .assign =>
    assign x r.attr (.ofDatum r.operand)
    return .none
  | .replace =>
    match x with
    | .node n =>
      replaceNode n (.ofDatum r.operand)
      return .none
    | .text _ => throw .wrongSort
    | _ =>
      let _ ← attr x "replace"
      throw .wrongSort

/-- Whether a value can be called: rules can, and nodes, lists of nodes and views, which search. -/
def isCallable : Value → Read Bool
  | .rule _ | .node _ | .view _ => pure true
  | .list l => return (← Read.list l).flavour == .nodes
  | _ => pure false

def alternatives? : Value → Read (Option (List Value))
  | .list l => do
    let c ← Read.list l
    if c.flavour == .plain || c.flavour == .tuple then return some c.items
    return none
  | .data (.list ds) => return some (ds.map Value.ofDatum)
  | .keys ks => return some (ks.map Key.toValue)
  | _ => return none

/-- Whether the first condition is about the main attribute of a node. -/
def isPattern (v : Value) : Read Bool := do
  match v with
  | .text _ | .pattern _ => return true
  | _ => return (← alternatives? v).isSome

def textMatches (fits : String → Except Fault Bool) : List Value → Edit Bool
  | [] => pure false
  | .text s :: rest => do
    if ← Edit.lift (fits s) then return true
    textMatches fits rest
  | _ :: _ => throw .wrongSort

def anyAmong (options : List Value) : List Value → Read Bool
  | [] => pure false
  | v :: rest => do
    if ← isAmong v options then return true
    anyAmong options rest

def anyHolds (f : Value → Edit Bool) : List Value → Edit Bool
  | [] => pure false
  | v :: rest => do
    if ← f v then return true
    anyHolds f rest

/-- Whether one of the values matches a pattern; `holds` says what a callable pattern makes of a
value. -/
def matchesAny (holds : Value → Value → Edit Bool) (values : List Value) (pattern : Value) :
    Edit Bool := do
  if ← isCallable pattern then return ← anyHolds (holds pattern) values
  match pattern with
  | .text s =>
    if s.startsWith "re:" then
      let p ← Edit.lift (Text.Pattern.read (s.drop 3).toString)
      textMatches (fun t => .ok (p.matchesStart t)) values
    else if s.startsWith "g:" then
      textMatches (fun t => .ok (Text.fitsGlob (s.drop 2).toString t)) values
    else isAmong pattern values
  | .pattern source =>
    textMatches (fun t => Text.fitsPattern source t) values
  | _ =>
    match ← alternatives? pattern with
    | some options => anyAmong options values
    | none => isAmong pattern values

def allHold (holds : Value → Value → Edit Bool) (n : NodeId) : List Value → Edit Bool
  | [] => pure true
  | f :: rest => do
    if !(← isCallable f) then throw .wrongSort
    if ← holds f (.node n) then allHold holds n rest else return false

/-- Whether the fields of a node match. A node without one of the fields does not. -/
def fieldsMatch (holds : Value → Value → Edit Bool) (n : NodeId) : List (String × Value) → Edit Bool
  | [] => pure true
  | (word, pattern) :: rest => do
    match Field.ofWord? word with
    | none => return false
    | some f =>
      if !(← Read.node n).fields.contains f then return false
      if ← matchesAny holds [← look n (.field f)] pattern then fieldsMatch holds n rest
      else return false

/-- What a query says of a node; `holds` says what a callable pattern makes of a value. -/
def matchesWith (holds : Value → Value → Edit Bool) (q : Query) (n : NodeId) : Edit Bool := do
  let c ← Read.node n
  let words ← Edit.lift c.identifiers
  let sought := match q.identifier with
    | .text s => .text (soughtWord s)
    | v => v
  if !(← matchesAny holds (words.map .text) sought) then return false
  match q.conditions with
  | [] => fieldsMatch holds n q.fields
  | first :: rest =>
    let conditions ←
      if ← isPattern first then do
        let main ← attr (.node n) c.kind.mainAttr
        if ← matchesAny holds [main] first then pure (some rest) else pure none
      else pure (some q.conditions)
    match conditions with
    | none => return false
    | some conditions =>
      if ← allHold holds n conditions then fieldsMatch holds n q.fields else return false

/-- Whether a value that is called with another gives something true: a rule is applied, anything
else searches for it. -/
def agreesAt : Nat → Value → Value → Edit Bool
  | 0, _, _ => throw .tooDeep
  | fuel + 1, f, x => do
    match f with
    | .rule r => truth (← applyRule r x)
    | _ =>
      let found ← findAllIn look (matchesWith (agreesAt fuel) ⟨x, [], []⟩) (← Read.depth) true f
      return !found.isEmpty

def agrees (f x : Value) : Edit Bool := do agreesAt (2 * (← Read.depth)) f x

def Query.accepts (q : Query) (n : NodeId) : Edit Bool := matchesWith agrees q n

/-- Searching in a text gives the position of the identifier. -/
def Query.inText (q : Query) (s : String) : Edit Value := do
  match q.identifier, q.conditions, q.fields with
  | .text word, [], [] => return .int (positionOf word.toList s.toList 0)
  | _, _, _ => throw .wrongSort

/-- The first node that a query accepts, among a value and what hangs below it. -/
def findFirst (q : Query) (deep : Bool) (v : Value) : Edit Value := do
  findIn look q.accepts q.inText (← Read.depth) deep v

/-- All nodes that a query accepts, among a value and what hangs below it. -/
def findAll (q : Query) (deep : Bool) (v : Value) : Edit (List Value) := do
  findAllIn look q.accepts (← Read.depth) deep v

/-- Calls a value with another: a rule is applied, anything else searches for it. -/
def apply (f x : Value) : Edit Value := do
  match f with
  | .rule r => applyRule r x
  | _ => return .list (← newLooseList (← findAll ⟨x, [], []⟩ true f))

def findAboveAt (q : Query) : Nat → Value → Edit Value
  | 0, _ => throw .tooDeep
  | fuel + 1, v => do
    let above ← parentOf v
    if !(← truth above) || (← placeOf v) = some .root then return .none
    match above with
    | .node p => if ← q.accepts p then return above else findAboveAt q fuel above
    | _ =>
      let _ ← attr above "_generate_identifiers"
      throw .wrongSort

/-- The nearest node above a node that a query accepts. -/
def findAbove (q : Query) (n : NodeId) : Edit Value := do
  findAboveAt q (2 * (← Read.depth)) (.node n)

end CodeTree
