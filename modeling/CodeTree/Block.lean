import CodeTree.Build
import CodeTree.Shift

/-! # Blocks from text

Text for the body of a compound statement, for a branch of one or for decorators is put into a small
program, parsed, taken out again, moved to the indentation of the statement and given the line ends
that what follows needs.
-/
namespace CodeTree

/-- Parses a text inside other text and takes out the part at some keys. -/
def parseWithin (before text after : String) (keys : List Key) : Edit Datum := do
  let answer ← Edit.parse (before ++ text ++ after)
  Edit.lift (answer.follow keys)

/-- Assigns a list of nodes or a view to a field that holds a list. -/
def storeList (n : NodeId) (f : Field) (v : Value) : Edit Unit := do
  let c ← Read.node n
  if !c.building && c.lists.contains f then
    setHolders (.node n) (some (.field f)) (← items v)
  putAttr n (.field f) v
  wrapHeld n (.field f)

/-- A text without its first line, if that is blank. -/
def dropBlankLine (s : String) : String :=
  match s.toList.dropWhile (· == ' ') with
  | '\n' :: rest => String.ofList rest
  | _ => s

def leadingSpaces (s : String) : Nat := (s.toList.takeWhile (· == ' ')).length

/-- Takes a number of characters off the front of every line. -/
def cutLines (n : Nat) (s : String) : String :=
  Text.unlines ((Text.lines s).map (fun line => (line.drop n).toString))

def lineEnd (indent : String) : Datum := .record [
  ("type", .text "endl"), ("formatting", .list []), ("value", .text "\n"), ("indent", .text indent)]

def nextOf (n : NodeId) : Read Value := computed n "next" (nextSibling n)

def indentOf (n : NodeId) : Read Value := computed n "indentation" (indentationOf n)

/-- Whether the last items, at most `k` of them, are all line ends. -/
def endsInLineEnds (k : Nat) (inside : List Value) : Read Bool := do
  (inside.drop (inside.length - k)).allM (fun v => hasType v "endl")

/-- Adds copies of a plain line end to a list of nodes. -/
def addLineEnds (l : ListId) : Nat → Edit Unit
  | 0 => pure ()
  | k + 1 => do
    let n ← build (lineEnd "") .none none
    Edit.updateList l (fun c => { c with items := c.items ++ [.node n] })
    addLineEnds l k

/-- Whether more than one line has to be left free after a node: it is followed by another element
of the document, or it is the last of its list and its parent is followed by something. -/
def needsGap (n : NodeId) : Read Bool := do
  let c ← Read.node n
  let followed ← truth (← nextOf n)
  if c.place = some .root && followed then return true
  if followed then return false
  truth (← attr c.parent "next")

/-- The body that a text describes, indented for a node. -/
def blockOf (n : NodeId) (text : String) (parent : Value) (place : Option Attr) : Edit ListId := do
  let clean := dropBlankLine text
  let margin ← lengthOf (← indentOf n)
  let body :=
    if leadingSpaces clean = 0 then
      Text.stripRight ("    " ++ String.intercalate "\n    " (Text.lines clean))
    else clean
  let d ← parseWithin "def a():\n" body "\n" [.index 0, .name "value"]
  let l ← buildList d parent place
  let inside := (← Read.list l).items
  match inside with
  | [] => throw .outOfRange
  | first :: _ =>
    let found ← lengthOf (← attr first "indent")
    let wanted := margin + 4
    if found > wanted then shiftLines (.less (.int (found - wanted : Nat))) inside
    else if found < wanted then shiftLines (.more (.int (wanted - found : Nat))) inside
    if ← needsGap n then
      if !(← endsInLineEnds 1 inside) then addLineEnds l 1
      else if !(← endsInLineEnds 2 inside) then addLineEnds l 2
      else if !(← endsInLineEnds 3 inside) then addLineEnds l 3
    else if ← truth (← nextOf n) then
      if !(← endsInLineEnds 2 inside) then addLineEnds l 1
      else if !(← endsInLineEnds 3 inside) then addLineEnds l 2
      let indent ← indentOf n
      match (← Read.list l).items.getLast? with
      | some last => setIndent last indent
      | none => throw .outOfRange
    return l

/-- The list behind the view that a value holds as its value. -/
def bodyOf (v : Value) : Read Value := do
  match ← attr v "value" with
  | .view w => return (← Read.view w).target
  | other => return other

/-- The items of a list in reverse, without the line ends at its end. -/
def trimEnds : List Value → Read (List Value)
  | [] => pure []
  | v :: rest => do
    if ← hasType v "endl" then trimEnds rest else return v :: rest

/-- Takes all line ends off the end of a body, which may not consist of them. -/
def trimBody (v : Value) : Edit Unit := do
  match ← underlying (← bodyOf v) with
  | .list l =>
    let kept ← trimEnds (← Read.list l).items.reverse
    Edit.updateList l (fun c => { c with items := kept.reverse })
    if kept.isEmpty then throw .outOfRange
  | _ => throw .wrongSort

def addLineEnd (v : Value) (indent : Value) : Edit Unit := do
  match ← underlying (← bodyOf v) with
  | .list l =>
    let n ← build (lineEnd "") v (some (.field .value))
    match indent with
    | .text "" => pure ()
    | other => setIndent (.node n) other
    Edit.updateList l (fun c => { c with items := c.items ++ [.node n] })
  | _ => throw .noAttribute

/-- The last node of the body that a value holds. -/
def lastOfBody (v : Value) : Read Value := do
  let inside ← items (← attr (← attr v "value") "node_list")
  match inside.getLast? with
  | some last => return last
  | none => throw .outOfRange

/-- The part of a statement that a new branch would follow. -/
def lastMember (n : NodeId) : Read Value := do
  if (← Read.node n).kind == .tryStmt then
    let final ← attr (.node n) "finally_"
    if ← truth final then return final
    let other ← attr (.node n) "else_"
    if ← truth other then return other
    let excepts ← items (← attr (.node n) "excepts")
    match excepts.getLast? with
    | some last => return last
    | none => throw .outOfRange
  else return .node n

/-- Takes spaces off the front of every line but the first. -/
def dedent (n : Nat) : List Char → List Char
  | [] => []
  | '\n' :: rest =>
    if (rest.takeWhile (· == ' ')).length ≥ n then '\n' :: dedentAfter n n rest
    else '\n' :: dedent n rest
  | c :: rest => c :: dedent n rest
where
  dedentAfter (n : Nat) : Nat → List Char → List Char
    | 0, s => dedent n s
    | _ + 1, [] => []
    | k + 1, _ :: rest => dedentAfter n k rest

/-- A branch of a statement from text: either with its keyword, or only its body. -/
def makeBranch (n : NodeId) (word text : String) (parent : Value) (place : Option Attr) :
    Edit NodeId := do
  if word.toList.isPrefixOf (Text.dropBlanks text.toList) then
    let text ←
      if text.startsWith " " || text.startsWith "\t" then do
        if leadingSpaces text = 0 then throw .noAttribute
        pure (Text.stripLeft (String.ofList (dedent (leadingSpaces text) text.toList)))
      else pure text
    let d ← parseWithin "try: pass\nexcept: pass\n" text "" [.index 0, .name word]
    let node ← build d parent place
    let body ← textOf (← attr (.node node) "value")
    let l ← blockOf n body (.node node) (some (.field .value))
    storeList node .value (.list l)
    return node
  else
    let node ← build (.record [("type", .text word), ("first_formatting", .list []),
      ("second_formatting", .list []),
      ("value", .list [.record [("type", .text "pass")], lineEnd ""])]) parent place
    let l ← blockOf n text parent place
    storeList node .value (.list l)
    return node

/-- A branch from text, put behind the rest of a statement. An empty text takes the branch away. -/
def branchOf (n : NodeId) (word text : String) (parent : Value) (place : Option Attr) :
    Edit Value := do
  if text == "" then
    trimBody (.node n)
    addLineEnd (.node n) (.text "")
    return .text ""
  let node ← makeBranch n word text parent place
  trimBody (.node node)
  addLineEnd (.node node) (.text "")
  let last ← lastMember n
  if ← truth (← nextOf n) then
    trimBody last
    addLineEnd last (.text "")
    let indent ← indentOf n
    if ← truth indent then addLineEnd (.node node) indent
    else
      addLineEnd (.node node) (.text "")
      addLineEnd (.node node) (.text "")
  let indent ← indentOf n
  setIndent (← lastOfBody last) indent
  return .node node

def Datum.withField (name : String) (v : Datum) : Datum → Datum
  | .record fields => .record (putPair name v fields)
  | d => d

def mapLast {α : Type} (f : α → α) : List α → List α
  | [] => []
  | [a] => [f a]
  | a :: rest => a :: mapLast f rest

def closeAtSigns : List Char → List Char
  | [] => []
  | c :: rest =>
    match closeAtSigns rest with
    | '@' :: more => if c == ' ' then '@' :: more else c :: '@' :: more
    | more => c :: more

def indentLineEnds (indent : Value) : List Value → Edit Unit
  | [] => pure ()
  | v :: rest => do
    if ← hasType v "endl" then setIndent v indent
    indentLineEnds indent rest

/-- Decorators from text, aligned with what they decorate. -/
def decoratorsOf (v : Value) (text : String) (parent : Value) (place : Option Attr) :
    Edit ListId := do
  let indent ← attr v "indentation"
  let clean := Text.strip (String.ofList (closeAtSigns text.toList))
  let d ← parseWithin clean "\ndef a(): pass" "" [.index 0, .name "decorators"]
  match d with
  | .list [] => throw .outOfRange
  | .list ds =>
    let margin := indent.toDatum?.getD .null
    let l ← buildList (.list (mapLast (Datum.withField "indent" margin) ds)) parent place
    if ← truth indent then
      indentLineEnds indent ((← Read.list l).items.drop 1).dropLast
    return l
  | _ => throw .noKey

end CodeTree
