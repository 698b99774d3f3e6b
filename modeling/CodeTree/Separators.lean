import CodeTree.Assign

/-! # Separators

What a list has to hold for its view to be right: the items of the view and, between or after them,
the separators of its form. Separators are made anew each time.
-/
namespace CodeTree

/-- The type of the nodes that separate the items of a view. -/
def ViewForm.separator : ViewForm → String
  | .bare | .comma => "comma"
  | .dotted => "dot"
  | .lines | .decorators | .document => "endl"

def commaDatum (after : Datum) : Datum := .record [
  ("type", .text "comma"), ("first_formatting", .list []), ("second_formatting", .list [after])]

def spaceDatum : Datum := .record [("type", .text "space"), ("value", .text " ")]

def dotDatum : Datum := .record [
  ("type", .text "dot"), ("first_formatting", .list []), ("second_formatting", .list [])]

/-- The separator of a view that is not laid out over several lines. -/
def ViewForm.separatorDatum : ViewForm → Datum
  | .bare | .comma => commaDatum spaceDatum
  | .dotted => dotDatum
  | .lines | .decorators => lineEnd "    "
  | .document => lineEnd ""

def newSeparator (c : ViewCell) (d : Datum) : Edit Value :=
  return .node (← build d c.target c.place)

def newLineEnd (c : ViewCell) (indent : Value) : Edit Value := do
  let v ← newSeparator c (lineEnd "")
  setIndent v indent
  return v

/-- The indentation of a value with four spaces more. -/
def indentedMore (v : Value) : Read Value := do
  match ← attr v "indentation" with
  | .text s => return .text (s ++ "    ")
  | _ => throw .wrongSort

def asIndent : Value → Except Fault String
  | .text s => .ok s
  | _ => .error .wrongSort

def followedBy (separator : Edit Value) : List Value → Edit (List Value)
  | [] => pure []
  | v :: rest => do
    let s ← separator
    let others ← followedBy separator rest
    return v :: s :: others

def dottedItems (separator : Edit Value) : List Value → List Value → Edit (List Value)
  | done, [] => pure done
  | done, v :: rest => do
    let joined ← if done.isEmpty then pure false else do
      match ← typeOf v with
      | .text type => pure (type == "call" || type == "getitem")
      | _ => pure false
    let before := if joined then done.dropLast else done
    let s ← separator
    dottedItems separator (before ++ [v, s]) rest

/-- Items on lines of their own. A blank line takes the place of the separator before it, and some
items bring their line end with them. `first` says whether the first item can be a blank line that
nothing precedes. -/
def lineExpected (separator : Edit Value) (bringsEnd : Bool) :
    Bool → List Value → List Value → Edit (List Value)
  | _, done, [] => pure done
  | first, done, v :: rest => do
    let type ← typeOf v
    let isType (word : String) : Bool := match type with
      | .text t => t == word
      | _ => false
    let blank := isType "endl"
    if blank && !first && done.isEmpty then throw .outOfRange
    let before := if blank && !first then done.dropLast else done
    if (blank && first) || (bringsEnd && (isType "function" || isType "class")) then
      lineExpected separator bringsEnd false (before ++ [v]) rest
    else
      let s ← separator
      lineExpected separator bringsEnd false (before ++ [v, s]) rest

/-- The indentation of the lines of a view: that of its first item. -/
def linesIndent (c : ViewCell) (otherwise : Read Value) : Read Value := do
  match ← significant c.target with
  | first :: _ => attr first "indentation"
  | [] => otherwise

def ViewCell.hasStyle (c : ViewCell) (word : String) : Read Bool :=
  match c.style with
  | some v => equal v (.text word)
  | none => throw .noAttribute

/-- What is expected in a list of items between commas. In indented style each item has a line of
its own, and the line end before the first item belongs to the node that holds the list. -/
def expectedCommas (w : ViewId) (c : ViewCell) : Edit (List Value) := do
  let parent : Read Value := attr (.view w) "parent"
  let indented ← c.hasStyle "indented"
  if indented then
    if c.items.isEmpty then
      let l ← newLooseList []
      assign (← parent) "second_formatting" (.list l)
    else
      let indent ← Edit.lift (asIndent (← indentedMore (← parent)))
      let l ← buildList (.list [lineEnd indent]) .none none
      assign (← parent) "second_formatting" (.list l)
  let expected ← followedBy (do
    let after ← if indented then do
        let indent ← Edit.lift (asIndent (← indentedMore (← parent)))
        pure (lineEnd indent)
      else pure spaceDatum
    newSeparator c (commaDatum after)) c.items
  if indented then
    match expected.getLast? with
    | none => pure ()
    | some last =>
      let indent ← attr (← parent) "indentation"
      match ← items (← attr last "second_formatting") with
      | first :: _ => setIndent first indent
      | [] => throw .outOfRange
    return expected
  else if ← c.hasStyle "flat" then return expected.dropLast
  else return expected

def expectedItems (w : ViewId) : Edit (List Value) := do
  let c ← Read.view w
  let plain := newSeparator c c.form.separatorDatum
  let parent : Read Value := attr (.view w) "parent"
  match c.form with
  | .bare => return (← followedBy plain c.items).dropLast
  | .comma => expectedCommas w c
  | .dotted => return (← dottedItems plain [] c.items).dropLast
  | .lines =>
    let indent ← linesIndent c (do indentedMore (← parent))
    let first ← newLineEnd c indent
    let expected ← lineExpected (newLineEnd c indent) true false [first] c.items
    match expected.getLast? with
    | none => return expected
    | some last =>
      let holder ← parent
      let followed ← if ← truth holder then truth (← attr holder "next") else pure false
      if followed then setIndent last (← attr holder "indentation")
      else setIndent last (.text "")
      return expected
  | .decorators =>
    let indent ← linesIndent c (do attr (← parent) "indentation")
    let expected ← lineExpected (newLineEnd c indent) false false [] c.items
    match expected.getLast? with
    | none => return expected
    | some last =>
      setIndent last (← attr (← parent) "indentation")
      return expected
  | .document => lineExpected (newLineEnd c (.text "")) true true [] c.items

end CodeTree
