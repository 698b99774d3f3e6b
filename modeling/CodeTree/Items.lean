import CodeTree.Scan
import CodeTree.Separators
import CodeTree.Span

/-! # Editing items

Items are put into a view, taken out of it and replaced in it as in any list; the list behind the
view is then brought in step. What is put in is converted by the rules of the node that holds the
list.
-/
namespace CodeTree

def listHolder (c : ViewCell) : Read Value := attr c.target "parent"

/-- The node that stands for a value put into a view. -/
def itemFrom (w : ViewId) (v : Value) : Edit Value := do
  let c ← Read.view w
  match c.form with
  | .document => plainNodeFrom v (.view w) (some .root)
  | .dotted =>
    let text ← match v with
      | .text s =>
        pure ((if s.startsWith "(" || s.startsWith "[" then "a" else "a.") ++ s)
      | .node _ | .list _ | .view _ => do
        let _ ← attr v "startswith"
        throw .wrongSort
      | _ => throw .noAttribute
    let found ← significant (← listFor (← listHolder c) (.text text) c.target c.place)
    match found.getLast? with
    | some last => return last
    | none => throw .outOfRange
  | _ =>
    let found ← significant (← listFor (← listHolder c) v c.target c.place)
    match found with
    | first :: _ => return first
    | [] => throw .outOfRange

def itemsFromEach (w : ViewId) : List Value → Edit (List Value)
  | [] => pure []
  | v :: rest => do
    let first ← itemFrom w v
    let others ← itemsFromEach w rest
    return first :: others

/-- The items that stand for the values of a sequence, or for a text as a whole. -/
def itemsFrom (w : ViewId) (v : Value) : Edit (List Value) := do
  let c ← Read.view w
  match c.form, v with
  | .document, _ => items (← listFor (.view w) v (.view w) (some .root))
  | .decorators, _ => itemsFromEach w (← items v)
  | _, .text _ => items (← listFor (← listHolder c) v c.target c.place)
  | _, _ => itemsFromEach w (← items v)

/-- Whether two nodes are both of the type that separates the items of a view. -/
def bothSeparate (form : ViewForm) (x e : Value) : Read Bool := do
  let a ← hasType x form.separator
  let b ← hasType e form.separator
  return a && b

/-- How an item of the list compares with what is expected, when adding. Blank lines among lines are
items and no separators. -/
def judgeAdding (c : ViewCell) (x e : Value) : Read Verdict := do
  if c.form.lineBased then
    let separators ← bothSeparate c.form x e
    if separators && !(← isAmong e c.items) && !(← isAmong x c.items) then return .paired
    return if x.is e then .same else .different
  if x.is e then return .same
  return if ← bothSeparate c.form x e then .paired else .different

/-- How an item of the list compares with what is expected, when taking away. -/
def judgeTaking (c : ViewCell) (x e : Value) : Read Verdict := do
  if ← bothSeparate c.form x e then return .paired
  return if x.is e then .same else .different

/-- Gives a separator that is kept the layout of the one expected in its place. -/
def alignSeparator (form : ViewForm) (x e : Value) : Edit Unit := do
  match form with
  | .comma =>
    let wanted ← attr e "second_formatting"
    if !(← equal (← attr x "second_formatting") wanted) then
      let l ← copyList wanted
      assign x "second_formatting" (.list l)
  | .lines | .decorators | .document =>
    let wanted ← attr e "indent"
    if !(← equal (← attr x "indent") wanted) then setIndent x wanted
  | .bare | .dotted => pure ()

def alignSeparators (form : ViewForm) : List (Value × Value) → Edit Unit
  | [] => pure ()
  | (x, e) :: rest => do
    alignSeparator form x e
    alignSeparators form rest

def leadingDots : List Value → Read Nat
  | [] => pure 0
  | v :: rest => do
    if ← hasType v "dot" then return (← leadingDots rest) + 1
    return 0

/-- The part of a list that is brought in step begins after the dots in front of it. -/
def settledItems (form : ViewForm) (inside : List Value) : Read Nat :=
  if form == .dotted then leadingDots inside else pure 0

inductive Direction where
  | adding
  | taking
deriving DecidableEq, Repr

/-- The moves that bring a list in step with what is expected. -/
def planFor (direction : Direction) (c : ViewCell) (inside expected : List Value) :
    Read (Plan Value) := do
  let s ← read
  let settled ← settledItems c.form inside
  let rest := inside.drop settled
  let plan := match direction with
    | .adding => augment (fun x e => judgeAdding c x e s) rest expected
    | .taking => reduce (fun x e => judgeTaking c x e s) rest expected
  return ⟨(inside.take settled).map .keep ++ plan.moves, plan.fault⟩

mutual

def insertItem : Nat → ViewId → Int → Value → Edit Unit
  | 0, _, _, _ => throw .tooDeep
  | fuel + 1, w, i, v => do
    let item ← itemFrom w v
    Edit.updateView w (fun c => { c with items := insertAt i item c.items })
    bringInStep fuel .adding w

def popItem : Nat → ViewId → Int → Edit Unit
  | 0, _, _ => throw .tooDeep
  | fuel + 1, w, i => do
    let c ← Read.view w
    match indexIn? c.items.length i with
    | none => throw .outOfRange
    | some j =>
      Edit.updateView w (fun c => { c with items := c.items.eraseIdx j })
      bringInStep fuel .taking w

/-- Brings the list behind a view in step with its items. -/
def bringInStep : Nat → Direction → ViewId → Edit Unit
  | 0, _, _ => throw .tooDeep
  | fuel + 1, direction, w => do
    let expected ← expectedItems w
    let c ← Read.view w
    let plan ← planFor direction c (← items c.target) expected
    match c.target with
    | .list l => Edit.updateList l (fun c => { c with items := plan.result })
    | target =>
      match ← (match target with
        | .node n => look n (.field .value)
        | other => pure other) with
      | .view inner => moveItems fuel inner 0 plan.moves
      | _ => throw .wrongSort
    alignSeparators c.form plan.pairs
    match plan.fault with
    | some fault => throw fault
    | none => pure ()

/-- Makes the moves of a plan on a view that stands in the place of a list. -/
def moveItems : Nat → ViewId → Nat → List (Move Value) → Edit Unit
  | 0, _, _, _ => throw .tooDeep
  | _, _, _, [] => pure ()
  | fuel + 1, w, i, .insert e :: rest => do
    insertItem fuel w i e
    moveItems fuel w (i + 1) rest
  | fuel + 1, w, i, .drop _ :: rest => do
    popItem fuel w i
    moveItems fuel w i rest
  | fuel + 1, w, i, _ :: rest => moveItems fuel w (i + 1) rest

end

/-- Enough for any nesting of views and any number of moves. -/
def editFuel : Read Nat := return 4 * (← Read.depth) + 64

def afterEdit (direction : Direction) (w : ViewId) : Edit Unit := do
  bringInStep (← editFuel) direction w

def insertInView (w : ViewId) (i : Int) (v : Value) : Edit Unit := do
  insertItem (← editFuel) w i v

def appendToView (w : ViewId) (v : Value) : Edit Unit := do
  insertInView w (← Read.view w).items.length v

/-- Adds converted values at the end of a view one by one. -/
def extendEach (w : ViewId) : List Value → Edit Unit
  | [] => pure ()
  | v :: rest => do
    let item ← itemFrom w v
    Edit.updateView w (fun c => { c with items := c.items ++ [item] })
    extendEach w rest

def extendView (w : ViewId) (v : Value) : Edit Unit := do
  if (← Read.view w).form == .decorators then extendEach w (← items v)
  else
    let new ← itemsFrom w v
    Edit.updateView w (fun c => { c with items := c.items ++ new })
  afterEdit .adding w

/-- Takes the item at a position, or the last one, out of a view. -/
def popFromView (w : ViewId) (i : Int) : Edit Unit := do popItem (← editFuel) w i

def removeFromView (w : ViewId) (v : Value) : Edit Unit := do
  let i ← indexOf v (← Read.view w).items
  popFromView w i

def deleteSpan (w : ViewId) (s : Span) : Edit Unit := do
  Edit.updateView w (fun c => { c with items := s.replace [] c.items })
  afterEdit .taking w

def realign (w : ViewId) : Edit Unit := do
  afterEdit .taking w
  afterEdit .adding w

/-- Replaces an item of a view. The value is converted before the position is looked at. -/
def setItem (w : ViewId) (i : Int) (v : Value) : Edit Unit := do
  let item ← itemFrom w v
  match indexIn? (← Read.view w).items.length i with
  | none => throw .outOfRange
  | some j =>
    Edit.updateView w (fun c => { c with items := c.items.set j item })
    realign w

def replaceSpan (w : ViewId) (s : Span) (v : Value) : Edit Unit := do
  let new ← itemsFrom w v
  Edit.updateView w (fun c => { c with items := s.replace new c.items })
  realign w

def spanOfView (w : ViewId) (s : Span) : Edit Value := do
  let c ← Read.view w
  let l ← newLooseList (s.inside c.items)
  let new ← newViewOf c.form (.list l) (some (.field .value))
  if c.form == .document then
    Edit.updateView new (fun c => { c with place := none, parent := some .none })
  return .view new

end CodeTree
