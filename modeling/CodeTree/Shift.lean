import CodeTree.Display
import CodeTree.Holding

/-! # Shifting lines

Moving the lines of a list of nodes to the right or to the left. A line begins with the line end
before it, whose indentation is changed, once for each line end that something else follows.
-/
namespace CodeTree

/-- Stores a value as text if it is to stand under a text field. -/
def textFieldValue (v : Value) : Read Value := do
  match v with
  | .text _ | .int _ | .bool _ => return v
  | _ => return .text (← plainText false v)

/-- Sets the indentation that a line end, or any other node, names. -/
def setIndent (v indent : Value) : Edit Unit := do
  match v with
  | .node n =>
    let c ← Read.node n
    if !c.building && c.texts.contains .indent then
      putAttr n (.field .indent) (← textFieldValue indent)
    else putAttr n (.field .indent) indent
  | .list l =>
    if (← Read.list l).flavour == .nodes then
      Edit.updateList l (fun c => { c with extra := putPair "indent" indent c.extra })
    else throw .noAttribute
  | .view w => Edit.updateView w (fun c => { c with extra := putPair "indent" indent c.extra })
  | _ => throw .noAttribute

def spacesFor : Value → Except Fault String
  | .int i => .ok (String.ofList (List.replicate i.toNat ' '))
  | .bool b => .ok (if b then " " else "")
  | _ => .error .wrongSort

/-- What is left of a text from a position on, counted from the end if negative. -/
def dropFrom (s : String) (i : Int) : String :=
  let cs := s.toList
  let start := if i < 0 then (cs.length + i).toNat else i.toNat
  String.ofList (cs.drop start)

/-- The two ways of changing an indentation. -/
inductive Shift where
  | more (by_ : Value)
  | less (by_ : Value)

def Shift.apply (shift : Shift) (indent : Value) : Except Fault Value :=
  match shift, indent with
  | .more n, .text s => (spacesFor n).map (fun spaces => .text (s ++ spaces))
  | .less (.int i), .text s => .ok (.text (dropFrom s i))
  | .less (.bool b), .text s => .ok (.text (dropFrom s (if b then 1 else 0)))
  | .less .none, .text s => .ok (.text s)
  | _, _ => .error .wrongSort

def shiftLine (shift : Shift) (v : Value) : Edit Unit := do
  let indent ← attr v "indent"
  setIndent v (← Edit.lift (shift.apply indent))

/-- Goes through nodes in reading order, changing each line end that something else follows. Gives
the last node met and the line ends changed so far. -/
def shiftAlong (shift : Shift) : Value → List Value → List Value → Edit (Value × List Value)
  | previous, done, [] => pure (previous, done)
  | previous, done, v :: rest => do
    let isEnd ← hasType v "endl"
    if !isEnd && !previous.isNone then
      if (← hasType previous "endl") && !done.any (·.is previous) then
        shiftLine shift previous
        return ← shiftAlong shift v (previous :: done) rest
    shiftAlong shift v done rest

def shiftItems (shift : Shift) : Value → List Value → List Value → Edit Unit
  | _, _, [] => pure ()
  | previous, done, v :: rest => do
    let order ← readingOrder v
    let (last, changed) ← shiftAlong shift previous done order.items
    match order.fault with
    | some fault => throw fault
    | none => shiftItems shift last changed rest

def shiftLines (shift : Shift) (inside : List Value) : Edit Unit := shiftItems shift .none [] inside

/-- Shifts the line that a node is on. Lines of single nodes cannot be shifted to the left. -/
def shiftNode (shift : Shift) (n : NodeId) : Edit Unit := do
  let line ← indentationNode n
  let indent ← attr line "indent"
  match shift with
  | .more _ => setIndent line (← Edit.lift (shift.apply indent))
  | .less by_ => do
    let _ ← Edit.lift (spacesFor by_)
    throw .wrongSort

end CodeTree
