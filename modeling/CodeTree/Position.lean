import CodeTree.Trace
import CodeTree.Text.Lines

/-! # Positions and boxes

Lines and columns are counted from one. A box is the first and the last position of a part of a
text; the last position of an empty part stands one column before the first. Both questions, where
a part lies and which part covers a position, are answered along the trace of a datum.
-/
namespace CodeTree

structure Position where
  line : Nat
  column : Nat
deriving DecidableEq, Repr, Inhabited

structure Box where
  topLeft : Position
  bottomRight : Position
deriving DecidableEq, Repr, Inhabited

namespace Position

def start : Position := ⟨1, 1⟩

def after (p : Position) : Text.Piece → Position
  | .newline _ => ⟨p.line + 1, 1⟩
  | .run text => ⟨p.line, p.column + text.length⟩

def left (p : Position) : Position := ⟨p.line, p.column - 1⟩

end Position

/-- What is known of a box while a trace is read. The path holds the innermost key first. -/
structure BoxSearch where
  path : List Key
  position : Position
  left : Position
  found : Bool
  topLeft : Option Position
  bottomRight : Option Position
deriving Repr

namespace BoxSearch

def initial (target : List Key) : BoxSearch where
  path := []
  position := .start
  left := ⟨1, 0⟩
  found := target.isEmpty
  topLeft := none
  bottomRight := none

def pass (st : BoxSearch) : List Text.Piece → BoxSearch
  | [] => st
  | .run [] :: rest => st.pass rest
  | piece :: rest =>
    let next := st.position.after piece
    { st with position := next, left := next.left }.pass rest

/-- The effect of one event; `target` holds the innermost key first. -/
def step (target : List Key) (st : BoxSearch) : Event → Except Fault BoxSearch
  | .enter key =>
    let path := key :: st.path
    if path == target then
      .ok { st with path := path, found := true, topLeft := some st.position }
    else .ok { st with path := path }
  | .text (.text s) => .ok (st.pass (Text.pieces s.toList))
  | .text _ => .error .wrongSort
  | .leave =>
    let bottom :=
      if st.bottomRight.isNone && st.found && st.path == target then some st.left
      else st.bottomRight
    .ok { st with path := st.path.tail, bottomRight := bottom }

def run (target : List Key) (st : BoxSearch) : List Event → Except Fault BoxSearch
  | [] => .ok st
  | e :: rest =>
    match st.step target e with
    | .ok next => next.run target rest
    | .error fault => .error fault

end BoxSearch

/-- The box of the part of a datum at a path. A path that is not shown has none. -/
def Datum.boxAt (d : Datum) (path : List Key) : Except Fault Box :=
  let trace := d.trace
  match (BoxSearch.initial path).run path.reverse trace.items with
  | .error fault => .error fault
  | .ok st =>
    match trace.fault with
    | some fault => .error fault
    | none =>
      match st.topLeft, st.bottomRight with
      | none, none => if st.found then .ok ⟨.start, st.left⟩ else .error .wrongSort
      | some a, some b => .ok ⟨a, b⟩
      | _, _ => .error .wrongSort

def Datum.box (d : Datum) : Except Fault Box := d.boxAt []

/-- The search for the part at a position. -/
structure SpotSearch where
  path : List Key
  position : Position
deriving Repr

namespace SpotSearch

/-- Reads pieces up to the position: stops with the answer, or goes on. -/
def pass (line column : Int) (st : SpotSearch) : List Text.Piece → Sum (Option (List Key)) SpotSearch
  | [] => .inr st
  | .newline text :: rest =>
    let next := st.position.after (.newline text)
    if (next.line : Int) > line then .inl none
    else { st with position := next }.pass line column rest
  | .run text :: rest =>
    let next := st.position.after (.run text)
    if (st.position.line : Int) = line ∧ (st.position.column : Int) ≤ column ∧ column < next.column
    then .inl (some st.path.reverse)
    else { st with position := next }.pass line column rest

def run (line column : Int) (st : SpotSearch) : List Event → Option Fault → Except Fault (Option (List Key))
  | [], none => .ok none
  | [], some fault => .error fault
  | .enter key :: rest, fault => { st with path := key :: st.path }.run line column rest fault
  | .leave :: rest, fault => { st with path := st.path.tail }.run line column rest fault
  | .text (.text s) :: rest, fault =>
    match st.pass line column (Text.pieces s.toList) with
    | .inl answer => .ok answer
    | .inr next => next.run line column rest fault
  | .text _ :: _, _ => .error .wrongSort

end SpotSearch

/-- The path to the text that covers a position, if there is one. -/
def Datum.pathAt (d : Datum) (line column : Int) : Except Fault (Option (List Key)) :=
  let trace := d.trace
  SpotSearch.run line column ⟨[], .start⟩ trace.items trace.fault

end CodeTree
