import CodeTree.Workload.Editing
import CodeTree.Workload.Reading

/-! # Workloads

Fixed runs over sample programs. Each makes its programs to a given size, prepares what its runs
share, and reports a few counts and texts for every run. They serve to time the library, and to see
that its parts work together.
-/
namespace CodeTree

inductive Workload where
  | building
  | searching
  | describing
  | commas
  | dots
  | lines
  | assigning
  | moving
deriving DecidableEq, Repr

namespace Workload

/-- The program that a workload of a size runs on. -/
def program (w : Workload) (size : Int) : String :=
  match w with
  | .building | .searching | .describing | .moving => copies size sample
  | .commas => bracketProgram size
  | .dots => dottedProgram size
  | .lines => blockProgram size
  | .assigning => sample

def yieldProgram : String := "def f():\n    x = (yield y)\n"

def times (e : Edit Report) : Nat → Edit (List Report)
  | 0 => pure []
  | n + 1 => do
    let first ← e
    let others ← times e n
    return first :: others

/-- Runs a workload. Programs are parsed once before the runs; what only reads a tree shares it. -/
def run (w : Workload) (size : Int) (runs : Nat) : Edit (List Report) := do
  let source := w.program size
  let parsed : Edit Unit := do
    let _ ← Edit.parse source
  match w with
  | .building =>
    parsed
    times (buildTree source) runs
  | .searching =>
    let document ← newDocument source
    times (searchTree document) runs
  | .describing =>
    let document ← newDocument source
    let function ← item (← newDocument "def f(a):\n    pass\n") 0
    let statement ← item (← newDocument "import os") 0
    times (describeTree document function statement) runs
  | .commas =>
    parsed
    times (editCommas source) runs
  | .dots =>
    parsed
    times (editDots source) runs
  | .lines =>
    parsed
    times (editLines source) runs
  | .assigning =>
    parsed
    let _ ← Edit.parse yieldProgram
    times (.list <$> setAttributes source yieldProgram size.toNat) runs
  | .moving =>
    parsed
    times (moveNodes source) runs

end Workload

def runWorkload (parser : Parser) (w : Workload) (size : Int) (runs : Nat) :
    Except Fault (List Report) :=
  match w.run size runs parser Store.empty with
  | .ok reports _ => .ok reports
  | .error fault _ => .error fault

end CodeTree
