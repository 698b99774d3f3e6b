import CodeTree.Fault

/-! # Bringing a list in step

A list that has got out of step with what is expected of it is mended in one pass from left to
right. One pass adds what is missing and takes nothing away; the other takes away what is not
expected and adds nothing. Two separators count as a match even where they are different objects:
the one in the list is kept, paired with the one expected.
-/
namespace CodeTree

/-- How an item compares with what is expected in its place. -/
inductive Verdict where
  | same
  /-- Two separators. -/
  | paired
  | different
deriving DecidableEq, Repr

/-- What a pass does at one place. -/
inductive Move (α : Type) where
  | keep (x : α)
  | pair (x expected : α)
  | insert (expected : α)
  | drop (x : α)
deriving Repr

namespace Move

variable {α : Type}

def result : Move α → List α
  | .keep x | .pair x _ | .insert x => [x]
  | .drop _ => []

def pair? : Move α → Option (α × α)
  | .pair x expected => some (x, expected)
  | _ => none

end Move

/-- The moves of a pass. A pass that meets a fault leaves the rest of the list as it is. -/
structure Plan (α : Type) where
  moves : List (Move α)
  fault : Option Fault
deriving Repr

namespace Plan

variable {α : Type}

def finished : Plan α := ⟨[], none⟩

def andThen (m : Move α) (p : Plan α) : Plan α := ⟨m :: p.moves, p.fault⟩

def keepAll (xs : List α) (fault : Option Fault) : Plan α := ⟨xs.map .keep, fault⟩

def result (p : Plan α) : List α := p.moves.flatMap Move.result

/-- The separators that were kept, each with the one expected in its place. -/
def pairs (p : Plan α) : List (α × α) := p.moves.filterMap Move.pair?

end Plan

variable {α : Type}

def augment (judge : α → α → Except Fault Verdict) : List α → List α → Plan α
  | xs, [] => .keepAll xs none
  | [], e :: es => .andThen (.insert e) (augment judge [] es)
  | x :: xs, e :: es =>
    match judge x e with
    | .error fault => .keepAll (x :: xs) (some fault)
    | .ok .same => .andThen (.keep x) (augment judge xs es)
    | .ok .paired => .andThen (.pair x e) (augment judge xs es)
    | .ok .different => .andThen (.insert e) (augment judge (x :: xs) es)

/-- The pass that takes away what is not expected. -/
def reduce (judge : α → α → Except Fault Verdict) : List α → List α → Plan α
  | [], _ => .finished
  | x :: xs, [] => .andThen (.drop x) (reduce judge xs [])
  | x :: xs, e :: es =>
    match judge x e with
    | .error fault => .keepAll (x :: xs) (some fault)
    | .ok .same => .andThen (.keep x) (reduce judge xs es)
    | .ok .paired => .andThen (.pair x e) (reduce judge xs es)
    | .ok .different => .andThen (.drop x) (reduce judge xs (e :: es))

end CodeTree
