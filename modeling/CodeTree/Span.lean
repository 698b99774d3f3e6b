/-! # Spans

A span of a list is given by two bounds, either of which may be missing. A negative bound counts
from the end, and a bound outside the list stands for its end.
-/
namespace CodeTree

structure Span where
  start : Option Int
  stop : Option Int
deriving DecidableEq, Repr

namespace Span

/-- A bound as a position between the items of a list of length `n`. -/
def bound (n : Nat) (i : Int) : Nat := if i < 0 then (i + n).toNat else min i.toNat n

def first (s : Span) (n : Nat) : Nat := (s.start.map (bound n)).getD 0

/-- The end of the span, never before its beginning. -/
def last (s : Span) (n : Nat) : Nat := max (s.first n) ((s.stop.map (bound n)).getD n)

variable {α : Type}

def before (s : Span) (xs : List α) : List α := xs.take (s.first xs.length)

def inside (s : Span) (xs : List α) : List α :=
  (xs.take (s.last xs.length)).drop (s.first xs.length)

def after (s : Span) (xs : List α) : List α := xs.drop (s.last xs.length)

/-- Puts other items in the place of those in the span. -/
def replace (s : Span) (new xs : List α) : List α := s.before xs ++ new ++ s.after xs

end Span

/-- Inserts an item before the one at a position, which may lie outside the list. -/
def insertAt {α : Type} (i : Int) (x : α) (xs : List α) : List α :=
  let j := Span.bound xs.length i
  xs.take j ++ x :: xs.drop j

end CodeTree
