import CodeTree.Fault

/-! # Plain data

A datum is nested plain data. The parser answers with data, and a node or a list of nodes can be
written back as a datum. Records keep the order of their fields; a field that occurs twice is read
where it occurs last.
-/
namespace CodeTree

inductive Datum where
  | null
  | bool (b : Bool)
  | int (i : Int)
  | text (s : String)
  | list (items : List Datum)
  | record (fields : List (String × Datum))
deriving Repr, Inhabited

/-- One step from a datum to a part of it. -/
inductive Key where
  | index (i : Int)
  | name (s : String)
deriving DecidableEq, Repr, Inhabited

/-- The value of a key in a list of pairs: the last one counts. -/
def lookupLast {α β : Type} [BEq α] (key : α) : List (α × β) → Option β
  | [] => none
  | (k, v) :: rest =>
    match lookupLast key rest with
    | some w => some w
    | none => if k == key then some v else none

/-- An index counted from the end when it is negative, if it lies in a list of length `n`. -/
def indexIn? (n : Nat) (i : Int) : Option Nat :=
  let j := if i < 0 then i + n else i
  if 0 ≤ j ∧ j < n then some j.toNat else none

namespace Datum

/-- Only what is empty, zero or false counts as false. -/
def truth : Datum → Bool
  | .null => false
  | .bool b => b
  | .int i => i != 0
  | .text s => s != ""
  | .list items => !items.isEmpty
  | .record fields => !fields.isEmpty

def step (d : Datum) (key : Key) : Except Fault Datum :=
  match d, key with
  | .list items, .index i =>
    match (indexIn? items.length i).bind (fun j => items[j]?) with
    | some item => .ok item
    | none => .error .outOfRange
  | .record fields, .name s =>
    match lookupLast s fields with
    | some item => .ok item
    | none => .error .noKey
  | .record _, .index _ => .error .noKey
  | _, _ => .error .wrongSort

def follow (d : Datum) : List Key → Except Fault Datum
  | [] => .ok d
  | key :: keys => (d.step key).bind (fun part => part.follow keys)

mutual

/-- Equality of plain data: truth values count as the integers one and zero, and the order of the
fields of a record is no matter. -/
def same : Datum → Datum → Bool
  | .null, .null => true
  | .bool a, .bool b => a == b
  | .bool a, .int i => (if a then 1 else 0) == i
  | .int i, .bool a => (if a then 1 else 0) == i
  | .int i, .int j => i == j
  | .text s, .text t => s == t
  | .list xs, .list ys => sameItems xs ys
  | .record xs, .record ys => xs.length == ys.length && sameFields xs ys
  | _, _ => false

def sameItems : List Datum → List Datum → Bool
  | [], [] => true
  | x :: xs, y :: ys => same x y && sameItems xs ys
  | _, _ => false

def sameFields : List (String × Datum) → List (String × Datum) → Bool
  | [], _ => true
  | (k, v) :: rest, ys =>
    (match lookupLast k ys with
      | some w => same v w
      | none => false) && sameFields rest ys

end

end Datum

end CodeTree
