import CodeTree.Fault

/-! # Flows

A flow is a run of items that may break off with a fault. Who reads a flow and stops early never
meets the fault; who needs all of it does.
-/
namespace CodeTree

structure Flow (α : Type) where
  items : List α
  fault : Option Fault
deriving Repr

namespace Flow

variable {α β : Type}

def ofList (items : List α) : Flow α := ⟨items, none⟩

def fail (fault : Fault) : Flow α := ⟨[], some fault⟩

/-- The second flow follows unless the first breaks off. -/
def append (a b : Flow α) : Flow α :=
  match a.fault with
  | some fault => ⟨a.items, some fault⟩
  | none => ⟨a.items ++ b.items, b.fault⟩

/-- The flows of the items one after the other. Nothing is asked for after one that breaks off. -/
def flatMap (f : α → Flow β) : List α → Flow β
  | [] => ofList []
  | a :: rest =>
    let first := f a
    match first.fault with
    | some _ => first
    | none => append first (flatMap f rest)

def toExcept (a : Flow α) : Except Fault (List α) :=
  match a.fault with
  | some fault => .error fault
  | none => .ok a.items

end Flow

end CodeTree
