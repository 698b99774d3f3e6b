import CodeTree.Help
import CodeTree.Query

/-! # Arguments

The arguments of a call, in order or by name, and how they are bound to parameters.
-/
namespace CodeTree

structure Arguments where
  given : List Value
  named : List (String × Value)

namespace Arguments

def ofList (given : List Value) : Arguments := ⟨given, []⟩

/-- Binds the arguments to parameters, each with the value it has if it is left out. -/
def bind (a : Arguments) (params : List (String × Option Value)) : Except Fault (List Value) :=
  if a.given.length > params.length then .error .wrongSort
  else if a.named.any (fun (name, _) =>
      !((params.drop a.given.length).map Prod.fst).contains name) then .error .wrongSort
  else
    let rest := (params.drop a.given.length).mapM (fun (name, fallback) =>
      match lookupLast name a.named with
      | some v => some v
      | none => fallback)
    match rest with
    | some values => .ok (a.given ++ values)
    | none => .error .wrongSort

def none (a : Arguments) : Except Fault Unit :=
  if a.given.isEmpty && a.named.isEmpty then .ok () else .error .wrongSort

def one (a : Arguments) (param : String) : Except Fault Value :=
  match a.bind [(param, Option.none)] with
  | .ok [v] => .ok v
  | .ok _ => .error .wrongSort
  | .error fault => .error fault

def two (a : Arguments) (first second : String) : Except Fault (Value × Value) :=
  match a.bind [(first, Option.none), (second, Option.none)] with
  | .ok [v, w] => .ok (v, w)
  | .ok _ => .error .wrongSort
  | .error fault => .error fault

def three (a : Arguments) (first second third : String) : Except Fault (Value × Value × Value) :=
  match a.bind [(first, Option.none), (second, Option.none), (third, Option.none)] with
  | .ok [v, w, x] => .ok (v, w, x)
  | .ok _ => .error .wrongSort
  | .error fault => .error fault

/-- What identifies the nodes sought, further conditions and the arguments by name. -/
def sought (a : Arguments) : Except Fault (Value × List Value × List (String × Value)) :=
  match a.given, lookupLast "identifier" a.named with
  | identifier :: rest, Option.none => .ok (identifier, rest, a.named)
  | [], some identifier =>
    .ok (identifier, [], a.named.filter (fun (name, _) => name != "identifier"))
  | _, _ => .error .wrongSort

/-- A query, and whether it goes below the first nodes. -/
def query (a : Arguments) : Read (Query × Bool) := do
  let (identifier, conditions, named) ← Read.lift a.sought
  let deep ← match lookupLast "recursive" named with
    | some v => truth v
    | Option.none => pure true
  return (⟨identifier, conditions, named.filter (fun (name, _) => name != "recursive")⟩, deep)

def plainQuery (a : Arguments) : Except Fault Query :=
  a.sought.map (fun (identifier, conditions, named) => ⟨identifier, conditions, named⟩)

end Arguments

def asInteger : Value → Except Fault Int
  | .int i => .ok i
  | .bool b => .ok (if b then 1 else 0)
  | _ => .error .wrongSort

def asBound : Value → Except Fault (Option Int)
  | .none => .ok none
  | .int i => .ok (some i)
  | .bool b => .ok (some (if b then 1 else 0))
  | _ => .error .wrongSort

def asSpan (start stop : Value) : Except Fault Span := do
  return ⟨← asBound start, ← asBound stop⟩

def asDepth : Value → Except Fault HelpDepth
  | .int i => .ok (.levels i)
  | .bool b => .ok (.flag b)
  | _ => .error .wrongSort

end CodeTree
