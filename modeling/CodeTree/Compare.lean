import CodeTree.Lookup

/-! # Equality of values

Nodes and views are equal when they are the same; lists when their items are. A list of nodes
compares with any other list, a tuple only with tuples.
-/
namespace CodeTree

/-- The items of a value that is compared item by item, and whether it is a tuple. -/
def sequence? : Value → Read (Option (Bool × List Value))
  | .list l => do
    let c ← Read.list l
    match c.flavour with
    | .nodes | .plain => return some (false, c.items)
    | .tuple => return some (true, c.items)
    | .stream => return none
  | .keys ks => return some (false, ks.map Key.toValue)
  | .data (.list ds) => return some (false, ds.map Value.ofDatum)
  | _ => return none

/-- Whether two lists have equal items, one by one. -/
def sameItemsWith (same : Value → Value → Read Bool) : List Value → List Value → Read Bool
  | [], [] => pure true
  | x :: xs, y :: ys => do
    if ← same x y then sameItemsWith same xs ys else pure false
  | _, _ => pure false

def equalAt : Nat → Value → Value → Read Bool
  | 0, _, _ => throw .tooDeep
  | fuel + 1, a, b =>
    match a, b with
    | .node m, .node n => pure (m == n)
    | .view v, .view w => pure (v == w)
    | .box x, .box y => pure (x == y)
    | .pattern s, .pattern t => pure (s == t)
    | a, b =>
      match a.toDatum?, b.toDatum? with
      | some x, some y => pure (x.same y)
      | _, _ => do
        if a.is b then return true
        match ← sequence? a, ← sequence? b with
        | some (t, xs), some (u, ys) => if t == u then sameItemsWith (equalAt fuel) xs ys else pure false
        | _, _ => pure false

def equal (a b : Value) : Read Bool := do equalAt (← Read.depth) a b

def indexOf? (v : Value) : List Value → Read (Option Nat)
  | [] => pure none
  | x :: rest => do
    if ← equal x v then return some 0
    return (← indexOf? v rest).map (· + 1)

def countOf (v : Value) : List Value → Read Nat
  | [] => pure 0
  | x :: rest => do
    let n ← countOf v rest
    if ← equal x v then return n + 1
    return n

def indexOf (v : Value) (items : List Value) : Read Nat := do
  match ← indexOf? v items with
  | some i => return i
  | none => throw .badValue

def isAmong (v : Value) (items : List Value) : Read Bool := return (← indexOf? v items).isSome

end CodeTree
