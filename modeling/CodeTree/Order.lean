import CodeTree.Lookup

/-! # Reading order

The nodes below a value in the order in which their text is read. A node is met when it begins and
again after each of its parts that has text of its own; a line end is met only with its text, after
its formatting. Meeting the same node twice in a row counts once.
-/
namespace CodeTree

def meetings (s : Store) : Nat → Value → Flow Value
  | 0, _ => .fail .tooDeep
  | fuel + 1, v =>
    match v with
    | .node n =>
      match s.nodes[n.index]? with
      | none => .fail .noKey
      | some c =>
        let isEndl := match c.typeValue with
          | .text type => type == "endl"
          | _ => false
        let here : Flow Value := .ofList (if isEndl then [] else [v])
        let below : Flow Value :=
          match c.layout with
          | .error fault => .fail fault
          | .ok layout => .flatMap (fun slot =>
              match slot with
              | .constant _ _ => .ofList [v]
              | .field .text f _ =>
                match look n (.field f) s with
                | .ok (.text _) => .ofList [v]
                | .ok _ => .ofList []
                | .error fault => .fail fault
              | .field .flag _ _ => .ofList []
              | .field .child f _ =>
                match look n (.field f) s with
                | .ok child => meetings s fuel child
                | .error fault => .fail fault
              | .field .children f _ | .field .formatting f _ =>
                match (look n (.field f) >>= members) s with
                | .ok inner => .flatMap (meetings s fuel) inner
                | .error fault => .fail fault) layout
        .append here below
    | .list l =>
      match s.lists[l.index]? with
      | none => .fail .noKey
      | some c => if c.flavour == .nodes then ⟨[v], some .wrongSort⟩ else .ofList []
    | _ => .ofList []

def dropRepeats (previous : Value) : List Value → List Value
  | [] => []
  | v :: rest => if v.is previous then dropRepeats previous rest else v :: dropRepeats v rest

/-- The nodes of a node, list or view in reading order. -/
def readingOrder (v : Value) : Read (Flow Value) := do
  let s ← read
  let flow ← match ← underlying v with
    | .node n => pure (meetings s s.depth (.node n))
    | .list l => do
      let c ← Read.list l
      if c.flavour == .nodes then pure (Flow.flatMap (meetings s s.depth) c.items)
      else throw .noAttribute
    | _ => throw .noAttribute
  return ⟨dropRepeats .none flow.items, flow.fault⟩

end CodeTree
