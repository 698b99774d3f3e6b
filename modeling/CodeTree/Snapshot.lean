import CodeTree.Lookup

/-! # Snapshots

A snapshot is a node, or a list of nodes, written as plain data. Rendering a snapshot gives the text
of the node.
-/
namespace CodeTree

/-- The text of an integer literal: whatever its value, as text. -/
def literalText : Value → String
  | .int i => toString i
  | .text s => s
  | .bool b => if b then "True" else "False"
  | _ => "None"

def isAbsent : Value → Read Bool
  | .none => pure true
  | .text s => pure (s == "")
  | .data d => pure !d.truth
  | .list l => do
    let c ← Read.list l
    return (c.flavour == .nodes || c.flavour == .plain) && c.items.isEmpty
  | _ => pure false

def snapshotAt : Nat → Value → Read Datum
  | 0, _ => throw .tooDeep
  | fuel + 1, v =>
    match v with
    | .node n => do
      let c ← Read.node n
      if c.kind == .int then
        let value ← look n (.field .value)
        return .record [("type", .text "int"), ("value", .text (literalText value)),
          ("section", .text "number")]
      let texts ← c.texts.mapM (fun f => do
        let held ← look n (.field f)
        return (f.word, held.toDatum?.getD .null))
      let lists ← c.lists.mapM (fun f => do
        let held ← look n (.field f)
        let parts ← (← members held).mapM (snapshotAt fuel)
        return (f.word, Datum.list parts))
      let children ← c.children.mapM (fun f => do
        let held ← look n (.field f)
        if ← isAbsent held then return (f.word, Datum.record [])
        return (f.word, ← snapshotAt fuel held))
      return .record (texts ++ lists ++ children)
    | .list l => do
      let c ← Read.list l
      if c.flavour == .nodes then return .list (← c.items.mapM (snapshotAt fuel))
      throw .noAttribute
    | .view w => do snapshotAt fuel (← Read.view w).target
    | _ => throw .noAttribute

def snapshot (v : Value) : Read Datum := do snapshotAt (← Read.depth) v

def textOf (v : Value) : Read String := do Read.lift (← snapshot v).render

end CodeTree
