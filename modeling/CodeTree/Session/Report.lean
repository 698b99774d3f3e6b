import CodeTree.Display

/-! # Reports

How the result of a step is reported: plain values as they are, nodes and lists by their class,
their text, where they hang and the way to them. Text and way may fail without failing the report.
An audit lists the state of a whole tree, entry by entry.
-/
namespace CodeTree

/-- A part of a report that may have failed. -/
abbrev Attempt (α : Type) := Except Fault α

inductive Report where
  | plain (d : Datum)
  /-- A record of plain data. -/
  | record (d : Datum)
  | list (items : List Report)
  | node (className : String) (text : Attempt String) (place : Option String)
      (parent : Option String) (way : Attempt (List Key))
  /-- A node among the items of a list. -/
  | item (className : String) (text : Attempt String)
  | view (className : String) (items : List Report) (members : List String) (text : Attempt String)
      (way : Attempt (List Key))
  | nodes (items : List Report) (place : Option String) (parent : Option String)
      (way : Attempt (List Key))
  | route (className : String) (way : List Key)
  | box (b : Box)

namespace Report

mutual

def ofDatum : Datum → Report
  | .list ds => .list (ofData ds)
  | .record fields => .record (.record fields)
  | d => .plain d

def ofData : List Datum → List Report
  | [] => []
  | d :: rest => ofDatum d :: ofData rest

end

end Report

def attempt {α : Type} (r : Read α) : Read (Attempt α) := fun s => .ok (r s)

/-- The class of what holds something, if anything does. -/
def holderName (parent : Value) : Read (Option String) := do
  if parent.isNone then return none
  return some (← className parent)

def showAt : Nat → Value → Read Report
  | 0, _ => throw .tooDeep
  | fuel + 1, v =>
    let showItem (x : Value) : Read Report := do
      match x with
      | .node _ => return .item (← className x) (← attempt (textOf x))
      | _ => showAt fuel x
    match v with
    | .none => pure (.plain .null)
    | .bool b => pure (.plain (.bool b))
    | .int i => pure (.plain (.int i))
    | .text s => pure (.plain (.text s))
    | .data d => pure (Report.ofDatum d)
    | .node n => do
      let c ← Read.node n
      return .node c.kind.className (← attempt (textOf v)) (c.place.map Attr.word)
        (← holderName c.parent) (← attempt (routeKeys v))
    | .view w => do
      let c ← Read.view w
      let shown ← c.items.mapM showItem
      let members ← (← items c.target).mapM className
      return .view c.form.className shown members (← attempt (textOf c.target))
        (← attempt (routeKeys c.target))
    | .list l => do
      let c ← Read.list l
      match c.flavour with
      | .nodes =>
        let shown ← c.items.mapM showItem
        return .nodes shown (c.place.map Attr.word) (← holderName c.parent)
          (← attempt (routeKeys v))
      | _ => return .list (← c.items.mapM (showAt fuel))
    | .route goal keys => do return .route (← className goal) keys
    | .keys keys => pure (.list (keys.map (fun
        | .index i => .plain (.int i)
        | .name s => .plain (.text s))))
    | .box b => pure (.box b)
    | .pattern _ | .rule _ => pure (.plain .null)

def showValue (v : Value) : Read Report := do showAt (← Read.depth) v

/-- How the parent of something relates to what it was found in. -/
inductive Relation where
  | none
  /-- The parent is the node or document found above. -/
  | holder
  /-- The parent is the list found around. -/
  | list
  | other
deriving DecidableEq, Repr

/-- An entry of an audit, without the way to it. -/
inductive Finding where
  | value (v : Report)
  | view (className : String) (place : Option String) (positions : List Int)
  | held (className : String) (place : Option String) (relation : Relation)

structure Entry where
  way : List Key
  finding : Finding

/-- How a parent relates to the holder and the list around. -/
def relationTo (parent holder around : Value) : Relation :=
  if parent.isNone then .none
  else if parent.is holder then .holder
  else if parent.is around then .list
  else .other

/-- The position of the same object in a list, or minus one. -/
def sameAt (v : Value) (members : List Value) : Int :=
  match members.findIdx? (fun x => x.is v) with
  | some i => i
  | none => -1

/-- What an audit visits: a value that should be a list, or a member of a list. -/
inductive Visit where
  | list (v holder : Value)
  | member (v holder around : Value)

def numbered {α : Type} (xs : List α) : List (Nat × α) := xs.mapIdx (fun i x => (i, x))

/-- The entries of what is visited and of all below it. -/
def auditAt : Nat → List Key → Visit → Read (List Entry)
  | 0, _, _ => throw .tooDeep
  | fuel + 1, way, visit => do
    let each (members : List Value) (holder around : Value) : Read (List Entry) :=
      gather (fun (i, x) => auditAt fuel (way ++ [.index (i : Nat)]) (.member x holder around))
        (numbered members)
    match visit with
    | .list v holder =>
      match v with
      | .view w =>
        let c ← Read.view w
        let members ← items c.target
        let here := ⟨way, .view c.form.className (c.place.map Attr.word)
          (c.items.map (fun x => sameAt x members))⟩
        return here :: (← each members holder c.target)
      | .list l =>
        let c ← Read.list l
        if c.flavour == .nodes then
          let here := ⟨way, .held "NodeList" (c.place.map Attr.word)
            (relationTo c.parent holder .none)⟩
          return here :: (← each c.items holder v)
        return [⟨way, .value (← showValue v)⟩]
      | _ => return [⟨way, .value (← showValue v)⟩]
    | .member v holder around =>
      match v with
      | .node n =>
        let c ← Read.node n
        let here := ⟨way, .held c.kind.className (c.place.map Attr.word)
          (relationTo c.parent holder around)⟩
        let below ← gather (fun slot =>
          match slot with
          | .constant _ _ => pure []
          | .field form f _ => do
            let held ← look n (.field f)
            let way := way ++ [.name f.word]
            match form with
            | .child => auditAt fuel way (.member held v .none)
            | .children | .formatting => auditAt fuel way (.list held v)
            | .text | .flag => return [⟨way, .value (← showValue held)⟩])
          (← Read.lift c.layout)
        return here :: below
      | _ => return [⟨way, .value (← showValue v)⟩]

def audit (document : Value) : Read (List Entry) := do
  auditAt (← Read.depth) [] (.list document document)

end CodeTree
