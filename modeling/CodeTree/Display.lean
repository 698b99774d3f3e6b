import CodeTree.Attribute
import CodeTree.Text.Excerpt
import CodeTree.Text.Quoted

/-! # Short forms

How values are shown on one line or, for lists at a terminal, as a table of their items. `shell`
says whether someone reads along at a terminal.
-/
namespace CodeTree

def boolWord (b : Bool) : String := if b then "True" else "False"

def bracketed (openMark closeMark : String) (parts : List String) : String :=
  openMark ++ String.intercalate ", " parts ++ closeMark

def Key.display : Key → String
  | .index i => toString i
  | .name s => Text.quoted s

def displayKeys (keys : List Key) : String := bracketed "[" "]" (keys.map Key.display)

namespace Datum

mutual

def display : Datum → String
  | .null => "None"
  | .bool b => boolWord b
  | .int i => toString i
  | .text s => Text.quoted s
  | .list ds => bracketed "[" "]" (displayItems ds)
  | .record fields => bracketed "\x7b" "\x7d" (displayFields fields)

def displayItems : List Datum → List String
  | [] => []
  | d :: rest => d.display :: displayItems rest

def displayFields : List (String × Datum) → List String
  | [] => []
  | (k, d) :: rest => (Text.quoted k ++ ": " ++ d.display) :: displayFields rest

end

end Datum

def className : Value → Read String
  | .none => pure "NoneType"
  | .bool _ => pure "bool"
  | .int _ => pure "int"
  | .text _ => pure "str"
  | .data (.list _) | .keys _ => pure "list"
  | .data _ => pure "dict"
  | .node n => return (← Read.node n).kind.className
  | .list l => do
    match (← Read.list l).flavour with
    | .nodes => return "NodeList"
    | .plain => return "list"
    | .tuple => return "tuple"
    | .stream => return "generator"
  | .view w => return (← Read.view w).form.className
  | .route _ _ => pure "Path"
  | .box _ => pure "BoundingBox"
  | .pattern _ => pure "Pattern"
  | .rule _ => pure "function"

/-- The text of a value cut to twenty characters on one line. -/
def excerpt (v : Value) : Read String := do
  let text ← textOf v
  return Text.truncate (text.replace "\n" "\\n") 20

def rowNumber (i : Nat) : String :=
  let s := toString i
  s ++ String.ofList (List.replicate (3 - s.length) ' ')

/-- The items of a table, each on a row of its own. -/
def rows (shown : List String) : String :=
  String.join (shown.mapIdx (fun i s =>
    rowNumber i ++ " " ++ String.intercalate "\n    " (Text.lines s) ++ "\n"))

mutual

def displayAt (shell : Bool) : Nat → Value → Read String
  | 0, _ => throw .tooDeep
  | fuel + 1, v =>
    match v with
    | .none => pure "None"
    | .bool b => pure (boolWord b)
    | .int i => pure (toString i)
    | .text s => pure (Text.quoted s)
    | .data d => pure d.display
    | .keys keys => pure (displayKeys keys)
    | .node n => do
      let c ← Read.node n
      if c.kind == .endl || c.kind == .space then return Text.quoted (← textOf v)
      if shell then return ← textOf v
      let keys ← routeKeys v
      return "<" ++ c.kind.className ++ " path=" ++ displayKeys keys ++ ", \"" ++ (← excerpt v) ++
        "\" 0, on " ++ (← className c.parent) ++ " 0>"
    | .list l => do
      let c ← Read.list l
      match c.flavour with
      | .nodes =>
        if shell then plainTextAt shell fuel v
        else
          let keys ← routeKeys v
          return "<NodeList " ++ displayKeys keys ++ ", \"" ++ (← excerpt v) ++ "\" 0, on " ++
            (← className c.parent) ++ " 0>"
      | .tuple =>
        let shown ← c.items.mapM (displayAt shell fuel)
        match shown with
        | [one] => return "(" ++ one ++ ",)"
        | _ => return bracketed "(" ")" shown
      | _ => return bracketed "[" "]" (← c.items.mapM (displayAt shell fuel))
    | .view w => do
      if shell then plainTextAt shell fuel v
      else
        let keys ← routeKeys (← underlying v)
        return "<" ++ (← Read.view w).form.className ++ " " ++ displayKeys keys ++ ", \"" ++
          (← excerpt v) ++ "\" 0, on " ++ (← className (← parentOf v)) ++ " 0>"
    | .pattern s => pure ("re.compile(" ++ String.ofList ((Text.quoted s).toList.take 200) ++ ")")
    | _ => pure "<object>"

/-- The long form of a value: its text, or a table of its items. -/
def plainTextAt (shell : Bool) : Nat → Value → Read String
  | 0, _ => throw .tooDeep
  | fuel + 1, v =>
    match v with
    | .text s => pure s
    | .node _ => textOf v
    | .list l => do
      let c ← Read.list l
      if c.flavour == .nodes then return rows (← c.items.mapM (displayAt shell fuel))
      displayAt shell fuel v
    | .view w => return rows (← (← Read.view w).items.mapM (displayAt shell fuel))
    | v => displayAt shell fuel v

end

def display (shell : Bool) (v : Value) : Read String := do displayAt shell (← Read.depth) v

def plainText (shell : Bool) (v : Value) : Read String := do
  plainTextAt shell (2 * (← Read.depth)) v

end CodeTree
