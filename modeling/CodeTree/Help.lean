import CodeTree.Display

/-! # Help

The description of a node: its class, the words it is found by, its fields and, to a given depth,
the nodes below it.
-/
namespace CodeTree

/-- How deep a description goes: a number of levels, or all or none of them. -/
inductive HelpDepth where
  | levels (n : Int)
  | flag (all : Bool)
deriving DecidableEq, Repr

namespace HelpDepth

def isNone : HelpDepth → Bool
  | .levels n => n == 0
  | .flag all => !all

def below : HelpDepth → HelpDepth
  | .levels n => .levels (n - 1)
  | .flag all => .flag all

end HelpDepth

def Field.isFormatting (f : Field) : Bool := f.word.endsWith "formatting"

/-- Questions that only nodes of some kinds answer. -/
def Kind.helpers : Kind → List String
  | .importStmt => ["modules", "names"]
  | .fromImport => ["full_path_modules", "full_path_names", "modules", "names"]
  | _ => []

/-- Computed attributes that help does not ask for. -/
def passedOver : List String := ["index_on_parent", "index_on_parent_raw"]

/-- The helpers of a node. Finding them asks for the computed attributes, and fails where one of
them does. -/
def helpersOf (n : NodeId) : Read (List String) := do
  for (word, _) in nodeProperties do
    if !passedOver.contains word then
      let _ ← attr (.node n) word
  return (← Read.node n).kind.helpers

def helpAt (shell : Bool) : Nat → Value → HelpDepth → Bool → Read String
  | 0, _, _, _ => throw .tooDeep
  | fuel + 1, .node n, depth, withFormatting => do
    let c ← Read.node n
    let head := c.kind.className ++ "()"
    if depth.isNone then return head ++ " ..."
    let inner (margin : String) (v : Value) : Read String := do
      let text ← helpAt shell fuel v depth.below withFormatting
      return Text.stripLeft (Text.indent margin text)
    let texts (wanted : Field → Bool) : Read (List String) :=
      (c.texts.filter (fun f => f != .type && wanted f)).mapM (fun f => do
        return f.word ++ "=" ++ (← display shell (← look n (.field f))))
    let lists (wanted : Field → Bool) : Read (List String) :=
      gather (fun f => do
        let parts ← (← items (← look n (.field f))).mapM (fun v => do
          return "  * " ++ (← inner "      " v))
        return (f.word ++ " ->") :: parts) (c.lists.filter wanted)
    let words ← Read.lift c.identifiers
    let helpers ← helpersOf n
    let plainTexts ← texts (fun f => !f.isFormatting)
    let children ← (c.children.filter (fun f => !f.isFormatting)).mapM (fun f => do
      let child ← look n (.field f)
      let shown ← if ← truth child then inner "    " child else plainText shell child
      return f.word ++ " ->\n    " ++ shown)
    let plainLists ← lists (fun f => !f.isFormatting)
    let formatting ←
      if withFormatting then do
        let a ← texts Field.isFormatting
        let b ← lists Field.isFormatting
        pure (a ++ b)
      else pure []
    let parts := [head, "# identifiers: " ++ String.intercalate ", " words]
      ++ (if helpers.isEmpty then [] else ["# helpers: " ++ String.intercalate ", " helpers])
      ++ (if c.kind.mainAttr == "value" then [] else ["# default test value: " ++ c.kind.mainAttr])
      ++ plainTexts ++ children ++ plainLists ++ formatting
    return String.intercalate "\n  " parts
  | _ + 1, _, _, _ => throw .noAttribute

def helpText (shell : Bool) (v : Value) (depth : HelpDepth) (withFormatting : Bool) : Read String := do
  helpAt shell (← Read.depth) v depth withFormatting

/-- What asking for help writes: a description, or one for each item under its number. -/
def helpOutputAt (shell : Bool) (depth : HelpDepth) (withFormatting : Bool) : Nat → Value → Read String
  | 0, _ => throw .tooDeep
  | fuel + 1, v =>
    match v with
    | .node _ => return (← helpText shell v depth withFormatting) ++ "\n"
    | .list l => do
      let c ← Read.list l
      if c.flavour == .nodes then
        let parts ← c.items.mapM (helpOutputAt shell depth withFormatting fuel)
        return String.join (parts.mapIdx (fun i part =>
          toString i ++ " -----------------------------------------------------\n" ++ part))
      throw .noAttribute
    | .view w => do helpOutputAt shell depth withFormatting fuel (← Read.view w).target
    | _ => throw .noAttribute

def helpOutput (shell : Bool) (v : Value) (depth : HelpDepth) (withFormatting : Bool) :
    Read String := do
  helpOutputAt shell depth withFormatting (← Read.depth) v

/-- The text of a value held by an imported item. -/
def importedText (v : Value) : Read String := do textOf (← attr v "value")

/-- The alias of an imported item, or else the given value. -/
def aliasOr (v : Value) (other : Read Value) : Read Value := do
  let target ← attr v "target"
  if ← truth target then return target
  other

def asText : Value → Read String
  | .text s => pure s
  | _ => throw .wrongSort

def importedModules (n : NodeId) : Read (List Value) := do
  let c ← Read.node n
  if c.kind == .importStmt then
    (← allWith "dotted_as_name" true (.node n)).mapM (fun x => .text <$> importedText x)
  else
    (← items (← attr (.node n) "targets")).mapM (fun x => attr x "value")

def importedNames (n : NodeId) : Read (List Value) := do
  let c ← Read.node n
  if c.kind == .importStmt then
    (← allWith "dotted_as_name" true (.node n)).mapM (fun x =>
      aliasOr x (.text <$> importedText x))
  else
    (← items (← attr (.node n) "targets")).mapM (fun x => aliasOr x (attr x "value"))

/-- Names or modules of an import from a module, with the module in front. -/
def fullPaths (useAlias : Bool) (n : NodeId) : Read (List Value) := do
  (← items (← attr (.node n) "targets")).mapM (fun x => do
    let front ← textOf (← attr (.node n) "value")
    let back ← if useAlias then aliasOr x (attr x "value") else attr x "value"
    return .text (front ++ "." ++ (← asText back)))

end CodeTree
