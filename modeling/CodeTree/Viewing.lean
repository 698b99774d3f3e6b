import CodeTree.Holding

/-! # Views

A view shows the items of a list without the nodes that separate them. This module says which lists
nodes hold through views, and makes new views.
-/
namespace CodeTree

def Kind.separates : Kind → Bool
  | .endl | .comma | .dot => true
  | _ => false

def separates : Value → Read Bool
  | .node n => return (← Read.node n).kind.separates
  | _ => pure false

def withoutSeparators : List Value → Read (List Value)
  | [] => pure []
  | v :: rest => do
    let others ← withoutSeparators rest
    return if ← separates v then others else v :: others

/-- The items of a list of nodes that do not separate others. -/
def significantIn : Value → Read (List Value)
  | .list l => do
    let c ← Read.list l
    if c.flavour == .nodes then withoutSeparators c.items else throw .noAttribute
  | _ => throw .noAttribute

/-- The items of a list, as a new view of it takes them. A node passes the question on to the view
that it holds as its value. -/
def significant (v : Value) : Read (List Value) := do
  match ← underlying v with
  | .node n =>
    match ← Read.orElseMissing (look n (.field .value)) (pure .none) with
    | .view w => significantIn (← underlying (.view w))
    | _ => throw .wrongSort
  | other => significantIn other

/-- The items of a list of lines: what is no line end, and of each run of line ends all but the
last. `leading` says whether a line end in first place counts as a blank line. -/
def lineItems (leading : Bool) (previous : Value) : List Value → Read (List Value)
  | [] => pure []
  | v :: rest => do
    if !(← hasType v "endl") then return v :: (← lineItems leading v rest)
    let blank ← if ← truth previous then hasType previous "endl" else pure false
    if blank then return previous :: (← lineItems leading v rest)
    if leading && previous.isNone then return v :: (← lineItems leading v rest)
    lineItems leading v rest

/-- Whether some comma of a list is followed by a line end. -/
def isIndented (v : Value) : Read Bool := do
  let commas ← allWith "comma" false v
  let ends ← commas.mapM (allWith "endl" true)
  return ends.any (fun found => !found.isEmpty)

def newViewOf (form : ViewForm) (target : Value) (place : Option Attr) : Edit ViewId := do
  let shown ← significant target
  let style ← if form == .comma then do
      let indented ← isIndented target
      pure (some (Value.text (if indented then "indented" else "flat")))
    else pure none
  let shown ← if form.lineBased then do lineItems false .none (← items target) else pure shown
  Edit.newView ⟨form, target, shown, place, none, style, []⟩

def Kind.hasBlock : Kind → Bool
  | .classDef | .funcDef | .ifBranch | .elifBranch | .elseBranch | .exceptBranch | .finallyBranch
  | .withStmt | .forLoop | .whileLoop | .tryStmt => true
  | _ => false

/-- The form of view through which a kind holds a field. -/
def Kind.viewForm (k : Kind) (f : Field) : Option ViewForm :=
  if k.hasBlock && f == .value then some .lines
  else if k.hasBlock && f == .decorators then some .decorators
  else
    match k, f with
    | .call, .value | .dict, .value | .globalStmt, .value | .importStmt, .value | .list, .value
    | .printStmt, .value | .reprExpr, .value | .set, .value | .tuple, .value
    | .classDef, .inheritFrom | .funcDef, .arguments | .lambdaExpr, .arguments
    | .fromImport, .targets | .withStmt, .contexts => some .comma
    | .atomTrailers, .value | .dottedAsName, .value | .fromImport, .value => some .dotted
    | _, _ => none

/-- Whether a view of one form serves where another is asked for. -/
def ViewForm.serves (have_ wanted : ViewForm) : Bool :=
  match wanted with
  | .lines | .decorators => have_.lineBased
  | wanted => have_ == wanted

/-- Puts a view around what a node holds under a field, if its kind holds it through one. -/
def wrapHeld (n : NodeId) (a : Attr) : Edit Unit := do
  let c ← Read.node n
  match a with
  | .other _ => pure ()
  | .field f =>
    match c.kind.viewForm f with
    | none => pure ()
    | some form =>
      let heldValue ← look n a
      let serves ← match heldValue with
        | .view w => do
          let view ← Read.view w
          pure (view.form.serves form)
        | _ => pure false
      if serves then pure ()
      else
        let w ← newViewOf form heldValue (some a)
        if !c.building && c.lists.contains f then
          setHolders (.node n) (some a) (← Read.view w).items
        putAttr n a (.view w)

end CodeTree
