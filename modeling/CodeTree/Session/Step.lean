import CodeTree.Session.Call
import CodeTree.Session.Report

/-! # Steps

A session is a list of steps on one document. A step says what it is about by a reference, a way of
accesses from the document or from an earlier result, and what is done with it.
-/
namespace CodeTree

mutual

/-- One access on the way of a reference. -/
inductive Access where
  | attr (name : String)
  | index (i : Int)
  | span (s : Span)
  | call (name : String) (given : List Argument) (named : List (String × Argument))

/-- An argument: plain data, a list of arguments, a reference, a pattern or a rule. -/
inductive Argument where
  | plain (d : Datum)
  | list (items : List Argument)
  | tuple (items : List Argument)
  | ref (start : Option String) (way : List Access)
  | pattern (source : String)
  | rule (r : Rule)

end

structure Ref where
  start : Option String
  way : List Access

inductive Action where
  | get
  | set (name : String) (value : Argument)
  | put (spot : Spot) (value : Argument)
  | delete (spot : Spot)
  | length
  | truth
  | iterate
  | contains (value : Argument)
  | display (shell : Bool)
  | plainText (shell : Bool)
  | help (given : List Datum)
  | follow (way : Datum)
  | reword (text : String)
  | newDocument (source : String)
  | newNode (d : Datum)
  | newList (items : List Argument)
  | newView (form : ViewForm) (place : Option String)
  | audit

structure Step where
  on : Ref
  action : Action
  keepAs : Option String

/-- The document of a session and the results kept so far. -/
structure Scope where
  document : Value
  kept : List (String × Value)

namespace Scope

def start (scope : Scope) : Option String → Except Fault Value
  | none => .ok scope.document
  | some name =>
    match scope.kept.lookup name with
    | some v => .ok v
    | none => .error .noKey

def keep (scope : Scope) (name : String) (v : Value) : Scope :=
  { scope with kept := putPair name v scope.kept }

end Scope

/-- Whether a value is a node of the class of a node. -/
def isInstance (v : Value) (n : NodeId) : Read Bool := do
  match v with
  | .node m => return (← Read.node m).classAs m == (← Read.node n).classAs n
  | _ => return false

mutual

def access (scope : Scope) (v : Value) : Access → Edit Value
  | .attr name => attr v name
  | .index i => itemOf v i
  | .span s => spanOf v s
  | .call name given named => do
    let given ← evaluateEach scope given
    let named ← evaluateNamed scope named
    call v name ⟨given, named⟩

/-- Follows accesses. Of the class of a node only its instances can be asked for. -/
def accessAll (scope : Scope) : Value → List Access → Edit Value
  | v, [] => pure v
  | .node n, .attr "__class__" :: .call "__instancecheck__" [given] [] :: rest => do
    let same ← isInstance (← evaluate scope given) n
    accessAll scope (.bool same) rest
  | v, a :: rest => do
    let next ← access scope v a
    accessAll scope next rest

def evaluate (scope : Scope) : Argument → Edit Value
  | .plain d => pure (.ofDatum d)
  | .list items => do newPlain (← evaluateEach scope items)
  | .tuple items => do newTuple (← evaluateEach scope items)
  | .ref start way => do accessAll scope (← Edit.lift (scope.start start)) way
  | .pattern source => do
    let _ ← Edit.lift (Text.Pattern.read source)
    return .pattern source
  | .rule r => pure (.rule r)

def evaluateEach (scope : Scope) : List Argument → Edit (List Value)
  | [] => pure []
  | a :: rest => do
    let first ← evaluate scope a
    let others ← evaluateEach scope rest
    return first :: others

def evaluateNamed (scope : Scope) : List (String × Argument) → Edit (List (String × Value))
  | [] => pure []
  | (name, a) :: rest => do
    let first ← evaluate scope a
    let others ← evaluateNamed scope rest
    return (name, first) :: others

end

def Ref.value (r : Ref) (scope : Scope) : Edit Value := do
  accessAll scope (← Edit.lift (scope.start r.start)) r.way

def newDocument (source : String) : Edit Value := do
  let d ← Edit.parse source
  let w ← Edit.newView ⟨.document, .none, [], none, some .none, none, []⟩
  let l ← buildList d (.view w) (some .root)
  let shown ← lineItems true .none (← Read.list l).items
  Edit.updateList l (fun c => { c with parent := .none })
  Edit.updateView w (fun c => { c with target := .list l, items := shown })
  return .view w

/-- What a step results in: a value, or an audit. -/
inductive Outcome where
  | value (v : Value)
  | audit (entries : List Entry)

def helpFor (v : Value) (given : List Datum) : Edit Value := do
  match v with
  | .node _ | .list _ | .view _ =>
    let (depth, withFormatting) ← Edit.lift (helpArguments (.ofList (given.map .ofDatum)))
    return .text (← helpOutput true v depth (← truth withFormatting))
  | _ => throw .noAttribute

/-- Rewords a node; nothing else can be reworded. -/
def rewordValue (v : Value) (text : String) : Edit Unit := do
  match v with
  | .node n => rewordNode n text
  | _ =>
    let _ ← attr v "edit"
    throw .wrongSort

def Action.run (scope : Scope) (v : Value) : Action → Edit Outcome
  | .get => return .value v
  | .set name value => do
    assign v name (← evaluate scope value)
    return .value .none
  | .put spot value => do
    putAt v spot (← evaluate scope value)
    return .value .none
  | .delete spot => do
    deleteAt v spot
    return .value .none
  | .length => return .value (.int (← lengthOf v))
  | .truth => return .value (.bool (← CodeTree.truth v))
  | .iterate => do return .value (← newPlain (← items v))
  | .contains value => do return .value (.bool (← holds v (← evaluate scope value)))
  | .display shell => return .value (.text (← CodeTree.display shell v))
  | .plainText shell => return .value (.text (← CodeTree.plainText shell v))
  | .help given => return .value (← helpFor v given)
  | .follow way => return .value (← routeFrom v (.ofDatum way))
  | .reword text => do
    rewordValue v text
    return .value .none
  | .newDocument source => return .value (← CodeTree.newDocument source)
  | .newNode d => return .value (.node (← build d .none none))
  | .newList items => do return .value (← newLoose (← evaluateEach scope items))
  | .newView form place => do
    let place := (place.map Attr.ofWord).getD (.field .value)
    return .value (.view (← newViewOf form v (some place)))
  | .audit => return .audit (← CodeTree.audit scope.document)

/-- What a step reports. -/
inductive StepResult where
  | shown (v : Report)
  | audit (entries : List Entry)
  | failed (fault : Fault)

/-- The report of a step, and the text of the document if it is another than before. -/
structure StepReport where
  result : StepResult
  text : Option (Attempt String)

/-- Runs a step; its result is reported and may be kept. -/
def Step.run (step : Step) (scope : Scope) : Edit (StepResult × Scope) := do
  let v ← step.on.value scope
  match ← step.action.run scope v with
  | .audit entries => return (.audit entries, scope)
  | .value result =>
    let shown ← showValue result
    let scope := match step.keepAs with
      | some name => scope.keep name result
      | none => scope
    return (.shown shown, scope)

end CodeTree
