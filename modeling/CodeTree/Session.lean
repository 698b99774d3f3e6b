import CodeTree.Session.Step

/-! # Sessions

A session makes a document from a text and runs steps on it. After every step, also one that failed,
the text of the document is reported if it has changed since it was last reported.
-/
namespace CodeTree

structure SessionReport where
  text : Attempt String
  steps : List StepReport

/-- Two attempts that gave the same text or failed in the same way. -/
def sameAttempt (a b : Attempt String) : Bool :=
  match a, b with
  | .ok s, .ok t => s == t
  | .error f, .error g => f == g
  | _, _ => false

/-- Runs the steps one after the other. Only a text that the parser has no answer for ends the
session early. -/
def runSteps (parser : Parser) :
    List Step → Store → Scope → Attempt String → Except Fault (List StepReport)
  | [], _, _, _ => .ok []
  | step :: rest, store, scope, last => do
    let (result, store, scope) ←
      match step.run scope parser store with
      | .ok (result, scope) store => pure (result, store, scope)
      | .error (.unanswered text) _ => throw (.unanswered text)
      | .error fault store => pure (.failed fault, store, scope)
    let text : Attempt String := textOf scope.document store
    if sameAttempt text last then
      let others ← runSteps parser rest store scope last
      return ⟨result, none⟩ :: others
    else
      let others ← runSteps parser rest store scope text
      return ⟨result, some text⟩ :: others

/-- Runs a session. It fails as a whole if the document cannot be made. -/
def runSession (parser : Parser) (source : String) (steps : List Step) :
    Except Fault SessionReport := do
  match newDocument source parser Store.empty with
  | .error fault _ => throw fault
  | .ok document store =>
    let text : Attempt String := textOf document store
    let reports ← runSteps parser steps store ⟨document, []⟩ text
    return ⟨text, reports⟩

end CodeTree
