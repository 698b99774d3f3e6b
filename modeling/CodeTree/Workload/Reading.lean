import CodeTree.Text.Excerpt
import CodeTree.Terminal
import CodeTree.Workload.Script

/-! # Workloads that read

Building trees, searching them and describing them.
-/
namespace CodeTree.Workload

/-- The types of the nodes of a document and the number of names in it. -/
def buildTree (source : String) : Edit Report := do
  let document ← newDocument source
  let members ← attr document "node_list"
  let types ← (← items members).mapM (fun v => (typeReport v : Edit Report))
  let names ← count document (byWord "name")
  return .list [← lengthReport members, .list (types ++ [countReport names])]

/-- Asks for nodes in all the ways that a query can be put. -/
def searchTree (document : Value) : Edit Report := do
  let named (pattern : Value) : Edit Report :=
    return countReport (← count document (byValue "name" pattern))
  let both := texts ["x", "y"]
  let method ← ask document "find" (texts ["def", "method"])
  return .list [
    countReport (← count document (byWord "name")),
    ← named (.text "x"),
    ← named (.pattern "^[xy]$"),
    ← named (.text "g:zz*"),
    ← named (← newPlain both),
    ← named (← newTuple both),
    countReport (← findAll ⟨.text "name", [.text "b"], []⟩ true document).length,
    ← typeReport method,
    ← showValue (← ask document "find" (texts ["def", "nope"])),
    countReport (← count document (byWord "nope")),
    ← typeReport (← first document "name"),
    ← typeReport (← ask method "parent_find" [.text "class"]),
    ← showValue (← ask method "parent_find" [.text "nope"]),
    countReport (← count document (byWord "int")),
    ← typeReport (← first document "int"),
    countReport (← count document (byWord "g:*name*")),
    ← showValue (← attr (← findFirst (byValue "name" (.text "x")) true document) "value"),
    ← showValue (← findFirst (byWord "int") false method),
    ← typeReport (← findFirst ⟨← newPlain (texts ["int", "float"]), [], []⟩ true document)]

def helpLength (v : Value) (depth : HelpDepth) (withFormatting : Bool) : Read Report :=
  return countReport (← helpText false v depth withFormatting).length

/-- Describes nodes, and writes a tree as plain data. -/
def describeTree (document function statement : Value) : Edit Report := do
  let _ ← ask (← first document "class") "fst" []
  let members ← attr document "node_list"
  let words ← gather (fun v => do
    return [← typeReport v, ← (lengthReport (← ask v "_generate_identifiers" []) : Read Report)])
    (← items members)
  return .list (words ++ [
    ← helpLength function (.levels 1) true,
    ← helpLength function (.flag true) false,
    ← helpLength function (.levels 0) false,
    ← helpLength statement (.levels 1) false,
    ← lengthReport (.data (← snapshot members)),
    textReport (Text.truncate "abcdefghijklmnop" 8),
    textReport (Text.truncate "abc" 8),
    textReport (Text.indent "  " "a\nb\nc"),
    .plain (.bool (Output.interactive .pipe)),
    .plain (.bool (colourful true false))])

end CodeTree.Workload
