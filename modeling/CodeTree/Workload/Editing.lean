import CodeTree.Workload.Script

/-! # Workloads that edit

Editing the items of lists in all forms, assigning every attribute that takes text, and moving nodes
about.
-/
namespace CodeTree.Workload

/-- Edits lists between brackets, flat and over several lines. -/
def editCommas (source : String) : Edit Report := do
  let document ← newDocument source
  let holder (i : Int) : Edit Value := do return ← attr (← item document i) "value"
  let a ← holder 0
  let inside ← attr a "value"
  tell inside "append" [.text "99"]
  tell inside "insert" [.int 0, .text "100"]
  tell inside "append" [.text "200, 201"]
  putAt inside (.index 0) (.text "55")
  putAt inside (.index (-1)) (.text "56")
  putAt inside (.span ⟨some 0, some 1⟩) (← textList ["57", "58"])
  tell inside "pop" [.int 0]
  tell inside "pop" []
  tell inside "remove" [← item inside 0]
  assign a "value" (.text "1, 2, 3")
  let b ← holder 1
  tell (← attr b "value") "append" [.text "99"]
  tell (← attr b "value") "pop" []
  let c ← holder 2
  assign c "value" (.text "1")
  assign c "value" (.text "1, 2")
  let d ← holder 3
  assign d "value" (.text "'x': 1, 'y': 2")
  let e ← holder 4
  tell (← attr e "value") "append" [.text "4"]
  tell (← attr e "value") "pop" [.int 0]
  return .list [
    ← (lengthReport (← along a ["value", "node_list"]) : Edit Report),
    ← (lengthReport (← attr d "value") : Edit Report),
    textReport (← textOf b),
    textReport (← textOf e)]

def editDots (source : String) : Edit Report := do
  let document ← newDocument source
  let expression ← attr (← item document 0) "value"
  let parts ← attr expression "value"
  tell parts "append" [.text "tail"]
  tell parts "insert" [.int 1, .text "inserted"]
  tell parts "append" [.text "(1, 2)"]
  tell parts "append" [.text "[0]"]
  tell parts "pop" []
  tell parts "pop" [.int 1]
  assign expression "value" (.text "p.q.r")
  let imported ← item document 1
  let module_ ← first imported "dotted_as_name"
  tell (← attr module_ "value") "append" [.text "extra"]
  assign module_ "value" (.text "x.y.z")
  assign module_ "target" (.text "renamed")
  return .list [
    ← (lengthReport (← along expression ["value", "node_list"]) : Edit Report),
    textReport (← textOf imported)]

/-- Edits lines, decorators and bases of a class and its method. -/
def editLines (source : String) : Edit Report := do
  let document ← newDocument source
  let class_ ← first document "class"
  let method ← ask document "find" (texts ["def", "outer"])
  assign class_ "decorators" (.text "@klass")
  assign class_ "inherit_from" (.text "")
  assign class_ "inherit_from" (.text "Base, object")
  tell (← attr class_ "inherit_from") "append" [.text "Mixin"]
  assign method "arguments" (.text "self, x, y=1, *a, **k")
  assign method "decorators" (.text "@one\n@two")
  tell (← attr method "decorators") "append" [.text "@three"]
  tell (← attr method "decorators") "pop" [.int 0]
  assign method "value" (.text "a = 1\nb = 2")
  assign method "value" (.text "          a = 1\n          b = 2\n")
  tell (← attr method "value") "append" [.text "x = 1"]
  tell (← attr method "value") "insert" [.int 0, .text "x = 1"]
  tell document "append" [.text "tail = 0"]
  tell document "insert" [.int 1, .text "w = 1"]
  let types ← (← items (← attr document "node_list")).mapM (fun v => (typeReport v : Edit Report))
  return .list [.list types, ← (lengthReport (← attr method "value") : Edit Report)]

/-- The text that each attribute is set to, on the first node with a word. -/
def settings : List (String × String × String) := [
  ("assert", "value", "cond"), ("assert", "message", "'m'"),
  ("assignment", "target", "new_target"), ("assignment", "value", "1 + 2"),
  ("assignment", "operator", "+="), ("assignment", "operator", "="),
  ("unitary_operator", "target", "t"),
  ("associative_parenthesis", "value", "x"),
  ("binary_operator", "value", "*"), ("binary_operator", "first", "left"),
  ("binary_operator", "second", "right"),
  ("boolean_operator", "value", "or"), ("boolean_operator", "first", "l"),
  ("boolean_operator", "second", "r"),
  ("comparison", "value", "<="), ("comparison", "first", "aa"), ("comparison", "second", "bb"),
  ("comprehension_if", "value", "True"),
  ("list_comprehension", "result", "x"), ("list_comprehension", "generators", "for x in y"),
  ("comprehension_loop", "iterator", "j"), ("comprehension_loop", "target", "seq"),
  ("comprehension_loop", "ifs", "if j"),
  ("argument_generator_comprehension", "result", "x"),
  ("argument_generator_comprehension", "generators", "for x in y"),
  ("generator_comprehension", "result", "x"),
  ("generator_comprehension", "generators", "for x in y"),
  ("set_comprehension", "result", "x"), ("set_comprehension", "generators", "for x in y"),
  ("dict_comprehension", "result", "k: v"), ("dict_comprehension", "generators", "for k in it"),
  ("binary", "value", "0b11"),
  ("call", "value", "1, key=2"), ("call_argument", "value", "vv"), ("call_argument", "target", "kk"),
  ("decorator", "value", "pkg.mod"), ("decorator", "call", "(1, 2)"),
  ("def_argument", "value", "3"), ("def_argument", "target", "nm"),
  ("list_argument", "value", "rest"), ("dict_argument", "value", "mapping"),
  ("del", "value", "target"),
  ("dictitem", "value", "'v'"), ("dictitem", "key", "'k'"),
  ("slice", "lower", "0"), ("slice", "upper", "10"), ("slice", "step", "2"),
  ("getitem", "value", "1"), ("atomtrailers", "value", "p.q"),
  ("except", "exception", "TypeError"), ("except", "target", "err"),
  ("except", "delimiter", ","), ("except", "delimiter", "as"),
  ("exec", "value", "code"), ("exec", "globals", "g"), ("exec", "locals", "l"),
  ("for", "target", "seq"), ("for", "iterator", "j"), ("for", "else_", "else:\n  pass"),
  ("global", "value", "aa, bb"),
  ("if", "test", "cond"), ("elif", "test", "True"),
  ("ifelseblock", "value", "if a:\n    pass"),
  ("ifelseblock", "value", "if a:\n    pass\nelif b:\n    pass\nelse:\n    pass"),
  ("lambda", "arguments", "p, q=1"), ("lambda", "value", "body"),
  ("print", "destination", ""), ("print", "value", "1, 2"), ("print", "destination", "sink"),
  ("raise", "value", "Exc"), ("raise", "instance", "inst"), ("raise", "traceback", "tb"),
  ("repr", "value", "v"), ("return", "value", "res"), ("string_chain", "value", "'a' 'b'"),
  ("ternary_operator", "first", "a"), ("ternary_operator", "second", "b"),
  ("ternary_operator", "value", "cond"),
  ("yield", "value", "v"), ("while", "test", "True"), ("while", "value", "pass"),
  ("while", "else_", "else:\n    pass"),
  ("with_context_item", "value", "mgr"), ("with_context_item", "as_", "nm"),
  ("with", "contexts", "a as b, c"),
  ("try", "excepts", "except A:\n    pass\nexcept B:\n    pass"),
  ("try", "else_", "else:\n    pass"), ("try", "finally_", "finally:\n    pass"),
  ("from_import", "value", "pkg.mod"), ("from_import", "targets", "a, b as c"),
  ("import", "value", "os, sys as s")]

def setAll (document : Value) : List (String × String × String) → Edit Unit
  | [] => pure ()
  | (word, name, text) :: rest => do
    assign (← first document word) name (.text text)
    setAll document rest

def setOnce (source generator : String) : Edit (List Report) := do
  let document ← newDocument source
  setAll document settings
  assign (← first (← newDocument generator) "yield_atom") "value" (.text "z")
  let from_ ← first document "from_import"
  let import_ ← first document "import"
  let answers ← [(from_, "names"), (from_, "modules"), (from_, "full_path_names"),
    (from_, "full_path_modules"), (import_, "modules"), (import_, "names")].mapM
    (fun (v, name) => do return ← showValue (← ask v name []))
  let try_ ← first document "try"
  let last ← typeReport (← attr try_ "finally_")
  assign try_ "finally_" (.text "")
  return answers ++ [last, ← showValue (← attr try_ "finally_"),
    countReport (← count document (byWord "name"))]

/-- Sets attributes in several rounds, each on a new tree. -/
def setAttributes (source generator : String) : Nat → Edit (List Report)
  | 0 => pure []
  | rounds + 1 => do
    let first ← setOnce source generator
    let others ← setAttributes source generator rounds
    return first ++ others

/-- Maps over nodes, copies and replaces them, and puts others beside them. -/
def moveNodes (source : String) : Edit Report := do
  let document ← newDocument source
  let names ← ask document "find_all" [.text "name"]
  let long ← (← items names).filterM (fun v => do
    return decide ((← lengthOf (← attr v "value")) > 1))
  let reading (sort : RuleSort) (name : String) : Value := .rule ⟨sort, name, .null⟩
  let values ← ask names "map" [reading .attr "value"]
  let same ← ask names "apply" [reading .text ""]
  let copied ← ask names "copy" []
  let method ← first document "def"
  let body ← attr method "value"
  let size ← lengthReport body
  let statement ← item body 0
  let before ← typeReport statement
  tell statement "replace" [.text "swapped = 1"]
  let after ← typeReport statement
  let holder ← typeReport (← attr statement "parent")
  tell (← item body 1) "replace" [.text "other = 2"]
  let second ← typeReport (← item body 1)
  tell statement "insert_before" [.text "q = 1"]
  tell statement "insert_after" [.text "r = 1"]
  let name ← item copied 0
  let kept ← typeReport name
  tell name "replace" [.text "zz"]
  let replaced ← typeReport name
  putAt copied (.index 0) (.text "x")
  let put ← typeReport (← item copied 0)
  return .list [
    ← (lengthReport names : Edit Report), countReport long.length,
    ← (lengthReport values : Edit Report), ← (lengthReport same : Edit Report),
    ← (lengthReport copied : Edit Report), size,
    before, after, holder, second,
    ← (do showValue (← attr names "next") : Read Report),
    ← (do showValue (← attr names "previous") : Read Report),
    ← (do showValue (← attr names "parent") : Read Report),
    ← (do showValue (← attr names "on_attribute") : Read Report),
    ← (showValue (← ask statement "parent_find" [.text "nope"]) : Edit Report),
    kept, replaced, put,
    ← (do showValue (← attr statement "index_on_parent") : Read Report),
    ← (lengthReport statement : Edit Report),
    ← (lengthReport (← ask statement "find_all" [.text "int"]) : Edit Report),
    ← (lengthReport (← ask statement "find_all" [.text "re:^(name|int)$"]) : Edit Report)]

end CodeTree.Workload
