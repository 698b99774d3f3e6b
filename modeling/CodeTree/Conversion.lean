import CodeTree.Block

/-! # Values from text

What is assigned to a node may be text. The kind of the node and the place say what the text means:
it is put into a small program around that place, and the part that stands there is taken out of the
parser's answer. Some places also set the spacing around them, before the text is parsed.
-/
namespace CodeTree

/-- How a text is parsed for a place: what stands before and after it, and where the answer has the
part. -/
structure Context where
  before : String
  after : String
  keys : List Key

namespace Context

def parse (ctx : Context) (text : String) : Edit Datum :=
  parseWithin ctx.before text ctx.after ctx.keys

end Context

/-- Keys of the answer: positions and field names. -/
def at0 (fields : List Key) : List Key := .index 0 :: fields

def Kind.childContext : Kind → Field → Option Context
  | .argumentGenerator, .result => some ⟨"(", " for x in x)", at0 [.name "result"]⟩
  | .assertStmt, .value => some ⟨"assert ", "", at0 [.name "value"]⟩
  | .assertStmt, .message => some ⟨"assert plop, ", "", at0 [.name "message"]⟩
  | .assignment, .target => some ⟨"", " = a", at0 [.name "target"]⟩
  | .assignment, .value => some ⟨"a = ", "", at0 [.name "value"]⟩
  | .associativeParenthesis, .value => some ⟨"(", ")", at0 [.name "value"]⟩
  | .binaryOperator, .first => some ⟨"", " + b", at0 [.name "first"]⟩
  | .binaryOperator, .second => some ⟨"bb + ", "", at0 [.name "second"]⟩
  | .booleanOperator, .first => some ⟨"", " and b", at0 [.name "first"]⟩
  | .booleanOperator, .second => some ⟨"bb and ", "", at0 [.name "second"]⟩
  | .callArgument, .value =>
    some ⟨"a(", ")", at0 [.name "value", .index 1, .name "value", .index 0, .name "value"]⟩
  | .callArgument, .target =>
    some ⟨"a(", "=b)", at0 [.name "value", .index 1, .name "value", .index 0, .name "target"]⟩
  | .comparison, .first => some ⟨"", " > b", at0 [.name "first"]⟩
  | .comparison, .value => some ⟨"a ", " b", at0 [.name "value"]⟩
  | .comparison, .second => some ⟨"bb > ", "", at0 [.name "second"]⟩
  | .comprehensionIf, .value => some ⟨"[x for x in x if ", "]",
      at0 [.name "generators", .index 0, .name "ifs", .index 0, .name "value"]⟩
  | .comprehensionLoop, .iterator =>
    some ⟨"[x for ", " in x]", at0 [.name "generators", .index 0, .name "iterator"]⟩
  | .comprehensionLoop, .target =>
    some ⟨"[x for s in ", "]", at0 [.name "generators", .index 0, .name "target"]⟩
  | .decorator, .value =>
    some ⟨"@", "()\ndef a(): pass", at0 [.name "decorators", .index 0, .name "value"]⟩
  | .decorator, .call =>
    some ⟨"@a", "\ndef a(): pass", at0 [.name "decorators", .index 0, .name "call"]⟩
  | .defArgument, .value =>
    some ⟨"def a(b=", "): pass", at0 [.name "arguments", .index 0, .name "value"]⟩
  | .defArgument, .target =>
    some ⟨"def a(", "=b): pass", at0 [.name "arguments", .index 0, .name "target"]⟩
  | .delStmt, .value => some ⟨"del ", "", at0 [.name "value"]⟩
  | .dictArgument, .value =>
    some ⟨"a(**", ")", at0 [.name "value", .index 1, .name "value", .index 0, .name "value"]⟩
  | .dictItem, .value => some ⟨"\x7ba: ", "\x7d", at0 [.name "value", .index 0, .name "value"]⟩
  | .dictItem, .key => some ⟨"\x7b", ": a\x7d", at0 [.name "value", .index 0, .name "key"]⟩
  | .dictComprehension, .result => some ⟨"\x7b", " for x in x\x7d", at0 [.name "result"]⟩
  | .elifBranch, .test | .ifBranch, .test =>
    some ⟨"if ", ": pass", at0 [.name "value", .index 0, .name "test"]⟩
  | .exceptBranch, .exception => some ⟨"try: pass\nexcept ", ": pass",
      at0 [.name "excepts", .index 0, .name "exception"]⟩
  | .exceptBranch, .target => some ⟨"try: pass\nexcept a as ", ": pass",
      at0 [.name "excepts", .index 0, .name "target"]⟩
  | .execStmt, .value => some ⟨"exec ", "", at0 [.name "value"]⟩
  | .execStmt, .globals => some ⟨"exec a in ", "", at0 [.name "globals"]⟩
  | .execStmt, .locals => some ⟨"exec a in b, ", "", at0 [.name "locals"]⟩
  | .forLoop, .target => some ⟨"for i in ", ": pass", at0 [.name "target"]⟩
  | .forLoop, .iterator => some ⟨"for ", " in i: pass", at0 [.name "iterator"]⟩
  | .generatorComprehension, .result => some ⟨"(", " for x in x)", at0 [.name "result"]⟩
  | .getitem, .value => some ⟨"a[", "]", at0 [.name "value", .index 1, .name "value"]⟩
  | .lambdaExpr, .value => some ⟨"lambda: ", "", at0 [.name "value"]⟩
  | .listArgument, .value =>
    some ⟨"lambda *", ": x", at0 [.name "arguments", .index 0, .name "value"]⟩
  | .listComprehension, .result => some ⟨"[", " for x in x]", at0 [.name "result"]⟩
  | .printStmt, .destination => some ⟨"print >>", "", at0 [.name "destination"]⟩
  | .raiseStmt, .value => some ⟨"raise ", "", at0 [.name "value"]⟩
  | .raiseStmt, .instanceValue => some ⟨"raise a, ", "", at0 [.name "instance"]⟩
  | .raiseStmt, .traceback => some ⟨"raise a, b, ", "", at0 [.name "traceback"]⟩
  | .returnStmt, .value => some ⟨"return ", "", at0 [.name "value"]⟩
  | .setComprehension, .result => some ⟨"\x7b", " for x in x\x7d", at0 [.name "result"]⟩
  | .slice, .lower =>
    some ⟨"a[", ":]", at0 [.name "value", .index 1, .name "value", .name "lower"]⟩
  | .slice, .upper =>
    some ⟨"a[:", "]", at0 [.name "value", .index 1, .name "value", .name "upper"]⟩
  | .slice, .step =>
    some ⟨"a[::", "]", at0 [.name "value", .index 1, .name "value", .name "step"]⟩
  | .ternaryOperator, .first => some ⟨"", " if b else c", at0 [.name "first"]⟩
  | .ternaryOperator, .second => some ⟨"a if b else ", "", at0 [.name "second"]⟩
  | .ternaryOperator, .value => some ⟨"a if ", " else s", at0 [.name "value"]⟩
  | .unitaryOperator, .target => some ⟨"-", "", at0 [.name "target"]⟩
  | .yieldExpr, .value | .yieldAtom, .value => some ⟨"yield ", "", at0 [.name "value"]⟩
  | .whileLoop, .test => some ⟨"while ", ": pass", at0 [.name "test"]⟩
  | .withContextItem, .value =>
    some ⟨"with ", ": pass", at0 [.name "contexts", .index 0, .name "value"]⟩
  | .withContextItem, .alias =>
    some ⟨"with a as ", ": pass", at0 [.name "contexts", .index 0, .name "as"]⟩
  | _, _ => none

/-- Kinds that take text for a child only where they have a context for it. -/
def Kind.childrenByContext : Kind → Bool
  | .argumentGenerator | .assertStmt | .assignment | .associativeParenthesis | .binaryOperator
  | .booleanOperator | .callArgument | .comparison | .comprehensionIf | .comprehensionLoop
  | .decorator | .defArgument | .delStmt | .dictArgument | .dictItem | .dictComprehension
  | .elifBranch | .exceptBranch | .execStmt | .generatorComprehension | .ifBranch | .lambdaExpr
  | .listArgument | .listComprehension | .printStmt | .raiseStmt | .returnStmt
  | .setComprehension | .slice | .ternaryOperator | .unitaryOperator | .yieldExpr | .yieldAtom
  | .withContextItem => true
  | _ => false

/-- Places where an empty text takes the child away, and what then stands there. -/
def Kind.emptyChild : Kind → Field → Option Value
  | .assertStmt, .message | .decorator, .call | .execStmt, .globals | .execStmt, .locals
  | .raiseStmt, .value | .raiseStmt, .instanceValue | .raiseStmt, .traceback | .returnStmt, .value
  | .slice, .lower | .slice, .upper | .slice, .step | .yieldExpr, .value | .yieldAtom, .value =>
    some .none
  | .callArgument, .value | .callArgument, .target | .defArgument, .value | .defArgument, .target
  | .withContextItem, .alias | .exceptBranch, .exception | .exceptBranch, .target =>
    some (.text "")
  | _, _ => none

/-- The destination of a print statement: a list of values after it begins with a comma. -/
def preparePrint (n : NodeId) (text : String) (parent : Value) (place : Option Attr) :
    Edit Value := do
  let ctx : Context := ⟨"print >>", "", at0 [.name "destination"]⟩
  let held ← attr (.node n) "value"
  let filled ← truth held
  if text != "" && !filled then
    setSpacing n .formatting none true
    return .node (← build (← ctx.parse text) parent place)
  if text != "" then
    setSpacing n .formatting none true
    let result ← build (← ctx.parse text) parent place
    let inside ← items (← attr (← attr (.node n) "value") "node_list")
    match inside with
    | [] => pure ()
    | first :: _ =>
      if !(← hasType first "comma") then
        let comma ← build (.record [("type", .text "comma"), ("first_formatting", .list []),
          ("second_formatting", .list [.record [("type", .text "space"), ("value", .text " ")]])])
          parent place
        let shown ← items (← attr (.node n) "value")
        let l ← newLooseList (.node comma :: shown)
        storeList n .value (.list l)
    return .node result
  let inside ← items (← attr held "node_list")
  match inside with
  | first :: rest =>
    if ← hasType first "comma" then
      setSpacing n .formatting none true
      let l ← newLooseList rest
      storeList n .value (.list l)
      return .none
    setSpacing n .formatting none false
    return .none
  | [] =>
    setSpacing n .formatting none false
    return .none

/-- What has to hold, and the spacing that is set, before a child is taken from text. -/
def prepareChild (n : NodeId) (kind : Kind) (f : Field) (filled : Bool) : Edit Unit := do
  let requires (field : Field) (why : Refusal) : Edit Unit := do
    if !(← truth (← look n (.field field))) then throw (.refused why)
  let delimit (word : String) : Edit Unit := do
    let v ← prepareStore n kind (.field .delimiter) (.text word)
    putAttr n (.field .delimiter) v
  match kind, f with
  | .assertStmt, .message =>
    if filled then setSpacing n .thirdFormatting none true
  | .exceptBranch, .exception =>
    if filled then setSpacing n .firstFormatting none true
    else
      setSpacing n .firstFormatting none false
      delimit ""
      requires .exception .targetWithoutException
      delimit ""
      setSpacing n .secondFormatting none false
      setSpacing n .thirdFormatting none false
      putAttr n (.field .target) (.text "")
  | .exceptBranch, .target =>
    requires .exception .targetWithoutException
    if filled then
      delimit "as"
      setSpacing n .secondFormatting none true
      setSpacing n .thirdFormatting none true
    else
      delimit ""
      setSpacing n .secondFormatting none false
      setSpacing n .thirdFormatting none false
  | .execStmt, .globals =>
    if filled then
      setSpacing n .secondFormatting none true
      setSpacing n .thirdFormatting none true
  | .execStmt, .locals =>
    requires .globals .localsWithoutGlobals
    if filled then setSpacing n .fifthFormatting none true
  | .raiseStmt, .value => setSpacing n .firstFormatting none filled
  | .raiseStmt, .instanceValue =>
    requires .value .instanceWithoutValue
    if filled then setSpacing n .thirdFormatting none true
  | .raiseStmt, .traceback =>
    requires .instanceValue .tracebackWithoutInstance
    if filled then setSpacing n .fifthFormatting none true
  | .returnStmt, .value | .yieldExpr, .value => setSpacing n .formatting none filled
  | .yieldAtom, .value => setSpacing n .secondFormatting none filled
  | .slice, .step => putAttr n (.field .hasTwoColons) (.bool filled)
  | .withContextItem, .alias =>
    setSpacing n .firstFormatting none filled
    setSpacing n .secondFormatting none filled
  | _, _ => pure ()

def firstOf (text : String) (parent : Value) (place : Option Attr) : Edit Value := do
  return .node (← build (← parseWithin "" text "" [.index 0]) parent place)

def allOf (text : String) (parent : Value) (place : Option Attr) : Edit ListId := do
  buildList (← Edit.parse text) parent place

/-- The child that a text stands for at a place of a node. -/
def childOfText (n : NodeId) (text : String) (parent : Value) (place : Option Attr) :
    Edit Value := do
  let kind := (← Read.node n).kind
  match kind, place with
  | .printStmt, some (.field .destination) => preparePrint n text parent place
  | .tryStmt, some (.field .finallyBranch) => branchOf n "finally" text parent place
  | .tryStmt, some (.field .elseBranch) | .forLoop, some (.field .elseBranch)
  | .whileLoop, some (.field .elseBranch) => branchOf n "else" text parent place
  | _, some (.field f) =>
    match kind.childContext f with
    | some ctx =>
      prepareChild n kind f (text != "")
      match (if text == "" then kind.emptyChild f else none) with
      | some v => return v
      | none => return .node (← build (← ctx.parse text) parent place)
    | none =>
      if kind == .getitem then return .none
      else if kind.childrenByContext then throw (.refused .unhandled)
      else firstOf text parent place
  | _, _ =>
    if kind == .getitem then return .none
    else if kind.childrenByContext then throw (.refused .unhandled)
    else firstOf text parent place

def Kind.listContext : Kind → Field → Option Context
  | .argumentGenerator, .generators => some ⟨"(x ", ")", at0 [.name "generators"]⟩
  | .atomTrailers, .value => some ⟨"(", ")", at0 [.name "value", .name "value"]⟩
  | .call, .value => some ⟨"a(", ")", at0 [.name "value", .index 1, .name "value"]⟩
  | .classDef, .inheritFrom => some ⟨"class a(", "): pass", at0 [.name "inherit_from"]⟩
  | .comprehensionLoop, .ifs =>
    some ⟨"[x for x in x ", "]", at0 [.name "generators", .index 0, .name "ifs"]⟩
  | .dictComprehension, .generators => some ⟨"\x7bx ", "\x7d", at0 [.name "generators"]⟩
  | .dottedAsName, .value =>
    some ⟨"import ", "", at0 [.name "value", .index 0, .name "value"]⟩
  | .fromImport, .targets => some ⟨"from a import ", "", at0 [.name "targets"]⟩
  | .fromImport, .value => some ⟨"from ", " import s", at0 [.name "value"]⟩
  | .funcDef, .arguments => some ⟨"def a(", "): pass", at0 [.name "arguments"]⟩
  | .generatorComprehension, .generators => some ⟨"(x ", ")", at0 [.name "generators"]⟩
  | .globalStmt, .value => some ⟨"global ", "", at0 [.name "value"]⟩
  | .lambdaExpr, .arguments => some ⟨"lambda ", ": x", at0 [.name "arguments"]⟩
  | .listComprehension, .generators => some ⟨"[x ", "]", at0 [.name "generators"]⟩
  | .setComprehension, .generators => some ⟨"\x7bx ", "\x7d", at0 [.name "generators"]⟩
  | .stringChain, .value => some ⟨"a = ", "", at0 [.name "value", .name "value"]⟩
  | .withStmt, .contexts => some ⟨"with ", ": pass", at0 [.name "contexts"]⟩
  | _, _ => none

/-- Where a kind takes the text of any list from, whatever the place. -/
def Kind.anyListContext : Kind → Option Context
  | .dict | .set => some ⟨"\x7b", "\x7d", at0 [.name "value"]⟩
  | .importStmt => some ⟨"import ", "", at0 [.name "value"]⟩
  | .list => some ⟨"[", "]", at0 [.name "value"]⟩
  | .reprExpr => some ⟨"`", "`", at0 [.name "value"]⟩
  | _ => none

/-- What a kind does with the text of a list where it has no context for it. -/
def Kind.otherLists : Kind → Except Fault Unit
  | .argumentGenerator | .atomTrailers | .call | .dictComprehension | .dottedAsName | .fromImport
  | .generatorComprehension | .globalStmt | .listComprehension | .printStmt | .setComprehension
  | .stringChain => .error (.refused .unhandled)
  | .comprehensionLoop | .lambdaExpr => .error .wrongSort
  | _ => .ok ()

/-- Adds the line ends that the successor of a node asks for. -/
def withGap (n : NodeId) (text : String) : Read String := do
  let ended := Text.stripRight text ++ "\n"
  if ← truth (← nextOf n) then
    if (← Read.node n).place = some .root then return ended ++ "\n\n"
    return ended ++ "\n"
  return ended

def conditionOf (n : NodeId) (text : String) (parent : Value) (place : Option Attr) :
    Edit ListId := do
  let whole ← withGap n text
  let margin := leadingSpaces (dropBlankLine whole)
  let whole := if margin = 0 then whole else cutLines margin whole
  let l ← buildList (← parseWithin "" whole "" (at0 [.name "value"])) parent place
  let indent ← indentOf n
  if ← truth indent then
    let inside := (← Read.list l).items
    shiftLines (.more (.int (← lengthOf indent))) inside
    if ← truth (← nextOf n) then
      match inside.getLast? with
      | some last => setIndent (← lastOfBody last) indent
      | none => throw .outOfRange
  return l

def handlersOf (n : NodeId) (text : String) (parent : Value) (place : Option Attr) :
    Edit ListId := do
  let margin := leadingSpaces (dropBlankLine text)
  let cut := if margin = 0 then text else cutLines margin text
  let whole ← withGap n cut
  let d ← parseWithin "try:\n pass\n" whole "finally:\n pass" (at0 [.name "excepts"])
  let l ← buildList d parent place
  let indent ← indentOf n
  if ← truth indent then
    let inside := (← Read.list l).items
    shiftLines (.more (.int (← lengthOf indent))) inside
    let ownsEnd ← if !(← hasType (← lastMember n) "except") then pure true
      else truth (← nextOf n)
    if ownsEnd then
      match inside.getLast? with
      | some last => setIndent (← lastOfBody last) indent
      | none => throw .outOfRange
  return l

/-- The list that a text stands for at a place of a node. -/
def listOfText (n : NodeId) (text : String) (parent : Value) (place : Option Attr) :
    Edit ListId := do
  let kind := (← Read.node n).kind
  match kind.anyListContext with
  | some ctx => buildList (← ctx.parse text) parent place
  | none =>
    match kind, place with
    | .tuple, _ => do
      let d ← parseWithin "(" text ")" (at0 [.name "value"])
      match d with
      | .list _ => buildList d parent place
      | _ => buildList (← parseWithin "(" text ",)" (at0 [.name "value"])) parent place
    | .ifElseBlock, some (.field .value) => conditionOf n text parent place
    | .tryStmt, some (.field .excepts) => handlersOf n text parent place
    | .classDef, some (.field .decorators) | .funcDef, some (.field .decorators) =>
      decoratorsOf (.node n) text parent place
    | .printStmt, some (.field .value) => do
      let toFile ← truth (← look n (.field .destination))
      if text != "" then
        setSpacing n .formatting none true
        let before := if toFile then "print >>a, " else "print "
        buildList (← parseWithin before text "" (at0 [.name "value"])) parent place
      else
        setSpacing n .formatting none toFile
        newLooseList []
    | kind, some (.field f) => do
      match kind.listContext f with
      | some ctx =>
        if kind == .classDef then putAttr n (.field .parenthesis) (.bool (text != ""))
        if kind == .lambdaExpr then setSpacing n .firstFormatting none (text != "")
        buildList (← ctx.parse text) parent place
      | none =>
        if kind.hasBlock then
          if f == .value then blockOf n text parent place
          else if f.word.endsWith "_formatting" then allOf text parent place
          else throw (.refused .unhandled)
        else
          Edit.lift kind.otherLists
          allOf text parent place
    | kind, some (.other word) => do
      if kind.hasBlock then
        if word.endsWith "_formatting" then allOf text parent place
        else throw (.refused .unhandled)
      else
        Edit.lift kind.otherLists
        allOf text parent place
    | kind, none => do
      if kind.hasBlock then throw .noAttribute
      Edit.lift kind.otherLists
      allOf text parent place

/-- The node that a value stands for; `ofText` says what text means. -/
def nodeFrom (ofText : String → Value → Option Attr → Edit Value) (v parent : Value)
    (place : Option Attr) : Edit Value := do
  match v with
  | .text s => ofText s parent place
  | .data (.record fields) => return .node (← build (.record fields) parent place)
  | .node _ =>
    setHolder v parent place
    return v
  | _ => throw .wrongSort

def nodesFrom (ofText : String → Value → Option Attr → Edit Value) (parent : Value)
    (place : Option Attr) : List Value → Edit (List Value)
  | [] => pure []
  | v :: rest => do
    let first ← nodeFrom ofText v parent place
    let others ← nodesFrom ofText parent place rest
    return first :: others

/-- The list of nodes that a value stands for. Lists of nodes and views stand for themselves. -/
def listFrom (ofText : String → Value → Option Attr → Edit Value)
    (listOfText : String → Value → Option Attr → Edit ListId) (v parent : Value)
    (place : Option Attr) : Edit Value := do
  match v with
  | .text s => return .list (← listOfText s parent place)
  | .data (.record fields) =>
    let n ← build (.record fields) parent place
    return .list (← newLooseList [.node n])
  | .data (.list ds) =>
    return .list (← newLooseList (← nodesFrom ofText parent place (ds.map Value.ofDatum)))
  | .keys ks =>
    return .list (← newLooseList (← nodesFrom ofText parent place (ks.map Key.toValue)))
  | .node _ =>
    setHolder v parent place
    return .list (← newLooseList [v])
  | .view w =>
    setHolders parent place (← Read.view w).items
    return v
  | .list l =>
    let c ← Read.list l
    match c.flavour with
    | .nodes =>
      setHolders parent place c.items
      return v
    | .plain => return .list (← newLooseList (← nodesFrom ofText parent place c.items))
    | _ => throw .wrongSort
  | _ => throw .wrongSort

/-- The child that a value stands for at a place of a node. -/
def childFrom (n : NodeId) (v parent : Value) (place : Option Attr) : Edit Value :=
  nodeFrom (childOfText n) v parent place

/-- The node that a value stands for where nothing is known of its place. -/
def plainNodeFrom (v parent : Value) (place : Option Attr) : Edit Value :=
  nodeFrom firstOf v parent place

/-- The list that a value stands for, by the rules of what is to hold it. -/
def listFor (receiver v parent : Value) (place : Option Attr) : Edit Value := do
  match receiver with
  | .node n => listFrom (childOfText n) (listOfText n) v parent place
  | .list l =>
    if (← Read.list l).flavour == .nodes then listFrom firstOf allOf v parent place
    else throw .noAttribute
  | .view w =>
    if (← Read.view w).form == .document then
      listFrom firstOf allOf v receiver (some .root)
    else throw .noAttribute
  | _ => throw .noAttribute

end CodeTree
