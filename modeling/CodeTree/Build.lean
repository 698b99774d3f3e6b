import CodeTree.Compare
import CodeTree.Snapshot
import CodeTree.Text.Integer
import CodeTree.Viewing

/-! # Building nodes

A node is built from a record of plain data: its kind comes from the type that the record names, and
its fields are filled in the order of the layout. Some fields are checked or put in order when they
are stored, while a node is built as well as later.
-/
namespace CodeTree

/-- A name: a letter or underscore, then word characters. A final line end is let pass. -/
def isName (s : String) : Bool :=
  match s.toList with
  | [] => false
  | c :: rest =>
    let more := rest.dropWhile Text.isWord
    (c.isAlpha || c == '_') && (more.isEmpty || more == ['\n'])

/-- The operator of an assignment is stored without its equals sign. -/
def assignmentOperator (v : Value) : Read Value := do
  match v with
  | .text s =>
    match s.toList with
    | [] => return v
    | [c] => return if c == '=' then .text "" else v
    | [c, d] => return if d == '=' then .text (String.singleton c) else v
    | _ => throw (.refused .operatorLength)
  | _ =>
    if (← lengthOf v) ≤ 2 then return v
    throw (.refused .operatorLength)

/-- An alias, or the name it stands for, is a name or empty. -/
def checkName (why : Refusal) (v : Value) : Read Unit := do
  match v with
  | .text s => if isName s || s == "" then return () else throw (.refused why)
  | _ => throw .wrongSort

/-- The parser has to take a text for something of the given type. -/
def confirm (text type : String) : Edit Unit := do
  let answer ← Edit.parse text
  let found ← Edit.lift (answer.follow [.index 0, .name "type"])
  if found.same (.text type) then pure () else throw .unconfirmed

/-- What storing an attribute does first: values are put in order or checked, and the spacing that
goes with them is set. -/
def prepareStore (n : NodeId) (kind : Kind) (a : Attr) (v : Value) : Edit Value := do
  match kind, a with
  | .assignment, .field .operator => assignmentOperator v
  | .binary, .field .value =>
    match v with
    | .text s => confirm s "binary"; return v
    | _ => return v
  | .binaryOperator, .field .value =>
    match v with
    | .text s => confirm ("a " ++ s ++ " b") "binary_operator"; return v
    | _ => return v
  | .booleanOperator, .field .value =>
    match v with
    | .text s => confirm ("a " ++ s ++ " b") "boolean_operator"; return v
    | _ => return v
  | .comparison, .field .value =>
    match v with
    | .text s => confirm ("a " ++ s ++ " b") "comparison"; return v
    | _ => return v
  | .dottedAsName, .field .target =>
    checkName .moduleAlias v
    if ← truth v then
      setSpacing n .firstFormatting (some (.field .delimiter)) true
      setSpacing n .secondFormatting (some (.field .delimiter)) true
    return v
  | .nameAsName, .field .target =>
    checkName .nameAlias v
    if ← truth v then
      setSpacing n .firstFormatting (some (.field .delimiter)) true
      setSpacing n .secondFormatting (some (.field .delimiter)) true
    return v
  | .nameAsName, .field .value =>
    checkName .aliasedName v
    return v
  | .exceptBranch, .field .delimiter =>
    if ← equal v (.text ",") then
      setSpacing n .secondFormatting none false
      setSpacing n .thirdFormatting (some (.field .delimiter)) true
    else if ← equal v (.text "as") then
      setSpacing n .secondFormatting (some (.field .delimiter)) true
      setSpacing n .thirdFormatting (some (.field .delimiter)) true
    else if ← truth v then throw (.refused .delimiter)
    return v
  | _, _ => return v

/-- Stores an attribute of a node that is being built. -/
def storeBuilt (n : NodeId) (f : Field) (v : Value) : Edit Unit := do
  let kind := (← Read.node n).kind
  let v ← prepareStore n kind (.field f) v
  putAttr n (.field f) v
  wrapHeld n (.field f)

/-- What building needs to know of a field of a record. -/
structure Branch where
  datum : Datum
  one : Value → Option Attr → Edit NodeId
  many : Value → Option Attr → Edit (List Value)

def addField (f : Field) (fields : List Field) : List Field :=
  if fields.contains f then fields else fields ++ [f]

/-- Fills one slot of a node that is being built. -/
def fillSlot (n : NodeId) (branches : List (String × Branch)) : Slot → Edit Unit
  | .constant _ _ => pure ()
  | .field form f _ => do
    match lookupLast f.word branches with
    | none => throw .noKey
    | some branch =>
      match form with
      | .text | .flag =>
        storeBuilt n f (.ofDatum branch.datum)
        Edit.updateNode n (fun c => { c with texts := addField f c.texts })
      | .child =>
        if branch.datum.truth then
          let child ← branch.one (.node n) (some (.field f))
          storeBuilt n f (.node child)
        else storeBuilt n f .none
        Edit.updateNode n (fun c => { c with children := addField f c.children })
      | .children | .formatting =>
        let inside ← branch.many (.node n) (some (.field f))
        let l ← newNodeList inside (.node n) (some (.field f))
        storeBuilt n f (.list l)
        Edit.updateNode n (fun c => { c with lists := addField f c.lists })

def fillSlots (n : NodeId) (branches : List (String × Branch)) : List Slot → Edit Unit
  | [] => pure ()
  | slot :: rest => do
    fillSlot n branches slot
    fillSlots n branches rest

def literalInteger : Value → Except Fault Int
  | .int i => .ok i
  | .bool b => .ok (if b then 1 else 0)
  | .text s =>
    match Text.integer? s with
    | some i => .ok i
    | none => .error .badValue
  | _ => .error .wrongSort

/-- Fills a node from the fields of a record, whatever it held before. When this fails, the node
stays as one that is being built. -/
def fill (n : NodeId) (parent : Value) (place : Option Attr) (branches : List (String × Branch)) :
    Edit Unit := do
  Edit.updateNode n (fun c => { c with
    building := true, parent := parent, place := place, texts := [.type], lists := [], children := [] })
  match lookupLast "type" branches with
  | none => throw .noKey
  | some branch =>
    putAttr n (.field .type) (.ofDatum branch.datum)
    fillSlots n branches (← Edit.lift (← Read.node n).layout)
    Edit.updateNode n (fun c => { c with building := false })
    if (← Read.node n).kind == .int then
      let i ← Edit.lift (literalInteger (← look n (.field .value)))
      putAttr n (.field .value) (.int i)

/-- Makes a new node of the type that a record names. -/
def buildRecord (branches : List (String × Branch)) (parent : Value) (place : Option Attr) :
    Edit NodeId := do
  match (lookupLast "type" branches).map Branch.datum with
  | none => throw .noKey
  | some (.text type) =>
    match Kind.ofWord? type with
    | none => throw .noKey
    | some kind =>
      let n ← Edit.newNode ⟨kind, parent, place, true, [], [], [], [], none⟩
      fill n parent place branches
      return n
  | some _ => throw .noAttribute

mutual

def build : Datum → Value → Option Attr → Edit NodeId
  | .record fields => buildRecord (branches fields)
  | _ => fun _ _ => throw .wrongSort

def buildEach : List Datum → Value → Option Attr → Edit (List Value)
  | [] => fun _ _ => pure []
  | d :: rest => fun parent place => do
    let n ← build d parent place
    let others ← buildEach rest parent place
    return .node n :: others

/-- Builds the nodes that the items of a datum describe. -/
def buildItems : Datum → Value → Option Attr → Edit (List Value)
  | .list ds => buildEach ds
  | .text s => fun _ _ => if s == "" then pure [] else throw .wrongSort
  | .record fields => fun _ _ => if fields.isEmpty then pure [] else throw .wrongSort
  | _ => fun _ _ => throw .wrongSort

def branches : List (String × Datum) → List (String × Branch)
  | [] => []
  | (k, d) :: rest => (k, ⟨d, build d, buildItems d⟩) :: branches rest

end

/-- Builds the list of nodes that a datum describes. -/
def buildList (d : Datum) (parent : Value) (place : Option Attr) : Edit ListId := do
  let inside ← buildItems d parent place
  newNodeList inside parent place

/-- A new node with the contents of another, which nothing holds. -/
def copyNode (v : Value) : Edit NodeId := do build (← snapshot v) .none none

/-- A new list of nodes with the contents of another, which nothing holds. -/
def copyList (v : Value) : Edit ListId := do
  let inside ← buildItems (← snapshot v) .none none
  newLooseList inside

end CodeTree
