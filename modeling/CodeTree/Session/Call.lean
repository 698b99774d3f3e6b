import CodeTree.Session.Sequence

/-! # Calls by name

What a value does when something is asked of it by name, with arguments. Nodes answer some names
themselves; other names go to the view that a node holds as its value, from a view to its list, and
from there on stand for the result of a search.
-/
namespace CodeTree

/-- The result of a call, or nothing if the value has no answer of its own to the name. -/
abbrev Answer := Option (Edit Value)

def newStream (items : List Value) : Edit Value :=
  return .list (← Edit.newList ⟨.stream, items, .none, none, []⟩)

def newTuple (items : List Value) : Edit Value :=
  return .list (← Edit.newList ⟨.tuple, items, .none, none, []⟩)

def newPlain (items : List Value) : Edit Value := return .list (← newPlainList items)

def newLoose (items : List Value) : Edit Value := return .list (← newLooseList items)

def streamOrNone : Option (List Value) → Edit Value
  | some items => newStream items
  | none => pure .none

def findCall (v : Value) (a : Arguments) : Edit Value := do
  let (q, deep) ← a.query
  findFirst q deep v

def findAllCall (v : Value) (a : Arguments) : Edit Value := do
  let (q, deep) ← a.query
  newLoose (← findAll q deep v)

def callValue (v : Value) (a : Arguments) : Edit Value := do
  match v with
  | .rule r => applyRule r (← Edit.lift (a.one "x"))
  | .node _ | .view _ => findAllCall v a
  | .list l =>
    if (← Read.list l).flavour == .nodes then findAllCall v a else throw .wrongSort
  | _ => throw .wrongSort

/-- The node or list at a line and column, or the value itself if nothing is there. -/
def findAtPosition (v position : Value) : Edit Value := do
  let d ← snapshot v
  match ← items position with
  | line :: column :: _ =>
    let line ← Edit.lift (asInteger line)
    let column ← Edit.lift (asInteger column)
    let way ← Edit.lift (d.pathAt line column)
    let way : Value := match way with
      | some keys => .keys keys
      | none => .none
    match ← routeFrom v way with
    | .route goal _ => return goal
    | _ => return .none
  | _ => throw .noAttribute

/-- What a sequence of names and positions leads to. -/
def findByWay (v way : Value) : Edit Value := do
  match ← routeFrom v way with
  | .route goal _ => return goal
  | _ => return .none

def helpArguments (a : Arguments) : Except Fault (HelpDepth × Value) := do
  match ← a.bind [("deep", some (.int 2)), ("with_formatting", some (.bool false))] with
  | [depth, withFormatting] => return (← asDepth depth, withFormatting)
  | _ => throw .wrongSort

/-- The value and the offset of an insertion beside a node. -/
def insertionArguments (a : Arguments) : Except Fault (Value × Value) := do
  match ← a.bind [("value", none), ("offset", some (.int 0))] with
  | [v, offset] => return (v, offset)
  | _ => throw .wrongSort

def textArgument : Value → Except Fault String
  | .text s => .ok s
  | _ => .error .wrongSort

/-- Text converted by the rules of a node, for a place. -/
def textCall (convert : String → Value → Option Attr → Edit Value) (a : Arguments) : Edit Value := do
  let (text, parent, place) ← Edit.lift (a.three "string" "parent" "on_attribute")
  convert (← Edit.lift (textArgument text)) parent (placeNamed place)

def asList (convert : String → Value → Option Attr → Edit ListId) (text : String) (parent : Value)
    (place : Option Attr) : Edit Value :=
  return .list (← convert text parent place)

def silently {α : Type} (e : Edit α) : Edit Value := do
  let _ ← e
  return .none

def nodeAnswer (n : NodeId) (name : String) (a : Arguments) : Answer :=
  let v : Value := .node n
  let noArguments (r : Edit Value) : Edit Value := do
    Edit.lift a.none
    r
  match name with
  | "find" => some (findCall v a)
  | "find_all" | "findAll" | "__call__" => some (findAllCall v a)
  | "parent_find" => some (do findAbove (← Edit.lift a.plainQuery) n)
  | "find_by_path" => some (throw .wrongSort)
  | "find_by_position" => some (do findAtPosition v (← Edit.lift (a.one "position")))
  | "path" => some (noArguments (do return .route v (← routeKeys v)))
  | "_generate_identifiers" => some (noArguments (do
      newPlain ((← Edit.lift (← Read.node n).identifiers).map .text)))
  | "_get_helpers" => some (noArguments (do newPlain ((← helpersOf n).map .text)))
  | "fst" => some (noArguments (do return .data (← snapshot v)))
  | "dumps" => some (noArguments (do return .text (← textOf v)))
  | "help" => some (do
      let (depth, withFormatting) ← Edit.lift (helpArguments a)
      silently (do return ← helpOutput false v depth (← truth withFormatting)))
  | "__help__" => some (do
      let (depth, withFormatting) ← Edit.lift (helpArguments a)
      return .text (← helpText false v depth (← truth withFormatting)))
  | "__repr__" => some (noArguments (do return .text (← display false v)))
  | "__str__" => some (noArguments (do return .text (← plainText false v)))
  | "__len__" => some (noArguments (do return .int (← lengthOf v)))
  | "copy" => some (noArguments (do return .node (← copyNode v)))
  | "replace" => some (do silently (replaceNode n (← Edit.lift (a.one "new_node"))))
  | "has_render_key" => some (do
      let key ← Edit.lift (a.one "target_key")
      let d ← snapshot v
      match key with
      | .text word => return .bool (← Edit.lift (d.showsSlot word))
      | _ => return .bool false)
  | "get_absolute_bounding_box_of_attribute" => some (do
      let key ← Edit.lift (a.one "attribute")
      let d ← snapshot v
      match key with
      | .text word =>
        if !(← Edit.lift (d.showsSlot word)) then throw .noKey
        return .box (← boxWithin v [.name word])
      | _ => throw .noKey)
  | "increase_indentation" => some (do
      silently (shiftNode (.more (← Edit.lift (a.one "number_of_spaces"))) n))
  | "decrease_indentation" => some (do
      silently (shiftNode (.less (← Edit.lift (a.one "number_of_spaces"))) n))
  | "next_generator" => some (noArguments (do streamOrNone (← followersOf n)))
  | "previous_generator" => some (noArguments (do streamOrNone (← predecessorsOf n)))
  | "get_indentation_node" => some (noArguments (do return ← indentationNode n))
  | "indentation_node_is_direct" => some (noArguments (do return .bool (← startsLine n)))
  | "_get_list_attribute_is_member_off" => some (noArguments (do
      return (← listOf? n).getD .none))
  | "_generate_nodes_in_rendering_order" => some (noArguments (do
      newStream (← Edit.lift (← readingOrder v).toExcept)))
  | "_string_to_node" => some (textCall (childOfText n) a)
  | "_string_to_node_list" => some (textCall (asList (listOfText n)) a)
  | "parse_decorators" => some (textCall (asList (decoratorsOf v)) a)
  | "__getslice__" => some (do
      let (start, stop) ← Edit.lift (a.two "i" "j")
      match ← heldView? n with
      | some w => spanOfView w (← Edit.lift (asSpan start stop))
      | none => throw .noAttribute)
  | "__setslice__" => some (do
      let (start, stop, new) ← Edit.lift (a.three "i" "j" "value")
      match ← heldView? n with
      | some w => silently (replaceSpan w (← Edit.lift (asSpan start stop)) new)
      | none => throw .wrongSort)
  | "__delslice__" => some (do
      let (start, stop) ← Edit.lift (a.two "i" "j")
      match ← heldView? n with
      | some w => silently (deleteSpan w (← Edit.lift (asSpan start stop)))
      | none => throw .noAttribute)
  | _ => none

def kindAnswer (kind : Kind) (n : NodeId) (name : String) (a : Arguments) : Answer :=
  let noArguments (r : Read (List Value)) : Edit Value := do
    Edit.lift a.none
    newPlain (← r)
  match name with
  | "modules" =>
    if kind == .importStmt || kind == .fromImport then some (noArguments (importedModules n))
    else none
  | "names" =>
    if kind == .importStmt || kind == .fromImport then some (noArguments (importedNames n))
    else none
  | "full_path_names" =>
    if kind == .fromImport then some (noArguments (fullPaths true n)) else none
  | "full_path_modules" =>
    if kind == .fromImport then some (noArguments (fullPaths false n)) else none
  | "_get_last_member_to_clean" =>
    if kind == .forLoop || kind == .whileLoop || kind == .tryStmt then some (do
      Edit.lift a.none
      return ← lastMember n)
    else none
  | "parse_code_block" => if kind.hasBlock then some (textCall (asList (blockOf n)) a) else none
  | _ => none

/-- What the table of the items of a list is when there are none. -/
def emptyTable : String := "<table><tr><th>Index</th><th>node</th></tr></table>"

/-- The table of the items of a list. Only an empty one can be written. -/
def tableCall (inside : List Value) : Edit Value := do
  if inside.isEmpty then return .text emptyTable
  for v in inside do
    match v with
    | .node _ =>
      let _ ← textOf v
    | _ =>
      let _ ← attr v "_repr_html_"
  throw .wrongSort

/-- The position of a value among items, in a span if bounds are given. -/
def indexCall (inside : List Value) (a : Arguments) : Edit Value := do
  if !a.named.isEmpty then throw .wrongSort
  let within (v start stop : Value) : Edit Value := do
    let start ← Edit.lift (asInteger start)
    let stop ← Edit.lift (asInteger stop)
    let s : Span := ⟨some start, some stop⟩
    let i ← indexOf v (s.inside inside)
    return .int (i + s.first inside.length : Nat)
  match a.given with
  | [v] => return .int (← indexOf v inside)
  | [v, start] => within v start (.int inside.length)
  | [v, start, stop] => within v start stop
  | _ => throw .wrongSort

def positionArgument (length : Nat) (i : Value) : Except Fault Nat := do
  let i ← asInteger i
  match indexIn? length i with
  | some j => return j
  | none => throw .outOfRange

/-- What lists answer that are changed as they are. -/
def plainListAnswer (l : ListId) (name : String) (a : Arguments) : Answer :=
  let setItems (f : List Value → List Value) : Edit Value := do
    Edit.updateList l (fun c => { c with items := f c.items })
    return .none
  match name with
  | "append" => some (do
      let v ← Edit.lift (a.one "item")
      setItems (· ++ [v]))
  | "insert" => some (do
      let (i, v) ← Edit.lift (a.two "i" "item")
      let i ← Edit.lift (asInteger i)
      setItems (insertAt i v))
  | "pop" => some (do
      match ← Edit.lift (a.bind [("i", some (.int (-1)))]) with
      | [i] =>
        let inside := (← Read.list l).items
        let j ← Edit.lift (positionArgument inside.length i)
        let _ ← setItems (·.eraseIdx j)
        return (inside[j]?).getD .none
      | _ => throw .wrongSort)
  | "remove" => some (do
      let i ← indexOf (← Edit.lift (a.one "item")) (← Read.list l).items
      setItems (·.eraseIdx i))
  | "reverse" => some (do
      Edit.lift a.none
      setItems List.reverse)
  | "clear" => some (do
      Edit.lift a.none
      setItems (fun _ => []))
  | "extend" => some (do
      let new ← items (← Edit.lift (a.one "other"))
      setItems (· ++ new))
  | "index" => some (do indexCall (← Read.list l).items a)
  | "count" => some (do
      return .int (← countOf (← Edit.lift (a.one "item")) (← Read.list l).items))
  | "__len__" => some (do return .int (← Read.list l).items.length)
  | _ => none

def mapItems (f : Value) : List Value → Edit (List Value)
  | [] => pure []
  | v :: rest => do
    if !(← isCallable f) then throw .wrongSort
    let first ← apply f v
    let others ← mapItems f rest
    return first :: others

def filterItems (f : Value) : List Value → Edit (List Value)
  | [] => pure []
  | v :: rest => do
    if !(← isCallable f) then throw .wrongSort
    let kept ← agrees f v
    let others ← filterItems f rest
    return if kept then v :: others else others

/-- The box of an item of a list, in the text of the whole document. -/
def itemBox (v : Value) (index : Value) : Edit Value := do
  let i ← Edit.lift (asInteger index)
  if i ≥ (← lengthOf v) || i < 0 then throw .outOfRange
  return .box (← boxWithin v [.index i])

def nodesAnswer (l : ListId) (name : String) (a : Arguments) : Answer :=
  let v : Value := .list l
  let noArguments (r : Edit Value) : Edit Value := do
    Edit.lift a.none
    r
  match name with
  | "find" => some (findCall v a)
  | "find_all" | "findAll" | "__call__" => some (findAllCall v a)
  | "find_by_path" => some (do findByWay v (← Edit.lift (a.one "path")))
  | "find_by_position" => some (do findAtPosition v (← Edit.lift (a.one "position")))
  | "path" => some (noArguments (do return .route v (← routeKeys v)))
  | "fst" => some (noArguments (do return .data (← snapshot v)))
  | "dumps" => some (noArguments (do return .text (← textOf v)))
  | "help" => some (do
      let (depth, withFormatting) ← Edit.lift (helpArguments a)
      silently (do return ← helpOutput false v depth (← truth withFormatting)))
  | "__help__" => some (do
      let (depth, withFormatting) ← Edit.lift (helpArguments a)
      let withFormatting ← truth withFormatting
      newPlain (← (← Read.list l).items.mapM (fun x => do
        return .text (← helpText false x depth withFormatting))))
  | "__repr__" => some (noArguments (do return .text (← display false v)))
  | "__str__" => some (noArguments (do return .text (← plainText false v)))
  | "_repr_html_" => some (noArguments (do tableCall (← Read.list l).items))
  | "copy" => some (noArguments (do return .list (← copyList v)))
  | "next_generator" | "previous_generator" => some (noArguments (newStream []))
  | "apply" => some (do
      let f ← Edit.lift (a.one "function")
      let _ ← mapItems f (← Read.list l).items
      return v)
  | "map" => some (do
      let f ← Edit.lift (a.one "function")
      newLoose (← mapItems f (← Read.list l).items))
  | "filter" => some (do
      let f ← Edit.lift (a.one "function")
      newLoose (← filterItems f (← Read.list l).items))
  | "filtered" => some (noArguments (do newTuple (← significant v)))
  | "_generate_nodes_in_rendering_order" => some (noArguments (do
      newStream (← Edit.lift (← readingOrder v).toExcept)))
  | "get_absolute_bounding_box_of_attribute" => some (do
      itemBox v (← Edit.lift (a.one "index")))
  | "increase_indentation" => some (do
      let by_ ← Edit.lift (a.one "number_of_spaces")
      silently (shiftLines (.more by_) (← Read.list l).items))
  | "decrease_indentation" => some (do
      let by_ ← Edit.lift (a.one "number_of_spaces")
      silently (shiftLines (.less by_) (← Read.list l).items))
  | "_string_to_node" => some (textCall firstOf a)
  | "_string_to_node_list" => some (textCall (asList allOf) a)
  | "parse_decorators" => some (textCall (asList (decoratorsOf v)) a)
  | name => plainListAnswer l name a

def lineBox (w : ViewId) (index : Value) : Edit Value := do
  let i ← Edit.lift (asInteger index)
  let c ← Read.view w
  if i ≥ c.items.length || i < 0 then throw .outOfRange
  let raw ← attr (← Edit.lift (itemAt c.items i)) "index_on_parent_raw"
  let keys ← routeKeys (← behind (.view w))
  let whole ← snapshot (← attr (.view w) "root")
  match raw with
  | .int j => return .box (← Edit.lift (whole.boxAt (keys ++ [.index j])))
  | _ => throw .wrongSort

def viewAnswer (w : ViewId) (c : ViewCell) (name : String) (a : Arguments) : Answer :=
  let v : Value := .view w
  match name with
  | "insert" => some (do
      let (i, new) ← Edit.lift (a.two "index" "value")
      let item ← itemFrom w new
      let i ← Edit.lift (asInteger i)
      Edit.updateView w (fun c => { c with items := insertAt i item c.items })
      silently (afterEdit .adding w))
  | "append" => some (do silently (appendToView w (← Edit.lift (a.one "value"))))
  | "extend" => some (do silently (extendView w (← Edit.lift (a.one "values"))))
  | "pop" => some (do
      match ← Edit.lift (a.bind [("index", some .none)]) with
      | [.none] => silently (popFromView w (-1))
      | [i] => silently (popFromView w (← Edit.lift (asInteger i)))
      | _ => throw .wrongSort)
  | "remove" => some (do silently (removeFromView w (← Edit.lift (a.one "value"))))
  | "index" => some (do
      match a.given, a.named with
      | [], [("value", x)] => indexCall c.items (.ofList [x])
      | _, _ => indexCall c.items a)
  | "count" => some (do return .int (← countOf (← Edit.lift (a.one "value")) c.items))
  | "__len__" => some (do return .int c.items.length)
  | "__call__" => some (findAllCall v a)
  | "__getslice__" => some (do
      let (start, stop) ← Edit.lift (a.two "i" "j")
      spanOfView w (← Edit.lift (asSpan start stop)))
  | "__setslice__" => some (do
      let (start, stop, new) ← Edit.lift (a.three "i" "j" "value")
      let new ← itemsFrom w new
      let s ← Edit.lift (asSpan start stop)
      Edit.updateView w (fun c => { c with items := s.replace new c.items })
      silently (realign w))
  | "__delslice__" => some (do
      let (start, stop) ← Edit.lift (a.two "i" "j")
      silently (deleteSpan w (← Edit.lift (asSpan start stop))))
  | "__repr__" => some (do return .text (← display false v))
  | "__str__" => some (do return .text (← plainText false v))
  | "_repr_html_" => some (tableCall c.items)
  | "get_absolute_bounding_box_of_attribute" =>
    if c.form.lineBased then some (do lineBox w (← Edit.lift (a.one "index"))) else none
  | "find_by_position" =>
    if c.form == .document then some (do findAtPosition v (← Edit.lift (a.one "position")))
    else none
  | "_string_to_node" => if c.form == .document then some (textCall firstOf a) else none
  | "_string_to_node_list" =>
    if c.form == .document then some (textCall (asList allOf) a) else none
  | _ => none

def textAnswer (s : String) (name : String) (a : Arguments) : Answer :=
  let withText (f : String → Edit Value) : Answer := some (do
    match ← Edit.lift (a.one "sub") with
    | .text t => f t
    | _ => throw .wrongSort)
  match name with
  | "find" => withText (fun t => return .int (positionOf t.toList s.toList 0))
  | "index" => withText (fun t => do
      let i := positionOf t.toList s.toList 0
      if i < 0 then throw .badValue
      return .int i)
  | "startswith" => withText (fun t => return .bool (s.startsWith t))
  | "endswith" => withText (fun t => return .bool (s.endsWith t))
  | "lower" => some (do
      Edit.lift a.none
      return .text (Text.lower s))
  | "replace" => some (do
      match ← Edit.lift (a.two "old" "new") with
      | (.text old, .text new) => return .text (s.replace old new)
      | _ => throw .wrongSort)
  | _ => none

def callAt : Nat → Value → String → Arguments → Edit Value
  | 0, _, _, _ => throw .tooDeep
  | fuel + 1, v, name, a => do
    let asAttribute : Edit Value := do callValue (← attr v name) a
    match v with
    | .node n =>
      let c ← Read.node n
      match nodeAnswer n name a, kindAnswer c.kind n name a with
      | some r, _ => r
      | none, some r => r
      | none, none =>
        if name == "insert_before" || name == "insert_after" then
          insertBeside fuel n (name == "insert_after") a
        else if (c.own? (.ofWord name)).isSome || (c.alias? (.ofWord name)).isSome
            || (nodeProperties.lookup name).isSome then asAttribute
        else
          match ← heldView? n with
          | some w => callAt fuel (.view w) name a
          | none => asAttribute
    | .view w =>
      let c ← Read.view w
      match viewAnswer w c name a with
      | some r => r
      | none =>
        if (c.own? (.ofWord name)).isSome then asAttribute else callAt fuel c.target name a
    | .list l =>
      let c ← Read.list l
      match c.flavour with
      | .nodes =>
        match nodesAnswer l name a with
        | some r => r
        | none => asAttribute
      | .plain =>
        match name, plainListAnswer l name a with
        | "copy", _ => newPlain c.items
        | _, some r => r
        | _, none => throw .noAttribute
      | .tuple =>
        if name == "index" || name == "count" then
          match plainListAnswer l name a with
          | some r => r
          | none => throw .noAttribute
        else throw .noAttribute
      | .stream => throw .noAttribute
    | .route _ keys =>
      if name == "to_baron_path" then
        Edit.lift a.none
        return .keys keys
      else asAttribute
    | .text s =>
      match textAnswer s name a with
      | some r => r
      | none => throw .noAttribute
    | .data (.record fields) =>
      if name == "copy" then return .data (.record fields) else throw .noAttribute
    | _ => throw .noAttribute
where
  /-- Puts a value before or after a node into what holds it, at some distance. -/
  insertBeside (fuel : Nat) (n : NodeId) (after : Bool) (a : Arguments) : Edit Value := do
    let (new, offset) ← Edit.lift (insertionArguments a)
    let parent := (← Read.node n).parent
    if parent.isNone then throw .noAttribute
    let index ← Edit.lift (asInteger (← attr (.node n) "index_on_parent"))
    let offset ← Edit.lift (asInteger offset)
    let i := if after then index + 1 + offset else index - offset
    callAt fuel parent "insert" (.ofList [.int i, new])

def call (v : Value) (name : String) (a : Arguments) : Edit Value := do
  if name == "" then callValue v a else callAt (2 * (← Read.depth)) v name a

end CodeTree
