import CodeTree.Store
import CodeTree.Text.Glob
import CodeTree.Text.Pattern

/-! # Attributes and searches

Asking a node for an attribute gives what is stored under that name. An attribute that is not stored
is taken from the view that the node holds as its value, if it holds one, and is otherwise the first
node below with that word among its identifiers. Searching asks for attributes in turn, so both are
defined together: `findIn` and `findAllIn` search with any way of looking attributes up, and `look`
is the way that falls back on them.
-/
namespace CodeTree

/-- Replaces the value of a key, or adds the pair at the end. -/
def putPair {α β : Type} [BEq α] (key : α) (value : β) : List (α × β) → List (α × β)
  | [] => [(key, value)]
  | (k, v) :: rest => if k == key then (k, value) :: rest else (k, v) :: putPair key value rest

namespace NodeCell

def stored? (c : NodeCell) (a : Attr) : Option Value := c.attrs.lookup a

def put (c : NodeCell) (a : Attr) (v : Value) : NodeCell := { c with attrs := putPair a v c.attrs }

/-- What the node calls its type. It is the word of its kind unless someone changed it. -/
def typeValue (c : NodeCell) : Value := (c.stored? (.field .type)).getD .none

def layout (c : NodeCell) : Except Fault (List Slot) :=
  match c.typeValue with
  | .text type =>
    if type == c.kind.word then .ok c.kind.layout
    else
      match Kind.ofWord? type with
      | some kind => .ok kind.layout
      | none => .error .noKey
  | .data _ => .error .wrongSort
  | _ => .error .noKey

def fields (c : NodeCell) : List Field := c.texts ++ c.lists ++ c.children

end NodeCell

def Kind.otherWords : Kind → List String
  | .assignment => ["assign"]
  | .funcDef => ["funcdef", "funcdef_"]
  | _ => []

/-- Puts a word among words in alphabetical order. -/
def insertWord (word : String) : List String → List String
  | [] => [word]
  | w :: rest => if word ≤ w then word :: w :: rest else w :: insertWord word rest

/-- Words without repetition in alphabetical order. -/
def sortedWords (words : List String) : List String :=
  (words.foldl (fun seen w => if seen.contains w then seen else seen ++ [w]) []).foldr insertWord []

def NodeCell.identifiers (c : NodeCell) : Except Fault (List String) :=
  match c.typeValue with
  | .text type =>
    .ok (sortedWords (([type, c.kind.className, c.kind.title, type ++ "_"] ++ c.kind.otherWords).map
      Text.lower))
  | _ => .error .wrongSort

/-- Whether one of the words is the one sought. The word sought can be a regular expression after
`re:` or a glob after `g:`. -/
def matchesWord (words : List String) (sought : String) : Except Fault Bool :=
  if sought.startsWith "re:" then
    (Text.Pattern.read (sought.drop 3).toString).map (fun p => words.any p.matchesStart)
  else if sought.startsWith "g:" then
    .ok (words.any (Text.fitsGlob (sought.drop 2).toString))
  else .ok (words.contains sought)

/-- A word sought among identifiers is in lower case, unless it is a regular expression. -/
def soughtWord (word : String) : String :=
  if word.startsWith "re:" then word else Text.lower word

def hasWord (word : String) (n : NodeId) : Read Bool := do
  let c ← Read.node n
  let words ← Read.lift c.identifiers
  Read.lift (matchesWord words (soughtWord word))

/-- Where a text first occurs in another, or minus one. -/
def positionOf (sought text : List Char) : Nat → Int
  | i => match text with
    | [] => if sought.isEmpty then i else -1
    | c :: rest =>
      if sought.isPrefixOf (c :: rest) then i else positionOf sought rest (i + 1)

abbrev Look := NodeId → Attr → Read Value

/-- The number of items of a node: those of the view it holds as its value, otherwise one. -/
def lengthWith (look : Look) (n : NodeId) : Read Nat := do
  match ← Read.orElseMissing (look n (.field .value)) (pure .none) with
  | .view v => return (← Read.view v).items.length
  | _ => return 1

/-- Only what is empty, zero, false or nothing counts as false; a node without items is empty. -/
def truthWith (look : Look) : Value → Read Bool
  | .none => pure false
  | .bool b => pure b
  | .int i => pure (i != 0)
  | .text s => pure (s != "")
  | .data d => pure d.truth
  | .node n => return (← lengthWith look n) != 0
  | .list l => do
    let c ← Read.list l
    return c.flavour == .stream || !c.items.isEmpty
  | .view v => return !(← Read.view v).items.isEmpty
  | .keys ks => pure !ks.isEmpty
  | _ => pure true

def Key.toValue : Key → Value
  | .index i => .int i
  | .name s => .text s

/-- The items met when going through a value one by one. -/
def itemsWith (look : Look) : Value → Read (List Value)
  | .list l => return (← Read.list l).items
  | .view v => return (← Read.view v).items
  | .node n => do
    match ← Read.orElseMissing (look n (.field .value)) (pure .none) with
    | .view v => return (← Read.view v).items
    | _ => throw .wrongSort
  | .text s => return s.toList.map (fun c => .text (String.singleton c))
  | .data (.list ds) => return ds.map Value.ofDatum
  | .data (.record fields) => return fields.map (fun (k, _) => .text k)
  | .keys ks => return ks.map Key.toValue
  | _ => throw .wrongSort

/-- The items of a list itself, also when a view of it is given. -/
def membersWith (look : Look) : Value → Read (List Value)
  | .view v => do itemsWith look (← Read.view v).target
  | v => itemsWith look v

section Search

variable {m : Type → Type} [Monad m] [MonadLiftT Read m]

def firstFound {α : Type} (stop : Value → m Bool) (f : α → m Value) : List α → m Value
  | [] => pure .none
  | a :: rest => do
    let v ← f a
    if ← stop v then return v
    firstFound stop f rest

def gather {α β : Type} (f : α → m (List β)) : List α → m (List β)
  | [] => pure []
  | a :: rest => do
    let first ← f a
    let others ← gather f rest
    return first ++ others

/-- The first node for which `p` holds, among a node and what hangs below it in the order of the
layouts, formatting left out. Children and results that count as false are passed over. `fuel`
bounds the nesting; `deep` says whether to go below the first nodes. -/
def findIn (look : Look) (p : NodeId → m Bool) (onText : String → m Value) :
    Nat → Bool → Value → m Value
  | 0, _, _ => liftM (throw .tooDeep : Read Value)
  | fuel + 1, deep, v =>
    match v with
    | .node n => do
      if ← p n then return .node n
      if !deep then return .none
      let c ← liftM (Read.node n)
      let layout ← liftM (Read.lift c.layout)
      firstFound (fun found => liftM (truthWith look found)) (fun slot =>
        match slot with
        | .field .child f _ => do
          let child ← liftM (look n (.field f))
          if ← liftM (truthWith look child) then findIn look p onText fuel true child
          else pure .none
        | .field .children f _ => do
          let held ← liftM (look n (.field f))
          let members ← liftM (membersWith look held)
          firstFound (fun found => liftM (truthWith look found)) (findIn look p onText fuel true)
            members
        | _ => pure .none) layout
    | .list l => do
      let c ← liftM (Read.list l)
      if c.flavour == .nodes then
        firstFound (fun found => pure !found.isNone) (findIn look p onText fuel deep) c.items
      else liftM (throw .noAttribute : Read Value)
    | .view w => do
      let c ← liftM (Read.view w)
      findIn look p onText fuel deep c.target
    | .text s => onText s
    | _ => liftM (throw .noAttribute : Read Value)

/-- All nodes for which `p` holds, among a node and what hangs below it, formatting included. -/
def findAllIn (look : Look) (p : NodeId → m Bool) : Nat → Bool → Value → m (List Value)
  | 0, _, _ => liftM (throw .tooDeep : Read (List Value))
  | fuel + 1, deep, v =>
    match v with
    | .node n => do
      let here := if ← p n then [.node n] else []
      if !deep then return here
      let c ← liftM (Read.node n)
      let layout ← liftM (Read.lift c.layout)
      let below ← gather (fun slot =>
        match slot with
        | .field .child f _ => do
          let child ← liftM (look n (.field f))
          match child with
          | .node _ =>
            if ← liftM (truthWith look child) then findAllIn look p fuel true child else pure []
          | _ => pure []
        | .field .children f _ | .field .formatting f _ => do
          let held ← liftM (look n (.field f))
          let members ← liftM (membersWith look held)
          gather (findAllIn look p fuel true) members
        | _ => pure []) layout
      return here ++ below
    | .list l => do
      let c ← liftM (Read.list l)
      if c.flavour == .nodes then gather (findAllIn look p fuel deep) c.items
      else liftM (throw .noAttribute : Read (List Value))
    | .view w => do
      let c ← liftM (Read.view w)
      findAllIn look p fuel deep c.target
    | _ => liftM (throw .noAttribute : Read (List Value))

end Search

/-- The first node with a word; a text among the items answers with the position of the word. -/
def searchWith (look : Look) (word : String) (v : Value) : Read Value := do
  let depth ← Read.depth
  findIn look (hasWord word)
    (fun s => pure (.int (positionOf word.toList s.toList 0))) depth true v

def placeValue : Option Attr → Value
  | some a => .text a.word
  | none => .none

namespace NodeCell

/-- The attributes that a node has without searching. -/
def own? (c : NodeCell) (a : Attr) : Option Value :=
  match a with
  | .other "parent" => some c.parent
  | .other "on_attribute" => some (placeValue c.place)
  | .other "init" => some (.bool c.building)
  | a => c.stored? a

/-- A name with an underscore at its end stands for the field without it. -/
def alias? (c : NodeCell) (a : Attr) : Option Attr :=
  match c.kind, a with
  | .tryStmt, .other "finally_" => some (.field .finallyBranch)
  | .withContextItem, .other "as_" => some (.field .alias)
  | _, .other word =>
    if word.endsWith "_" then
      (Field.ofWord? (word.dropEnd 1).toString).bind
        (fun f => if c.fields.contains f then some (.field f) else none)
    else none
  | _, .field _ => none

end NodeCell

/-- The attributes that a list of nodes has without searching. -/
def ListCell.own? (c : ListCell) (a : Attr) : Option Value :=
  match c.extra.lookup a.word with
  | some v => some v
  | none =>
    match a with
    | .other "parent" => some c.parent
    | .other "on_attribute" => some (placeValue c.place)
    | .other "next" | .other "previous" => some .none
    | _ => none

/-- The attributes that a view has apart from those of its list. -/
def ViewCell.own? (c : ViewCell) (a : Attr) : Option Value :=
  match c.extra.lookup a.word with
  | some v => some v
  | none =>
    match a with
    | .other "node_list" => some c.target
    | .other "on_attribute" => some (placeValue c.place)
    | .other "parent" => c.parent
    | .other "style" => c.style
    | _ => none

/-- The attribute of any value; views ask their list. -/
def attrWith (look : Look) : Nat → Value → Attr → Read Value
  | _, .node n, a => look n a
  | _, .list l, a => do
    let c ← Read.list l
    if c.flavour == .nodes then
      match c.own? a with
      | some v => pure v
      | none => searchWith look a.word (.list l)
    else throw .noAttribute
  | 0, .view _, _ => throw .tooDeep
  | fuel + 1, .view w, a => do
    let c ← Read.view w
    match c.own? a with
    | some v => pure v
    | none => attrWith look fuel c.target a
  | _, .route goal _, .other "node" => pure goal
  | _, .route _ keys, .other "path" => pure (.keys keys)
  | _, _, _ => throw .noAttribute

/-- What an attribute that is not stored stands for. -/
def missingWith (look : Look) (through : ViewId → Attr → Read Value) (n : NodeId) (a : Attr) :
    Read Value := do
  let c ← Read.node n
  match c.alias? a with
  | some b => look n b
  | none =>
    if a = .field .value then searchWith look a.word (.node n)
    else
      match ← Read.orElseMissing (look n (.field .value)) (pure .none) with
      | .view w => Read.orElseMissing (through w a) (searchWith look a.word (.node n))
      | _ => searchWith look a.word (.node n)

/-- The attribute of a node: what is stored, or what the name stands for. `fuel` bounds how often a
search can meet an attribute that is not stored either. -/
def lookAt : Nat → Look
  | 0 => fun _ _ => throw .tooDeep
  | fuel + 1 => fun n a => do
    let c ← Read.node n
    match c.own? a with
    | some v => pure v
    | none =>
      missingWith (lookAt fuel)
        (fun w b => do attrWith (lookAt fuel) (← Read.depth) (.view w) b) n a

def look : Look := fun n a => do lookAt (← Read.depth) n a

/-- The attribute of any value, what has to be computed left out. -/
def plainAttr (v : Value) (a : Attr) : Read Value := do attrWith look (← Read.depth) v a

def truth (v : Value) : Read Bool := truthWith look v

def items (v : Value) : Read (List Value) := itemsWith look v

def members (v : Value) : Read (List Value) := membersWith look v

def lengthOf : Value → Read Nat
  | .text s => pure s.length
  | .node n => lengthWith look n
  | .list l => do
    let c ← Read.list l
    if c.flavour == .stream then throw .wrongSort
    return c.items.length
  | .view w => return (← Read.view w).items.length
  | .keys ks => pure ks.length
  | .data (.list ds) => pure ds.length
  | .data (.record fields) => pure fields.length
  | _ => throw .wrongSort

def typeOf (v : Value) : Read Value := plainAttr v (.field .type)

def hasType (v : Value) (word : String) : Read Bool := do
  match ← typeOf v with
  | .text type => return type == word
  | _ => return false

def parentOf : Value → Read Value
  | .node n => return (← Read.node n).parent
  | v => plainAttr v (.other "parent")

def placeOf : Value → Read (Option Attr)
  | .node n => return (← Read.node n).place
  | .view w => return (← Read.view w).place
  | .list l => do
    let c ← Read.list l
    if c.flavour == .nodes then return c.place
    throw .noAttribute
  | _ => throw .noAttribute

/-- What an attribute that a node cannot compute stands for. -/
def missing (n : NodeId) (a : Attr) : Read Value :=
  missingWith look (fun w b => plainAttr (.view w) b) n a

/-- A computed attribute of a node. If computing it meets a missing attribute, its name is searched
for as if it were not stored. -/
def computed (n : NodeId) (word : String) (r : Read Value) : Read Value :=
  Read.orElseMissing r (missing n (.other word))

/-- The list or other value below any number of views. -/
def underlyingAt : Nat → Value → Read Value
  | 0, _ => throw .tooDeep
  | fuel + 1, .view w => do underlyingAt fuel (← Read.view w).target
  | _ + 1, v => pure v

def underlying (v : Value) : Read Value := do underlyingAt (← Read.depth) v

/-- All nodes with a word, among a value and what hangs below it. -/
def allWith (word : String) (deep : Bool) (v : Value) : Read (List Value) := do
  findAllIn look (hasWord word) (← Read.depth) deep v

end CodeTree
