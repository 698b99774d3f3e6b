import CodeTree.Datum
import CodeTree.Layout
import CodeTree.Position

/-! # The store

Nodes, lists and views have an identity: an edit of one is seen by all who hold it. They live in a
store, as cells found by their number; what an attribute or a variable holds is a value, which names
a cell or is plain data. A store only grows, so a number once given stays good.
-/
namespace CodeTree

structure NodeId where
  index : Nat
deriving DecidableEq, Repr, Inhabited

structure ListId where
  index : Nat
deriving DecidableEq, Repr, Inhabited

structure ViewId where
  index : Nat
deriving DecidableEq, Repr, Inhabited

/-- A function of one value that a query or a mapping applies. -/
inductive RuleSort where
  | const | hasType | lacksType | equals | member | even | startsWith | attr | attrEquals | text
  | assign | replace
deriving DecidableEq, Repr

structure Rule where
  sort : RuleSort
  attr : String
  operand : Datum
deriving Repr

inductive Value where
  | none
  | bool (b : Bool)
  | int (i : Int)
  | text (s : String)
  /-- A list or a record of plain data. -/
  | data (d : Datum)
  | node (n : NodeId)
  | list (l : ListId)
  | view (v : ViewId)
  /-- The way to a node or list, as it was when asked for. -/
  | route (goal : Value) (keys : List Key)
  | keys (keys : List Key)
  | box (b : Box)
  | pattern (source : String)
  | rule (r : Rule)
deriving Repr, Inhabited

namespace Value

def ofDatum : Datum → Value
  | .null => .none
  | .bool b => .bool b
  | .int i => .int i
  | .text s => .text s
  | d => .data d

def toDatum? : Value → Option Datum
  | .none => some .null
  | .bool b => some (.bool b)
  | .int i => some (.int i)
  | .text s => some (.text s)
  | .data d => some d
  | _ => Option.none

/-- Whether two values name the same cell or are both nothing. -/
def is : Value → Value → Bool
  | .none, .none => true
  | .node a, .node b => a == b
  | .list a, .list b => a == b
  | .view a, .view b => a == b
  | _, _ => false

def isNone : Value → Bool
  | .none => true
  | _ => false

end Value

/-- A node: its kind, where it hangs, and its attributes. While it is being built, attributes are
stored as they come. The three lists say which fields hold text, lists and children. A node that was
replaced names the node whose class it took over. -/
structure NodeCell where
  kind : Kind
  parent : Value
  place : Option Attr
  building : Bool
  texts : List Field
  lists : List Field
  children : List Field
  attrs : List (Attr × Value)
  origin : Option NodeId := none
deriving Repr, Inhabited

/-- The class of a node: that of its kind, or one that was made for a single node. -/
inductive NodeClass where
  | ofKind (k : Kind)
  | single (n : NodeId)
deriving DecidableEq, Repr

def NodeCell.classAs (c : NodeCell) (n : NodeId) : NodeClass :=
  if c.kind.hasClass then .ofKind c.kind else .single (c.origin.getD n)

inductive Flavour where
  /-- A list of nodes, which converts what is put into it and hangs in a tree. -/
  | nodes
  | plain
  | tuple
  /-- The items of an iteration, which has no length and no positions. -/
  | stream
deriving DecidableEq, Repr, Inhabited

structure ListCell where
  flavour : Flavour
  items : List Value
  parent : Value
  place : Option Attr
  extra : List (String × Value)
deriving Repr, Inhabited

/-- The ways in which the items of a list are set apart. -/
inductive ViewForm where
  | bare | comma | dotted | lines | decorators | document
deriving DecidableEq, Repr, Inhabited

def ViewForm.className : ViewForm → String
  | .bare => "ProxyList"
  | .comma => "CommaProxyList"
  | .dotted => "DotProxyList"
  | .lines => "LineProxyList"
  | .decorators => "DecoratorsLineProxyList"
  | .document => "RedBaron"

/-- Views whose items stand on lines of their own. -/
def ViewForm.lineBased : ViewForm → Bool
  | .lines | .decorators | .document => true
  | .bare | .comma | .dotted => false

/-- A view: the items of a list without what separates them. The target is the list itself. -/
structure ViewCell where
  form : ViewForm
  target : Value
  items : List Value
  place : Option Attr
  parent : Option Value
  style : Option Value
  extra : List (String × Value)
deriving Repr, Inhabited

structure Store where
  nodes : Array NodeCell
  lists : Array ListCell
  views : Array ViewCell
deriving Repr, Inhabited

namespace Store

def empty : Store := ⟨#[], #[], #[]⟩

/-- More than the nesting of any structure without a cycle. -/
def depth (s : Store) : Nat := s.nodes.size + s.lists.size + s.views.size + 1

end Store

/-- A question to a store. -/
abbrev Read := ReaderT Store (Except Fault)

namespace Read

def node (n : NodeId) : Read NodeCell := fun s =>
  match s.nodes[n.index]? with
  | some c => .ok c
  | none => .error .noKey

def list (l : ListId) : Read ListCell := fun s =>
  match s.lists[l.index]? with
  | some c => .ok c
  | none => .error .noKey

def view (v : ViewId) : Read ViewCell := fun s =>
  match s.views[v.index]? with
  | some c => .ok c
  | none => .error .noKey

def lift {α : Type} (r : Except Fault α) : Read α := fun _ => r

def depth : Read Nat := fun s => .ok s.depth

def orElseMissing {α : Type} (first second : Read α) : Read α := fun s =>
  match first s with
  | .error .noAttribute => second s
  | r => r

end Read

/-- What the parser answers to a text. -/
abbrev Parser := String → Except Fault Datum

/-- A change of a store. When it fails, the store stays as it was left. -/
abbrev Edit := ReaderT Parser (EStateM Fault Store)

namespace Edit

def read {α : Type} (r : Read α) : Edit α := fun _ s =>
  match r s with
  | .ok a => .ok a s
  | .error fault => .error fault s

def parse (text : String) : Edit Datum := fun parser s =>
  match parser text with
  | .ok d => .ok d s
  | .error fault => .error fault s

def lift {α : Type} (r : Except Fault α) : Edit α := fun _ s =>
  match r with
  | .ok a => .ok a s
  | .error fault => .error fault s

def newNode (c : NodeCell) : Edit NodeId := fun _ s =>
  .ok ⟨s.nodes.size⟩ { s with nodes := s.nodes.push c }

def newList (c : ListCell) : Edit ListId := fun _ s =>
  .ok ⟨s.lists.size⟩ { s with lists := s.lists.push c }

def newView (c : ViewCell) : Edit ViewId := fun _ s =>
  .ok ⟨s.views.size⟩ { s with views := s.views.push c }

def updateNode (n : NodeId) (f : NodeCell → NodeCell) : Edit Unit := fun _ s =>
  .ok () { s with nodes := s.nodes.modify n.index f }

def updateList (l : ListId) (f : ListCell → ListCell) : Edit Unit := fun _ s =>
  .ok () { s with lists := s.lists.modify l.index f }

def updateView (v : ViewId) (f : ViewCell → ViewCell) : Edit Unit := fun _ s =>
  .ok () { s with views := s.views.modify v.index f }

end Edit

instance : MonadLift Read Edit := ⟨Edit.read⟩

end CodeTree
