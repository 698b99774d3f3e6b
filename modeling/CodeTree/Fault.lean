/-! # Faults

Reading or editing a tree can fail. A fault names the cause; a refusal is a fault that a node
raises about the value it was given, and it carries the sentence shown to the user.
-/
namespace CodeTree

/-- Why a node refuses a value. -/
inductive Refusal where
  | unhandled
  | operatorLength
  | moduleAlias
  | nameAlias
  | aliasedName
  | delimiter
  | targetWithoutException
  | localsWithoutGlobals
  | instanceWithoutValue
  | tracebackWithoutInstance
  | noLayout (type : String)
deriving DecidableEq, Repr

def Refusal.message : Refusal → String
  | .unhandled => "Unhandled case"
  | .operatorLength =>
      "The value of the operator can only be a string of one or two char, for eg: '+', '+=', '=', ''"
  | .moduleAlias =>
      "The target of a dotted as name node can only be a 'name' or an empty string or None"
  | .nameAlias =>
      "The target of a name as name node can only be a 'name' or an empty string or None"
  | .aliasedName =>
      "The value of a name as name node can only be a 'name' or an empty string or None"
  | .delimiter =>
      "Delimiters of an except node can only be 'as' or ',' (without spaces around it)."
  | .targetWithoutException =>
      "Can't set a target to an exception node that doesn't have an exception set"
  | .localsWithoutGlobals => "I can't set locals when globals aren't set."
  | .instanceWithoutValue => "Can't set instance if there is not value"
  | .tracebackWithoutInstance => "Can't set traceback if there is not instance"
  | .noLayout type => "There are no defined rules for rendering a node of type '" ++ type ++
      "', has it been defined in render.py?"

inductive Fault where
  /-- An operand is of a sort the operation does not take. -/
  | wrongSort
  | noAttribute
  | noKey
  | outOfRange
  /-- A value of the right sort that is not acceptable, such as an item sought where it is not. -/
  | badValue
  /-- A check on the parser's answer failed. -/
  | unconfirmed
  /-- The next item of a finished iteration was asked for. -/
  | noMore
  | notRenderable
  | badPattern
  /-- Nesting is deeper than the store can hold without a cycle. -/
  | tooDeep
  | refused (why : Refusal)
  /-- The parser does not accept the text; `kind` is its own word for the reason. -/
  | unparsable (kind : String)
  /-- The parser has no answer for the text at all. -/
  | unanswered (text : String)
deriving DecidableEq, Repr

end CodeTree
