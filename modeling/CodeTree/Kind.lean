import CodeTree.Field

/-! # Kinds of nodes

Every node is of one of these kinds. A kind has a word, the name that the parser uses for it, and a
class name, the name shown to the user; the second is computed from the first.
-/
namespace CodeTree

inductive Kind where
  | int | long | name | hexa | octa | float | space | binary | complex | floatExponant
  | leftParenthesis | rightParenthesis | floatExponantComplex | breakStmt | continueStmt
  | passStmt | dottedName | ifElseBlock | atomTrailers | stringChain | endl | star
  | starExpression | string | rawString | binaryString | unicodeString | binaryRawString
  | interpolatedString | interpolatedRawString | unicodeRawString | comment | ternaryOperator
  | ellipsis | dot | semicolon | comma | call | decorator | classDef | reprExpr | list
  | associativeParenthesis | tuple | awaitExpr | funcDef | callArgument | defArgument
  | listArgument | kwargsOnlyMarker | dictArgument | returnStmt | raiseStmt | assertStmt
  | setComprehension | dictComprehension | argumentGenerator | generatorComprehension
  | listComprehension | comprehensionLoop | comprehensionIf | getitem | slice | assignment
  | standaloneHint | unitaryOperator | binaryOperator | booleanOperator | comparisonOperator
  | comparison | withStmt | withContextItem | nonlocalStmt | delStmt | yieldExpr | yieldFrom
  | yieldAtom | execStmt | globalStmt | whileLoop | forLoop | ifBranch | elifBranch | elseBranch
  | lambdaExpr | tryStmt | exceptBranch | finallyBranch | dict | set | dictItem | importStmt
  | fromImport | dottedAsName | nameAsName | printStmt
deriving DecidableEq, Repr, Inhabited

namespace Kind

def word : Kind → String
  | .int => "int"
  | .long => "long"
  | .name => "name"
  | .hexa => "hexa"
  | .octa => "octa"
  | .float => "float"
  | .space => "space"
  | .binary => "binary"
  | .complex => "complex"
  | .floatExponant => "float_exponant"
  | .leftParenthesis => "left_parenthesis"
  | .rightParenthesis => "right_parenthesis"
  | .floatExponantComplex => "float_exponant_complex"
  | .breakStmt => "break"
  | .continueStmt => "continue"
  | .passStmt => "pass"
  | .dottedName => "dotted_name"
  | .ifElseBlock => "ifelseblock"
  | .atomTrailers => "atomtrailers"
  | .stringChain => "string_chain"
  | .endl => "endl"
  | .star => "star"
  | .starExpression => "star_expression"
  | .string => "string"
  | .rawString => "raw_string"
  | .binaryString => "binary_string"
  | .unicodeString => "unicode_string"
  | .binaryRawString => "binary_raw_string"
  | .interpolatedString => "interpolated_string"
  | .interpolatedRawString => "interpolated_raw_string"
  | .unicodeRawString => "unicode_raw_string"
  | .comment => "comment"
  | .ternaryOperator => "ternary_operator"
  | .ellipsis => "ellipsis"
  | .dot => "dot"
  | .semicolon => "semicolon"
  | .comma => "comma"
  | .call => "call"
  | .decorator => "decorator"
  | .classDef => "class"
  | .reprExpr => "repr"
  | .list => "list"
  | .associativeParenthesis => "associative_parenthesis"
  | .tuple => "tuple"
  | .awaitExpr => "await"
  | .funcDef => "def"
  | .callArgument => "call_argument"
  | .defArgument => "def_argument"
  | .listArgument => "list_argument"
  | .kwargsOnlyMarker => "kwargs_only_marker"
  | .dictArgument => "dict_argument"
  | .returnStmt => "return"
  | .raiseStmt => "raise"
  | .assertStmt => "assert"
  | .setComprehension => "set_comprehension"
  | .dictComprehension => "dict_comprehension"
  | .argumentGenerator => "argument_generator_comprehension"
  | .generatorComprehension => "generator_comprehension"
  | .listComprehension => "list_comprehension"
  | .comprehensionLoop => "comprehension_loop"
  | .comprehensionIf => "comprehension_if"
  | .getitem => "getitem"
  | .slice => "slice"
  | .assignment => "assignment"
  | .standaloneHint => "standalone_annotation"
  | .unitaryOperator => "unitary_operator"
  | .binaryOperator => "binary_operator"
  | .booleanOperator => "boolean_operator"
  | .comparisonOperator => "comparison_operator"
  | .comparison => "comparison"
  | .withStmt => "with"
  | .withContextItem => "with_context_item"
  | .nonlocalStmt => "nonlocal"
  | .delStmt => "del"
  | .yieldExpr => "yield"
  | .yieldFrom => "yield_from"
  | .yieldAtom => "yield_atom"
  | .execStmt => "exec"
  | .globalStmt => "global"
  | .whileLoop => "while"
  | .forLoop => "for"
  | .ifBranch => "if"
  | .elifBranch => "elif"
  | .elseBranch => "else"
  | .lambdaExpr => "lambda"
  | .tryStmt => "try"
  | .exceptBranch => "except"
  | .finallyBranch => "finally"
  | .dict => "dict"
  | .set => "set"
  | .dictItem => "dictitem"
  | .importStmt => "import"
  | .fromImport => "from_import"
  | .dottedAsName => "dotted_as_name"
  | .nameAsName => "name_as_name"
  | .printStmt => "print"

/-- All kinds, in the order in which compact trees number them. -/
def all : List Kind := [
  .int, .long, .name, .hexa, .octa, .float, .space, .binary, .complex, .floatExponant,
  .leftParenthesis, .rightParenthesis, .floatExponantComplex, .breakStmt, .continueStmt,
  .passStmt, .dottedName, .ifElseBlock, .atomTrailers, .stringChain, .endl, .star,
  .starExpression, .string, .rawString, .binaryString, .unicodeString, .binaryRawString,
  .interpolatedString, .interpolatedRawString, .unicodeRawString, .comment, .ternaryOperator,
  .ellipsis, .dot, .semicolon, .comma, .call, .decorator, .classDef, .reprExpr, .list,
  .associativeParenthesis, .tuple, .awaitExpr, .funcDef, .callArgument, .defArgument,
  .listArgument, .kwargsOnlyMarker, .dictArgument, .returnStmt, .raiseStmt, .assertStmt,
  .setComprehension, .dictComprehension, .argumentGenerator, .generatorComprehension,
  .listComprehension, .comprehensionLoop, .comprehensionIf, .getitem, .slice, .assignment,
  .standaloneHint, .unitaryOperator, .binaryOperator, .booleanOperator, .comparisonOperator,
  .comparison, .withStmt, .withContextItem, .nonlocalStmt, .delStmt, .yieldExpr, .yieldFrom,
  .yieldAtom, .execStmt, .globalStmt, .whileLoop, .forLoop, .ifBranch, .elifBranch, .elseBranch,
  .lambdaExpr, .tryStmt, .exceptBranch, .finallyBranch, .dict, .set, .dictItem, .importStmt,
  .fromImport, .dottedAsName, .nameAsName, .printStmt]

def ofWord? (word : String) : Option Kind := all.find? (fun k => k.word == word)

/-- One part of a word with its first letter in upper case and the rest in lower case. -/
def capitalized (part : List Char) : List Char :=
  match part with
  | [] => []
  | c :: rest => c.toUpper :: rest.map Char.toLower

def parts : List Char → List (List Char)
  | [] => [[]]
  | c :: rest =>
    match parts rest with
    | [] => [[c]]
    | part :: others => if c = '_' then [] :: part :: others else (c :: part) :: others

def title (k : Kind) : String := String.ofList ((parts k.word.toList).flatMap capitalized)

def className (k : Kind) : String := k.title ++ "Node"

/-- Whether there is a class for all nodes of a kind. The classes that nobody wrote are declared under the word of the kind and
looked up under its title, so a word of several parts is not found; each node is then given a class of its own. -/
def hasClass : Kind → Bool
  | .floatExponant | .leftParenthesis | .rightParenthesis | .floatExponantComplex | .dottedName
  | .starExpression | .rawString | .binaryString | .unicodeString | .binaryRawString
  | .interpolatedString | .interpolatedRawString | .unicodeRawString | .kwargsOnlyMarker
  | .standaloneHint | .comparisonOperator | .yieldFrom => false
  | _ => true

end Kind

end CodeTree
