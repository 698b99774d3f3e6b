import CodeTree.Kind

/-! # Layouts

The layout of a kind lists, in reading order, what a node of that kind is made of: constant text and
the fields that hold text, flags, a child, a list of children or formatting. A slot is shown always,
never, or only when certain fields are set.
-/
namespace CodeTree

/-- What a field of a node holds. -/
inductive Form where
  | text | flag | child | children | formatting
deriving DecidableEq, Repr

inductive Shown where
  | always
  | never
  | whenSet (fields : List Field)
deriving DecidableEq, Repr

inductive Slot where
  | constant (text : String) (shown : Shown)
  | field (form : Form) (f : Field) (shown : Shown)
deriving DecidableEq, Repr

namespace Slot

def shown : Slot → Shown
  | .constant _ s => s
  | .field _ _ s => s

/-- The word by which routes and queries name the slot. -/
def word : Slot → String
  | .constant text _ => text
  | .field _ f _ => f.word

end Slot

def Kind.layout : Kind → List Slot
  | .int | .long | .name | .hexa | .octa | .float | .space | .binary | .complex | .floatExponant
  | .leftParenthesis | .rightParenthesis | .floatExponantComplex =>
    [.field .text .value .always]
  | .breakStmt | .continueStmt | .passStmt =>
    [.field .text .type .always]
  | .dottedName | .ifElseBlock | .atomTrailers | .stringChain =>
    [.field .children .value .always]
  | .endl =>
    [.field .formatting .formatting .always, .field .text .value .always, .field .text .indent .always]
  | .star | .string | .rawString | .binaryString | .unicodeString | .binaryRawString
  | .interpolatedString | .interpolatedRawString | .unicodeRawString =>
    [.field .formatting .firstFormatting .always, .field .text .value .always,
     .field .formatting .secondFormatting .always]
  | .starExpression =>
    [.constant "*" .always, .field .formatting .formatting .always, .field .child .value .always]
  | .comment =>
    [.field .formatting .formatting (.whenSet [.formatting]), .field .text .value .always]
  | .ternaryOperator =>
    [.field .child .first .always, .field .formatting .firstFormatting .always, .constant "if" .always,
     .field .formatting .secondFormatting .always, .field .child .value .always,
     .field .formatting .thirdFormatting .always, .constant "else" .always,
     .field .formatting .fourthFormatting .always, .field .child .second .always]
  | .ellipsis =>
    [.constant "." .always, .field .formatting .firstFormatting .always, .constant "." .always,
     .field .formatting .secondFormatting .always, .constant "." .always]
  | .dot =>
    [.field .formatting .firstFormatting .always, .constant "." .always,
     .field .formatting .secondFormatting .always]
  | .semicolon =>
    [.field .formatting .firstFormatting .always, .constant ";" .always,
     .field .formatting .secondFormatting .always]
  | .comma =>
    [.field .formatting .firstFormatting .always, .constant "," .always,
     .field .formatting .secondFormatting .always]
  | .call =>
    [.field .formatting .firstFormatting .always, .constant "(" .always,
     .field .formatting .secondFormatting .always, .field .children .value .always,
     .field .formatting .thirdFormatting .always, .constant ")" .always,
     .field .formatting .fourthFormatting .always]
  | .decorator =>
    [.constant "@" .always, .field .child .value .always, .field .child .call (.whenSet [.call])]
  | .classDef =>
    [.field .children .decorators .always, .constant "class" .always,
     .field .formatting .firstFormatting .always, .field .text .name .always,
     .field .formatting .secondFormatting .always, .constant "(" (.whenSet [.parenthesis]),
     .field .formatting .thirdFormatting .always, .field .children .inheritFrom .always,
     .field .formatting .fourthFormatting .always, .constant ")" (.whenSet [.parenthesis]),
     .field .formatting .fifthFormatting .always, .constant ":" .always,
     .field .formatting .sixthFormatting .always, .field .children .value .always,
     .field .flag .parenthesis .never]
  | .reprExpr =>
    [.constant "`" .always, .field .formatting .firstFormatting .always, .field .children .value .always,
     .field .formatting .secondFormatting .always, .constant "`" .always]
  | .list =>
    [.field .formatting .firstFormatting .always, .constant "[" .always,
     .field .formatting .secondFormatting .always, .field .children .value .always,
     .field .formatting .thirdFormatting .always, .constant "]" .always,
     .field .formatting .fourthFormatting .always]
  | .associativeParenthesis =>
    [.field .formatting .firstFormatting .always, .constant "(" .always,
     .field .formatting .secondFormatting .always, .field .child .value .always,
     .field .formatting .thirdFormatting .always, .constant ")" .always,
     .field .formatting .fourthFormatting .always]
  | .tuple =>
    [.field .formatting .firstFormatting (.whenSet [.withParenthesis]),
     .constant "(" (.whenSet [.withParenthesis]),
     .field .formatting .secondFormatting (.whenSet [.withParenthesis]), .field .children .value .always,
     .field .formatting .thirdFormatting (.whenSet [.withParenthesis]),
     .constant ")" (.whenSet [.withParenthesis]),
     .field .formatting .fourthFormatting (.whenSet [.withParenthesis]), .field .flag .withParenthesis .never]
  | .awaitExpr =>
    [.constant "await" .always, .field .formatting .formatting .always, .field .child .value .always]
  | .funcDef =>
    [.field .children .decorators .always, .field .flag .async .never, .constant "async" (.whenSet [.async]),
     .field .formatting .asyncFormatting (.whenSet [.async]), .constant "def" .always,
     .field .formatting .firstFormatting .always, .field .text .name .always,
     .field .formatting .secondFormatting .always, .constant "(" .always,
     .field .formatting .thirdFormatting .always, .field .children .arguments .always,
     .field .formatting .fourthFormatting .always, .constant ")" .always,
     .field .formatting .returnHintFirstFormatting (.whenSet [.returnHint]),
     .constant "->" (.whenSet [.returnHint]),
     .field .formatting .returnHintSecondFormatting (.whenSet [.returnHint]),
     .field .child .returnHint (.whenSet [.returnHint]), .field .formatting .fifthFormatting .always,
     .constant ":" .always, .field .formatting .sixthFormatting .always, .field .children .value .always]
  | .callArgument =>
    [.field .child .target (.whenSet [.target]), .field .formatting .firstFormatting (.whenSet [.target]),
     .constant "=" (.whenSet [.target]), .field .formatting .secondFormatting (.whenSet [.target]),
     .field .child .value .always]
  | .defArgument =>
    [.field .child .target .always, .field .formatting .hintFirstFormatting (.whenSet [.hint]),
     .constant ":" (.whenSet [.hint]), .field .formatting .hintSecondFormatting (.whenSet [.hint]),
     .field .child .hint (.whenSet [.hint]), .field .formatting .firstFormatting (.whenSet [.value]),
     .constant "=" (.whenSet [.value]), .field .formatting .secondFormatting (.whenSet [.value]),
     .field .child .value (.whenSet [.value])]
  | .listArgument =>
    [.constant "*" .always, .field .formatting .formatting .always, .field .child .value .always,
     .field .formatting .hintFirstFormatting (.whenSet [.hint]), .constant ":" (.whenSet [.hint]),
     .field .formatting .hintSecondFormatting (.whenSet [.hint]), .field .child .hint (.whenSet [.hint])]
  | .kwargsOnlyMarker =>
    [.constant "*" .always, .field .formatting .formatting .always]
  | .dictArgument =>
    [.constant "**" .always, .field .formatting .formatting .always, .field .child .value .always,
     .field .formatting .hintFirstFormatting (.whenSet [.hint]), .constant ":" (.whenSet [.hint]),
     .field .formatting .hintSecondFormatting (.whenSet [.hint]), .field .child .hint (.whenSet [.hint])]
  | .returnStmt =>
    [.constant "return" .always, .field .formatting .formatting .always,
     .field .child .value (.whenSet [.value])]
  | .raiseStmt =>
    [.constant "raise" .always, .field .formatting .firstFormatting .always,
     .field .child .value (.whenSet [.value]),
     .field .formatting .secondFormatting (.whenSet [.instanceValue]),
     .field .text .commaOrFrom (.whenSet [.instanceValue]),
     .field .formatting .thirdFormatting (.whenSet [.instanceValue]),
     .field .child .instanceValue (.whenSet [.instanceValue]),
     .field .formatting .fourthFormatting (.whenSet [.traceback]), .constant "," (.whenSet [.traceback]),
     .field .formatting .fifthFormatting (.whenSet [.traceback]),
     .field .child .traceback (.whenSet [.traceback])]
  | .assertStmt =>
    [.constant "assert" .always, .field .formatting .firstFormatting .always, .field .child .value .always,
     .field .formatting .secondFormatting (.whenSet [.message]), .constant "," (.whenSet [.message]),
     .field .formatting .thirdFormatting (.whenSet [.message]), .field .child .message (.whenSet [.message])]
  | .setComprehension | .dictComprehension =>
    [.field .formatting .firstFormatting .always, .constant "\x7b" .always,
     .field .formatting .secondFormatting .always, .field .child .result .always,
     .field .children .generators .always, .field .formatting .thirdFormatting .always,
     .constant "\x7d" .always, .field .formatting .fourthFormatting .always]
  | .argumentGenerator =>
    [.field .child .result .always, .field .children .generators .always]
  | .generatorComprehension =>
    [.field .formatting .firstFormatting .always, .constant "(" .always,
     .field .formatting .secondFormatting .always, .field .child .result .always,
     .field .children .generators .always, .field .formatting .thirdFormatting .always, .constant ")" .always,
     .field .formatting .fourthFormatting .always]
  | .listComprehension =>
    [.field .formatting .firstFormatting .always, .constant "[" .always,
     .field .formatting .secondFormatting .always, .field .child .result .always,
     .field .children .generators .always, .field .formatting .thirdFormatting .always, .constant "]" .always,
     .field .formatting .fourthFormatting .always]
  | .comprehensionLoop =>
    [.field .formatting .firstFormatting .always, .constant "for" .always,
     .field .formatting .secondFormatting .always, .field .child .iterator .always,
     .field .formatting .thirdFormatting .always, .constant "in" .always,
     .field .formatting .fourthFormatting .always, .field .child .target .always,
     .field .children .ifs .always]
  | .comprehensionIf =>
    [.field .formatting .firstFormatting .always, .constant "if" .always,
     .field .formatting .secondFormatting .always, .field .child .value .always]
  | .getitem =>
    [.field .formatting .firstFormatting .always, .constant "[" .always,
     .field .formatting .secondFormatting .always, .field .child .value .always,
     .field .formatting .thirdFormatting .always, .constant "]" .always,
     .field .formatting .fourthFormatting .always]
  | .slice =>
    [.field .child .lower (.whenSet [.lower]), .field .formatting .firstFormatting .always,
     .constant ":" .always, .field .formatting .secondFormatting .always,
     .field .child .upper (.whenSet [.upper]), .field .formatting .thirdFormatting (.whenSet [.hasTwoColons]),
     .constant ":" (.whenSet [.hasTwoColons]),
     .field .formatting .fourthFormatting (.whenSet [.hasTwoColons]),
     .field .child .step (.whenSet [.hasTwoColons, .step]), .field .flag .hasTwoColons .never]
  | .assignment =>
    [.field .child .target .always, .field .formatting .hintFirstFormatting (.whenSet [.hint]),
     .constant ":" (.whenSet [.hint]), .field .formatting .hintSecondFormatting (.whenSet [.hint]),
     .field .child .hint (.whenSet [.hint]), .field .formatting .firstFormatting .always,
     .field .text .operator (.whenSet [.operator]), .constant "=" (.whenSet [.target]),
     .field .formatting .secondFormatting .always, .field .child .value .always]
  | .standaloneHint =>
    [.field .child .target .always, .field .formatting .firstFormatting .always, .constant ":" .always,
     .field .formatting .secondFormatting .always, .field .child .hint .always]
  | .unitaryOperator =>
    [.field .text .value .always, .field .formatting .formatting .always, .field .child .target .always]
  | .binaryOperator | .booleanOperator =>
    [.field .child .first .always, .field .formatting .firstFormatting .always, .field .text .value .always,
     .field .formatting .secondFormatting .always, .field .child .second .always]
  | .comparisonOperator =>
    [.field .text .first .always, .field .formatting .formatting .always,
     .field .text .second (.whenSet [.second])]
  | .comparison =>
    [.field .child .first .always, .field .formatting .firstFormatting .always, .field .child .value .always,
     .field .formatting .secondFormatting .always, .field .child .second .always]
  | .withStmt =>
    [.field .flag .async .never, .constant "async" (.whenSet [.async]),
     .field .formatting .asyncFormatting (.whenSet [.async]), .constant "with" .always,
     .field .formatting .firstFormatting .always, .field .children .contexts .always,
     .field .formatting .secondFormatting .always, .constant ":" .always,
     .field .formatting .thirdFormatting .always, .field .children .value .always]
  | .withContextItem =>
    [.field .child .value .always, .field .formatting .firstFormatting (.whenSet [.alias]),
     .constant "as" (.whenSet [.alias]), .field .formatting .secondFormatting (.whenSet [.alias]),
     .field .child .alias (.whenSet [.alias])]
  | .nonlocalStmt =>
    [.constant "nonlocal" .always, .field .formatting .formatting .always, .field .children .value .always]
  | .delStmt =>
    [.constant "del" .always, .field .formatting .formatting .always, .field .child .value .always]
  | .yieldExpr =>
    [.constant "yield" .always, .field .formatting .formatting .always,
     .field .child .value (.whenSet [.value])]
  | .yieldFrom =>
    [.constant "yield" .always, .field .formatting .formatting .always, .constant "from" .always,
     .field .formatting .firstFormatting .always, .field .child .value (.whenSet [.value])]
  | .yieldAtom =>
    [.constant "(" .always, .field .formatting .firstFormatting .always, .constant "yield" .always,
     .field .formatting .secondFormatting .always, .field .child .value (.whenSet [.value]),
     .field .formatting .thirdFormatting .always, .constant ")" .always]
  | .execStmt =>
    [.constant "exec" .always, .field .formatting .firstFormatting .always, .field .child .value .always,
     .field .formatting .secondFormatting (.whenSet [.globals]), .constant "in" (.whenSet [.globals]),
     .field .formatting .thirdFormatting (.whenSet [.globals]), .field .child .globals (.whenSet [.globals]),
     .field .formatting .fourthFormatting (.whenSet [.locals]), .constant "," (.whenSet [.locals]),
     .field .formatting .fifthFormatting (.whenSet [.locals]), .field .child .locals (.whenSet [.locals])]
  | .globalStmt =>
    [.constant "global" .always, .field .formatting .formatting .always, .field .children .value .always]
  | .whileLoop =>
    [.constant "while" .always, .field .formatting .firstFormatting .always, .field .child .test .always,
     .field .formatting .secondFormatting .always, .constant ":" .always,
     .field .formatting .thirdFormatting .always, .field .children .value .always,
     .field .child .elseBranch (.whenSet [.elseBranch])]
  | .forLoop =>
    [.field .flag .async .never, .constant "async" (.whenSet [.async]),
     .field .formatting .asyncFormatting (.whenSet [.async]), .constant "for" .always,
     .field .formatting .firstFormatting .always, .field .child .iterator .always,
     .field .formatting .secondFormatting .always, .constant "in" .always,
     .field .formatting .thirdFormatting .always, .field .child .target .always,
     .field .formatting .fourthFormatting .always, .constant ":" .always,
     .field .formatting .fifthFormatting .always, .field .children .value .always,
     .field .child .elseBranch (.whenSet [.elseBranch])]
  | .ifBranch =>
    [.constant "if" .always, .field .formatting .firstFormatting .always, .field .child .test .always,
     .field .formatting .secondFormatting .always, .constant ":" .always,
     .field .formatting .thirdFormatting .always, .field .children .value .always]
  | .elifBranch =>
    [.constant "elif" .always, .field .formatting .firstFormatting .always, .field .child .test .always,
     .field .formatting .secondFormatting .always, .constant ":" .always,
     .field .formatting .thirdFormatting .always, .field .children .value .always]
  | .elseBranch =>
    [.constant "else" .always, .field .formatting .firstFormatting .always, .constant ":" .always,
     .field .formatting .secondFormatting .always, .field .children .value .always]
  | .lambdaExpr =>
    [.constant "lambda" .always, .field .formatting .firstFormatting .always,
     .field .children .arguments .always, .field .formatting .secondFormatting .always, .constant ":" .always,
     .field .formatting .thirdFormatting .always, .field .child .value .always]
  | .tryStmt =>
    [.constant "try" .always, .field .formatting .firstFormatting .always, .constant ":" .always,
     .field .formatting .secondFormatting .always, .field .children .value .always,
     .field .children .excepts .always, .field .child .elseBranch (.whenSet [.elseBranch]),
     .field .child .finallyBranch (.whenSet [.finallyBranch])]
  | .exceptBranch =>
    [.constant "except" .always, .field .formatting .firstFormatting .always,
     .field .child .exception (.whenSet [.exception]),
     .field .formatting .secondFormatting (.whenSet [.delimiter]),
     .field .text .delimiter (.whenSet [.delimiter]),
     .field .formatting .thirdFormatting (.whenSet [.delimiter]),
     .field .child .target (.whenSet [.delimiter]), .field .formatting .fourthFormatting .always,
     .constant ":" .always, .field .formatting .fifthFormatting .always, .field .children .value .always]
  | .finallyBranch =>
    [.constant "finally" .always, .field .formatting .firstFormatting .always, .constant ":" .always,
     .field .formatting .secondFormatting .always, .field .children .value .always]
  | .dict | .set =>
    [.field .formatting .firstFormatting .always, .constant "\x7b" .always,
     .field .formatting .secondFormatting .always, .field .children .value .always,
     .field .formatting .thirdFormatting .always, .constant "\x7d" .always,
     .field .formatting .fourthFormatting .always]
  | .dictItem =>
    [.field .child .key .always, .field .formatting .firstFormatting .always, .constant ":" .always,
     .field .formatting .secondFormatting .always, .field .child .value .always]
  | .importStmt =>
    [.field .formatting .firstFormatting .always, .constant "import" .always,
     .field .formatting .secondFormatting .always, .field .children .value .always]
  | .fromImport =>
    [.constant "from" .always, .field .formatting .firstFormatting .always, .field .children .value .always,
     .field .formatting .secondFormatting .always, .constant "import" .always,
     .field .formatting .thirdFormatting .always, .field .children .targets .always]
  | .dottedAsName =>
    [.field .children .value .always, .field .formatting .firstFormatting (.whenSet [.target]),
     .constant "as" (.whenSet [.target]), .field .formatting .secondFormatting (.whenSet [.target]),
     .field .text .target (.whenSet [.target])]
  | .nameAsName =>
    [.field .text .value .always, .field .formatting .firstFormatting (.whenSet [.target]),
     .constant "as" (.whenSet [.target]), .field .formatting .secondFormatting (.whenSet [.target]),
     .field .text .target (.whenSet [.target])]
  | .printStmt =>
    [.constant "print" .always, .field .formatting .formatting .always,
     .constant ">>" (.whenSet [.destination]),
     .field .formatting .destinationFormatting (.whenSet [.destination]),
     .field .child .destination (.whenSet [.destination]), .field .children .value (.whenSet [.value])]

end CodeTree
