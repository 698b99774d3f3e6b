/-! # Fields and attributes

A field is an attribute that some kind of node renders. Attributes in general have any name, so that
a name which is no field is kept as it is.
-/
namespace CodeTree

inductive Field where
  | type | value | formatting | indent | firstFormatting | secondFormatting | first
  | thirdFormatting | fourthFormatting | second | call | decorators | name | inheritFrom
  | fifthFormatting | sixthFormatting | parenthesis | withParenthesis | async | asyncFormatting
  | arguments | returnHintFirstFormatting | returnHintSecondFormatting | returnHint | target
  | hintFirstFormatting | hintSecondFormatting | hint | commaOrFrom | instanceValue | traceback
  | message | result | generators | iterator | ifs | lower | upper | step | hasTwoColons
  | operator | contexts | alias | globals | locals | test | elseBranch | excepts | finallyBranch
  | exception | delimiter | key | targets | destinationFormatting | destination
deriving DecidableEq, Repr, Inhabited

namespace Field

def word : Field → String
  | .type => "type"
  | .value => "value"
  | .formatting => "formatting"
  | .indent => "indent"
  | .firstFormatting => "first_formatting"
  | .secondFormatting => "second_formatting"
  | .first => "first"
  | .thirdFormatting => "third_formatting"
  | .fourthFormatting => "fourth_formatting"
  | .second => "second"
  | .call => "call"
  | .decorators => "decorators"
  | .name => "name"
  | .inheritFrom => "inherit_from"
  | .fifthFormatting => "fifth_formatting"
  | .sixthFormatting => "sixth_formatting"
  | .parenthesis => "parenthesis"
  | .withParenthesis => "with_parenthesis"
  | .async => "async"
  | .asyncFormatting => "async_formatting"
  | .arguments => "arguments"
  | .returnHintFirstFormatting => "return_annotation_first_formatting"
  | .returnHintSecondFormatting => "return_annotation_second_formatting"
  | .returnHint => "return_annotation"
  | .target => "target"
  | .hintFirstFormatting => "annotation_first_formatting"
  | .hintSecondFormatting => "annotation_second_formatting"
  | .hint => "annotation"
  | .commaOrFrom => "comma_or_from"
  | .instanceValue => "instance"
  | .traceback => "traceback"
  | .message => "message"
  | .result => "result"
  | .generators => "generators"
  | .iterator => "iterator"
  | .ifs => "ifs"
  | .lower => "lower"
  | .upper => "upper"
  | .step => "step"
  | .hasTwoColons => "has_two_colons"
  | .operator => "operator"
  | .contexts => "contexts"
  | .alias => "as"
  | .globals => "globals"
  | .locals => "locals"
  | .test => "test"
  | .elseBranch => "else"
  | .excepts => "excepts"
  | .finallyBranch => "finally"
  | .exception => "exception"
  | .delimiter => "delimiter"
  | .key => "key"
  | .targets => "targets"
  | .destinationFormatting => "destination_formatting"
  | .destination => "destination"

def all : List Field := [
  .type, .value, .formatting, .indent, .firstFormatting, .secondFormatting, .first,
  .thirdFormatting, .fourthFormatting, .second, .call, .decorators, .name, .inheritFrom,
  .fifthFormatting, .sixthFormatting, .parenthesis, .withParenthesis, .async, .asyncFormatting,
  .arguments, .returnHintFirstFormatting, .returnHintSecondFormatting, .returnHint, .target,
  .hintFirstFormatting, .hintSecondFormatting, .hint, .commaOrFrom, .instanceValue, .traceback,
  .message, .result, .generators, .iterator, .ifs, .lower, .upper, .step, .hasTwoColons,
  .operator, .contexts, .alias, .globals, .locals, .test, .elseBranch, .excepts, .finallyBranch,
  .exception, .delimiter, .key, .targets, .destinationFormatting, .destination]

def ofWord? (word : String) : Option Field := all.find? (fun f => f.word == word)

end Field

inductive Attr where
  | field (f : Field)
  | other (name : String)
deriving DecidableEq, Repr, Inhabited

namespace Attr

def word : Attr → String
  | .field f => f.word
  | .other s => s

def ofWord (word : String) : Attr :=
  match Field.ofWord? word with
  | some f => .field f
  | none => .other word

def root : Attr := .other "root"

end Attr

end CodeTree
