import CodeTree.Text.Lines
import CodeTree.Text.Quoted

/-! # Tokens of help text

The description of a node is cut into tokens for display. The rules are tried in order at each
position and the first that takes something wins; a character that no rule takes is a token of its
own. Every rule takes a proper beginning of the rest, so cutting ends.
-/
namespace CodeTree.HelpTokens

open CodeTree.Text

inductive TokenSort where
  | comment | literal | keyword | function | operator | plain | error
deriving DecidableEq, Repr

def TokenSort.word : TokenSort → String
  | .comment => "Token.Comment"
  | .literal => "Token.Literal.String"
  | .keyword => "Token.Keyword"
  | .function => "Token.Name.Function"
  | .operator => "Token.Operator"
  | .plain => "Token.Text"
  | .error => "Token.Error"

structure Token where
  sort : TokenSort
  text : List Char
deriving DecidableEq, Repr

def unixLines : List Char → List Char
  | [] => []
  | '\r' :: '\n' :: rest => '\n' :: unixLines rest
  | c :: rest => (if c = '\r' then '\n' else c) :: unixLines rest

/-- The text that is cut: no byte-order mark in front, line feeds as line ends, none of them at
either end but one at the last. -/
def prepare (text : String) : List Char :=
  let unmarked := match text.toList with
    | c :: rest => if c.toNat = 65279 then rest else c :: rest
    | [] => []
  let isEnd := fun c : Char => c == '\n'
  let trimmed := (((unixLines unmarked).dropWhile isEnd).reverse.dropWhile isEnd).reverse
  trimmed ++ ['\n']

/-- How many characters a quoted text takes after its opening quote. -/
def quotedLength (quote : Char) : List Char → Option Nat
  | [] => none
  | '\\' :: c :: rest => if c = '\n' then none else (quotedLength quote rest).map (· + 2)
  | c :: rest =>
    if c = quote then some 1 else if c = '\\' then none else (quotedLength quote rest).map (· + 1)

/-- The length of the longest beginning of a word that ends in the given suffix and has at least
one character before it. -/
def lengthUpTo (suffix word : List Char) : Option Nat :=
  ((List.range (word.length + 1)).reverse.find? (fun n =>
    suffix.length < n && suffix.isSuffixOf (word.take n)))

/-- The name of a node class at the beginning of the rest. -/
def classNameLength (s : List Char) : Option Nat := lengthUpTo "Node".toList (s.takeWhile isWord)

def operators : List (List Char) := ["*", "=", "->", "(", ")", "..."].map String.toList

def constants : List (List Char) := ["None", "False", "True"].map String.toList

/-- The next token or two: their sorts and lengths. -/
def rule (s : List Char) : List (TokenSort × Nat) :=
  match s with
  | [] => []
  | c :: rest =>
    if c = '#' then [(.comment, 1 + (rest.takeWhile (· != '\n')).length)]
    else
      match (if c = singleQuote ∨ c = doubleQuote then quotedLength c rest else none) with
      | some n => [(.literal, n + 1)]
      | none =>
        match constants.find? (·.isPrefixOf s) with
        | some constant => [(.literal, constant.length)]
        | none =>
          match (match c, rest with
            | '*', ' ' :: more => classNameLength more
            | _, _ => none) with
          | some n => [(.operator, 1), (.keyword, n + 1)]
          | none =>
            match classNameLength s with
            | some n => [(.function, n)]
            | none =>
              match operators.find? (·.isPrefixOf s) with
              | some op => [(.operator, op.length)]
              | none =>
                if isWord c then [(.plain, 1 + (rest.takeWhile isWord).length)]
                else if isBlank c then [(.plain, 1 + (rest.takeWhile isBlank).length)]
                else [(.error, 1)]

/-- Cuts tokens of the given sorts and lengths off a text. -/
def cut : List (TokenSort × Nat) → List Char → List Token × List Char
  | [], s => ([], s)
  | (sort, n) :: more, s =>
    let (tokens, rest) := cut more (s.drop n)
    (⟨sort, s.take n⟩ :: tokens, rest)

/-- Cuts a text into tokens; `fuel` bounds their number. -/
def tokensFrom : Nat → List Char → List Token
  | 0, _ => []
  | _ + 1, [] => []
  | fuel + 1, s =>
    let (tokens, rest) := cut (rule s) s
    tokens ++ tokensFrom fuel rest

def tokens (text : String) : List Token :=
  let s := prepare text
  tokensFrom s.length s

end CodeTree.HelpTokens
