/-! # Lines

Cutting text at line ends. A line end is a carriage return with a line feed, or one of the two alone.
-/
namespace CodeTree.Text

/-- A piece of a text: a line end, or what stands between two of them. -/
inductive Piece where
  | newline (text : List Char)
  | run (text : List Char)
deriving DecidableEq, Repr

/-- Adds a character in front of pieces, as part of the first run. -/
def Piece.push (c : Char) : List Piece → List Piece
  | .run text :: rest => .run (c :: text) :: rest
  | rest => .run [c] :: rest

def pieces : List Char → List Piece
  | [] => []
  | '\r' :: '\n' :: rest => .newline ['\r', '\n'] :: pieces rest
  | c :: rest =>
    if c = '\n' ∨ c = '\r' then .newline [c] :: pieces rest else Piece.push c (pieces rest)

/-- The parts of a text between occurrences of one character. -/
def splitOn (sep : Char) : List Char → List (List Char)
  | [] => [[]]
  | c :: rest =>
    if c = sep then [] :: splitOn sep rest
    else
      match splitOn sep rest with
      | [] => [[c]]
      | part :: parts => (c :: part) :: parts

def lines (s : String) : List String := (splitOn '\n' s.toList).map String.ofList

def unlines (parts : List String) : String := String.intercalate "\n" parts

def indent (margin text : String) : String := unlines ((lines text).map (margin ++ ·))

end CodeTree.Text
