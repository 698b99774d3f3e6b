/-! # Globs

File-name patterns: a star stands for any characters, a question mark for one, and brackets for one
character of a set. The whole text has to fit.
-/
namespace CodeTree.Text

inductive Glob where
  | many
  | one
  | oneOf (negated : Bool) (ranges : List (Char × Char))
deriving Repr

namespace Glob

/-- Reads what stands between brackets as ranges. -/
def ranges : List Char → List (Char × Char)
  | a :: '-' :: b :: rest => (a, b) :: ranges rest
  | a :: rest => (a, a) :: ranges rest
  | [] => []

/-- The characters before the first closing bracket, and those after it. -/
def upToBracket : List Char → Option (List Char × List Char)
  | [] => none
  | ']' :: rest => some ([], rest)
  | c :: rest => (upToBracket rest).map (fun (inner, more) => (c :: inner, more))

/-- The inside of a set: a closing bracket in first place belongs to it. -/
def inside : List Char → Option (List Char × List Char)
  | ']' :: rest => (upToBracket rest).map (fun (inner, more) => (']' :: inner, more))
  | s => upToBracket s

def readFrom : Nat → List Char → List Glob
  | 0, _ => []
  | _ + 1, [] => []
  | fuel + 1, '*' :: rest => .many :: readFrom fuel rest
  | fuel + 1, '?' :: rest => .one :: readFrom fuel rest
  | fuel + 1, '[' :: '!' :: rest =>
    match inside rest with
    | some (inner, more) => .oneOf true (ranges inner) :: readFrom fuel more
    | none => .oneOf false [('[', '[')] :: readFrom fuel ('!' :: rest)
  | fuel + 1, '[' :: rest =>
    match inside rest with
    | some (inner, more) => .oneOf false (ranges inner) :: readFrom fuel more
    | none => .oneOf false [('[', '[')] :: readFrom fuel rest
  | fuel + 1, c :: rest => .oneOf false [(c, c)] :: readFrom fuel rest

def read (s : String) : List Glob := readFrom s.toList.length s.toList

/-- A star takes some beginning of the rest, the others one character each. -/
def fits : List Glob → List Char → Bool
  | [], s => s.isEmpty
  | .many :: rest, s => someTail (fits rest) s
  | .one :: rest, s =>
    match s with
    | [] => false
    | _ :: more => fits rest more
  | .oneOf negated ranges :: rest, s =>
    match s with
    | [] => false
    | c :: more => (ranges.any (fun (a, b) => a ≤ c && c ≤ b) != negated) && fits rest more
where
  someTail (accepts : List Char → Bool) : List Char → Bool
    | [] => accepts []
    | c :: more => accepts (c :: more) || someTail accepts more

end Glob

def fitsGlob (pattern text : String) : Bool := Glob.fits (Glob.read pattern) text.toList

end CodeTree.Text
