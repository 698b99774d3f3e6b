import CodeTree.Text.Letters

/-! # Integers in text

A decimal integer as people write it: blanks around it, a sign, and single underscores between the
digits are allowed. No more than 4300 digits are read.
-/
namespace CodeTree.Text

/-- Digits with single underscores between them, the most significant first. -/
def digits? : List Char → Option (List Nat)
  | [] => none
  | [c] => (digit? c).map (fun d => [d])
  | c :: '_' :: rest =>
    match digit? c, digits? rest with
    | some d, some ds => some (d :: ds)
    | _, _ => none
  | c :: rest =>
    match digit? c, digits? rest with
    | some d, some ds => some (d :: ds)
    | _, _ => none

def natural? (s : List Char) : Option Nat :=
  match digits? s with
  | none => none
  | some ds => if ds.length ≤ 4300 then some (ds.foldl (fun n d => 10 * n + d) 0) else none

def integer? (s : String) : Option Int :=
  match (strip s).toList with
  | '-' :: rest => (natural? rest).map (fun n => -(n : Int))
  | '+' :: rest => (natural? rest).map (fun n => (n : Int))
  | rest => (natural? rest).map (fun n => (n : Int))

end CodeTree.Text
