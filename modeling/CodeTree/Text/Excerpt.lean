/-! # Excerpts

A text cut to a length: its first characters, three dots and its last character.
-/
namespace CodeTree.Text

/-- At most `n` characters of a text. Lengths below five are too short to cut to. -/
def truncate (text : String) (n : Int) : String :=
  let cs := text.toList
  if n < 5 ∨ (cs.length : Int) ≤ n then text
  else String.ofList (cs.take (n - 4).toNat ++ ['.', '.', '.'] ++ cs.drop (cs.length - 1))

end CodeTree.Text
