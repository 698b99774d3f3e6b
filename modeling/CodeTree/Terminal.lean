/-! # Where output goes

Short forms of nodes are shown differently at a terminal, and colours are used only inside an
interactive notebook whose user wants them.
-/
namespace CodeTree

/-- What standard output is connected to. -/
inductive Output where
  | pipe
  | buffer
  | terminal
  /-- An object that cannot name its file. -/
  | noFile
  /-- An object that fails when asked for its file. -/
  | broken
deriving DecidableEq, Repr

/-- Whether someone is reading along: at a terminal, or through a buffer in memory. -/
def Output.interactive : Output → Bool
  | .buffer | .terminal => true
  | .pipe | .noFile | .broken => false

def colourful (wanted notebook : Bool) : Bool := wanted && notebook

end CodeTree
