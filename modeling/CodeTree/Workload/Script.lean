import CodeTree.Session.Step
import CodeTree.Workload.Sample

/-! # Scripts

Short ways to say what a workload does: follow attributes, ask by name, find, count and report.
-/
namespace CodeTree.Workload

def ask (v : Value) (name : String) (given : List Value) : Edit Value := call v name (.ofList given)

/-- Does something with a value by name, whatever comes of it. -/
def tell (v : Value) (name : String) (given : List Value) : Edit Unit := do
  let _ ← ask v name given

def along (v : Value) : List String → Read Value
  | [] => pure v
  | word :: rest => do along (← attr v word) rest

def item (v : Value) (i : Int) : Read Value := itemOf v i

def texts (words : List String) : List Value := words.map .text

/-- A list of texts, as something to put into a view. -/
def textList (words : List String) : Edit Value := newPlain (texts words)

/-- The first node with a word, among a value and what hangs below it. -/
def first (v : Value) (word : String) : Edit Value := ask v "find" [.text word]

def count (v : Value) (q : Query) : Edit Nat := return (← findAll q true v).length

def byWord (word : String) : Query := ⟨.text word, [], []⟩

def byValue (word : String) (value : Value) : Query := ⟨.text word, [], [("value", value)]⟩

def typeReport (v : Value) : Read Report := do showValue (← attr v "type")

def textReport (s : String) : Report := .plain (.text s)

def countReport (n : Nat) : Report := .plain (.int n)

def nothing : Report := .plain .null

def lengthReport (v : Value) : Read Report := return countReport (← lengthOf v)

end CodeTree.Workload
