import CodeTree.Fault
import CodeTree.Text.Letters

/-! # Patterns

Regular expressions, matched at the start of a text. A pattern is read from text and then matched
against characters, the alternatives and repetitions in the order of the expression. A round of a
repetition that makes no progress is its last, unless more are asked for, which bounds it by the
length of the rest. Characters cannot be given by their names.
-/
namespace CodeTree.Text

/-- A member of a set of characters. -/
inductive CharClass where
  | range (first last : Nat)
  | word (is : Bool)
  | digit (is : Bool)
  | blank (is : Bool)
deriving Repr

/-- How an expression is to be taken, as the letters `i`, `m`, `s`, `x`, `a` and `u` say. -/
structure Flags where
  ignoreCase : Bool := false
  multiline : Bool := false
  dotAll : Bool := false
  verbose : Bool := false
  ascii : Bool := false
  unicode : Bool := false
deriving Repr

namespace Flags

def set (on : Bool) (f : Flags) : Char → Flags
  | 'i' => { f with ignoreCase := on }
  | 'm' => { f with multiline := on }
  | 's' => { f with dotAll := on }
  | 'x' => { f with verbose := on }
  | 'a' => { f with ascii := on, unicode := false }
  | 'u' => { f with ascii := false, unicode := on }
  | _ => f

def setAll (on : Bool) (f : Flags) (letters : List Char) : Flags := letters.foldl (set on) f

def knows (f : Flags) (c : Char) : Bool := !f.ascii || c.toNat < 128

def isWordChar (f : Flags) (c : Char) : Bool := f.knows c && isWord c

/-- A character with the others that differ from it in case only. -/
def cases (f : Flags) (c : Char) : List Char :=
  let low := (lowerChar c).headD c
  let capitals := lowerRuns.filterMap fun (first, last, stride, shift) =>
    let n := ((low.toNat : Int) - shift).toNat
    if first ≤ n ∧ n ≤ last ∧ (n - first) % stride = 0 then some (Char.ofNat n) else none
  c :: (low :: low.toUpper :: capitals).filter f.knows

/-- Whether the class has the character as it stands. -/
def has (f : Flags) (c : Char) : CharClass → Bool
  | .range first last => first ≤ c.toNat && c.toNat ≤ last
  | .word is => f.isWordChar c == is
  | .digit is => (f.knows c && (digit? c).isSome) == is
  | .blank is => (f.knows c && isBlank c && !(f.ascii && inRanges c.toNat [(28, 31)])) == is

def hasAny (f : Flags) (classes : List CharClass) (c : Char) : Bool :=
  (if f.ignoreCase then f.cases c else [c]).any (fun d => classes.any (f.has d))

def same (f : Flags) (a b : Char) : Bool := a == b || (f.ignoreCase && (f.cases a).contains b)

end Flags

/-- What a repetition tries first: as many rounds as fit, as few, or as many with none given back. -/
inductive Eagerness where
  | greedy
  | sparing
  | keeping
deriving Repr

inductive Pattern where
  | nothing
  | any (f : Flags)
  | oneOf (f : Flags) (negated : Bool) (classes : List CharClass)
  | start (f : Flags)
  | stop (f : Flags)
  | final
  | edge (f : Flags) (is : Bool)
  | seq (a b : Pattern)
  | alt (a b : Pattern)
  | rounds (least : Nat) (most : Option Nat) (e : Eagerness) (a : Pattern)
  | group (i : Nat) (a : Pattern)
  | again (f : Flags) (i : Nat)
  | given (i : Nat) (a b : Pattern)
  | ahead (is : Bool) (a : Pattern)
  | behind (is : Bool) (width : Nat) (a : Pattern)
  | atomic (a : Pattern)
deriving Repr

/-- A place in a text: what stands before it, last character first, the rest, and what the groups
have matched so far. -/
structure Spot where
  before : List Char := []
  rest : List Char
  groups : List (Nat × List Char) := []

namespace Spot

def step (p : Char → Bool) (s : Spot) : Option Spot :=
  match s.rest with
  | [] => none
  | c :: rest => if p c then some { s with before := c :: s.before, rest } else none

def steps (same : Char → Char → Bool) : List Char → Spot → Option Spot
  | [], s => some s
  | c :: cs, s => (s.step (same c)).bind (steps same cs)

def back (n : Nat) (s : Spot) : Option Spot :=
  if s.before.length < n then none
  else some { s with before := s.before.drop n, rest := (s.before.take n).reverse ++ s.rest }

/-- The place `t` with what the group between `s` and it has matched. -/
def close (i : Nat) (s t : Spot) : Spot :=
  { t with groups := (i, s.rest.take (s.rest.length - t.rest.length)) :: t.groups }

def isEdge (f : Flags) (s : Spot) : Bool :=
  s.before.head?.any f.isWordChar != s.rest.head?.any f.isWordChar

/-- Between `least` and `most` rounds of a part, then `k`. -/
def rounds (part : Spot → (Spot → Option Spot) → Option Spot) (sparing : Bool) :
    (most least : Nat) → Spot → (Spot → Option Spot) → Option Spot
  | 0, _, s, k => k s
  | most + 1, least + 1, s, k => part s (fun t => rounds part sparing most least t k)
  | most + 1, 0, s, k =>
    let more := fun () => part s fun t =>
      if t.rest.length < s.rest.length then rounds part sparing most 0 t k else k t
    if sparing then (k s).orElse more else (more ()).orElse (fun _ => k s)

end Spot

namespace Pattern

/-- The place the first way to fit the pattern leads to such that `k` accepts what follows. -/
def fits : Pattern → Spot → (Spot → Option Spot) → Option Spot
  | .nothing, s, k => k s
  | .any f, s, k => (s.step (fun c => f.dotAll || c != '\n')).bind k
  | .oneOf f negated classes, s, k => (s.step (fun c => f.hasAny classes c != negated)).bind k
  | .start f, s, k =>
    if s.before.isEmpty || (f.multiline && s.before.head? == some '\n') then k s else none
  | .stop f, s, k =>
    if s.rest.isEmpty || s.rest == ['\n'] || (f.multiline && s.rest.head? == some '\n') then k s
    else none
  | .final, s, k => if s.rest.isEmpty then k s else none
  | .edge f is, s, k =>
    if (s.before.isEmpty && s.rest.isEmpty) || s.isEdge f != is then none else k s
  | .seq a b, s, k => fits a s (fun t => fits b t k)
  | .alt a b, s, k => (fits a s k).orElse (fun _ => fits b s k)
  | .rounds least most e a, s, k =>
    let most := most.getD (least + s.rest.length)
    match e with
    | .greedy => Spot.rounds (fits a) false most least s k
    | .sparing => Spot.rounds (fits a) true most least s k
    | .keeping => (Spot.rounds (fits a) false most least s some).bind k
  | .group i a, s, k => fits a s (fun t => k (s.close i t))
  | .again f i, s, k => (s.groups.lookup i).bind fun cs => (s.steps f.same cs).bind k
  | .given i a b, s, k => if (s.groups.lookup i).isSome then fits a s k else fits b s k
  | .ahead is a, s, k =>
    match fits a s some with
    | some t => if is then k { s with groups := t.groups } else none
    | none => if is then none else k s
  | .behind is width a, s, k =>
    match (s.back width).bind (fun r =>
      fits a r (fun t => if t.rest.length = s.rest.length then some t else none)) with
    | some t => if is then k { s with groups := t.groups } else none
    | none => if is then none else k s
  | .atomic a, s, k => (fits a s some).bind k

def matchesStart (p : Pattern) (s : String) : Bool := (p.fits { rest := s.toList } some).isSome

/-- The least and, when there is one, the greatest length of a text that fits, given those of the
groups. -/
def extent (groups : List (Nat × Nat × Option Nat)) : Pattern → Nat × Option Nat
  | .any _ | .oneOf .. => (1, some 1)
  | .seq a b =>
    let (least, most) := extent groups a
    let (least', most') := extent groups b
    (least + least', most.bind (fun m => most'.map (m + ·)))
  | .alt a b | .given _ a b =>
    let (least, most) := extent groups a
    let (least', most') := extent groups b
    (min least least', most.bind (fun m => most'.map (max m)))
  | .rounds least most _ a =>
    let (lower, upper) := extent groups a
    (least * lower, if upper = some 0 then some 0 else most.bind (fun m => upper.map (m * ·)))
  | .group _ a | .atomic a => extent groups a
  | .again _ i => (groups.lookup i).getD (0, none)
  | _ => (0, some 0)

/-- Whether a mark of repetition may follow: not after a place, nor after such a mark. -/
def repeatable : Pattern → Bool
  | .start _ | .stop _ | .final | .edge .. | .rounds .. => false
  | _ => true

/-- What has been read of an expression: the rest, the flags in force, the groups opened, those
closed with their lengths, those named, the greatest number asked for, and the number of groups
before the look-behind that is being read. -/
structure Reading where
  rest : List Char
  flags : Flags := {}
  opened : Nat := 0
  closed : List (Nat × Nat × Option Nat) := []
  names : List (String × Nat) := []
  asked : Nat := 0
  behind : Option Nat := none

abbrev Reader := StateT Reading Option

namespace Reader

def fail {α : Type} : Reader α := fun _ => none

def check (b : Bool) : Reader Unit := if b then pure () else fail

def peek : Reader (Option Char) := do return (← get).rest.head?

def next : Reader Char := fun r =>
  match r.rest with
  | [] => none
  | c :: rest => some (c, { r with rest })

def accept (s : String) : Reader Bool := fun r =>
  if s.toList.isPrefixOf r.rest then some (true, { r with rest := r.rest.drop s.length })
  else some (false, r)

def expect (s : String) : Reader Unit := do check (← accept s)

/-- The characters of a sort that come next, `most` at most. -/
def spanOf (p : Char → Bool) (most : Nat) : Reader (List Char) := fun r =>
  let cs := (r.rest.take most).takeWhile p
  some (cs, { r with rest := r.rest.drop cs.length })

def spanAll (p : Char → Bool) : Reader (List Char) := do spanOf p (← get).rest.length

end Reader

open Reader

def isOctal (c : Char) : Bool := '0' ≤ c && c ≤ '7'

def isHex (c : Char) : Bool := c.isDigit || ('a' ≤ c.toLower && c.toLower ≤ 'f')

def digitValue (c : Char) : Nat := if c.isDigit then c.toNat - 48 else c.toLower.toNat - 87

def numeral (base : Nat) (cs : List Char) : Nat := cs.foldl (fun n c => base * n + digitValue c) 0

def readHex (width : Nat) : Reader Nat := do
  let cs ← spanOf isHex width
  check (cs.length == width && numeral 16 cs < 0x110000)
  return numeral 16 cs

def readOctal (c : Char) : Reader Nat := do
  let n := numeral 8 (c :: (← spanOf isOctal 2))
  check (n ≤ 0o377)
  return n

/-- The code of the character that an escape stands for. -/
def readCode (c : Char) : Reader Nat :=
  match c with
  | 'a' => pure 7
  | 'f' => pure 12
  | 'n' => pure 10
  | 'r' => pure 13
  | 't' => pure 9
  | 'v' => pure 11
  | 'x' => readHex 2
  | 'u' => readHex 4
  | 'U' => readHex 8
  | c => if c.isAlphanum then fail else pure c.toNat

def category? : Char → Option CharClass
  | 'w' => some (.word true)
  | 'W' => some (.word false)
  | 'd' => some (.digit true)
  | 'D' => some (.digit false)
  | 's' => some (.blank true)
  | 'S' => some (.blank false)
  | _ => none

def one (n : Nat) : CharClass := .range n n

/-- Reads a member of a set that is no range. -/
def readMember (c : Char) : Reader CharClass := do
  if c != '\\' then return one c.toNat
  let e ← next
  if let some k := category? e then return k
  if e == 'b' then return one 8
  if isOctal e then return one (← readOctal e)
  return one (← readCode e)

/-- Reads the members of a set up to its closing bracket. -/
def readSet : Nat → List CharClass → Reader (List CharClass)
  | 0, _ => fail
  | fuel + 1, read => do
    let c ← next
    if c == ']' && !read.isEmpty then return read
    let a ← readMember c
    if ← accept "-" then
      let d ← next
      if d == ']' then return one 45 :: a :: read
      match a, ← readMember d with
      | .range first _, .range last _ => do
        check (first ≤ last)
        readSet fuel (.range first last :: read)
      | _, _ => fail
    else readSet fuel (a :: read)

/-- The number of a group that may be referred to: it is closed, and it stands before the
look-behind the reference stands in. -/
def readReference (i : Nat) : Reader Pattern := do
  let r ← get
  check ((r.closed.lookup i).isSome && r.behind.all (i ≤ ·))
  return .again r.flags i

/-- Reads what follows a backslash. -/
def readEscape : Reader Pattern := do
  let f := (← get).flags
  let c ← next
  if let some k := category? c then return .oneOf f false [k]
  match c with
  | 'A' => return .start {}
  | 'Z' => return .final
  | 'b' => return .edge f true
  | 'B' => return .edge f false
  | '0' => return .oneOf f false [one (← readOctal c)]
  | _ =>
    if c.isDigit then
      let more ← spanOf Char.isDigit 1
      if (c :: more).all isOctal && !more.isEmpty && (← peek).any isOctal then
        let n := numeral 8 (c :: more ++ [← next])
        check (n ≤ 0o377)
        return .oneOf f false [one n]
      else readReference (numeral 10 (c :: more))
    else return .oneOf f false [one (← readCode c)]

/-- The bounds of a counted repetition, after its opening brace; no bounds when it is none and the
brace stands for itself. -/
def readBounds : Reader (Option (Nat × Option Nat)) := do
  let r ← get
  let lower ← spanAll Char.isDigit
  let comma ← accept ","
  let upper ← if comma then spanAll Char.isDigit else pure lower
  if !(← accept "\x7d") || (lower.isEmpty && !comma) then
    set r
    return none
  let least := numeral 10 lower
  let most := if upper.isEmpty then none else some (numeral 10 upper)
  check (least < 4294967295 && most.all (fun m => least ≤ m && m < 4294967295))
  return some (least, most)

/-- The bounds that the next mark of repetition gives, when one comes next. -/
def readMark : Reader (Option (Nat × Option Nat)) := do
  if ← accept "*" then return some (0, none)
  if ← accept "+" then return some (1, none)
  if ← accept "?" then return some (0, some 1)
  let r ← get
  if ← accept "\x7b" then
    let bounds ← readBounds
    if bounds.isNone then set r
    return bounds
  return none

/-- Passes over remarks and, where the flags say so, over blanks and what follows a hash sign. -/
def skip : Nat → Reader Unit
  | 0 => fail
  | fuel + 1 => do
    if ← accept "(?#" then
      let _ ← spanAll (· != ')')
      expect ")"
      skip fuel
    else if (← get).flags.verbose then
      let blanks ← spanAll (fun c => c == ' ' || (9 ≤ c.toNat && c.toNat ≤ 13))
      if ← accept "#" then
        let _ ← spanAll (· != '\n')
        skip fuel
      else if !blanks.isEmpty then skip fuel

/-- Reads the mark of repetition after a part, when there is one. -/
def readMarked (fuel : Nat) (p : Pattern) : Reader Pattern := do
  skip fuel
  let some (least, most) ← readMark | return p
  check p.repeatable
  let e ← if ← accept "?" then pure .sparing else if ← accept "+" then pure .keeping
    else pure Eagerness.greedy
  skip fuel
  check (← readMark).isNone
  return .rounds least most e p

/-- The name of a group, up to what ends it. -/
def readName (close : String) : Reader String := do
  let name ← spanAll isWord
  expect close
  check (name.head?.any (fun c => (digit? c).isNone))
  return String.ofList name

def readNamed : Reader Nat := do
  let name ← readName ")"
  match (← get).names.lookup name with
  | some i => return i
  | none => fail

/-- The group whose match decides between two patterns, by its number or its name. -/
def readCondition : Reader Nat := do
  if (← peek).any Char.isDigit then
    let i := numeral 10 (← spanAll Char.isDigit)
    expect ")"
    check (0 < i)
    modify (fun r => { r with asked := max i r.asked })
    return i
  else readNamed

def openGroup (name : Option String) : Reader Nat := do
  let r ← get
  check (name.all (fun s => (r.names.lookup s).isNone))
  let i := r.opened + 1
  set { r with opened := i, names := (name.map (·, i)).toList ++ r.names }
  return i

/-- Letters of flags that are turned on together. -/
def readLetters : Reader (List Char) := do
  let letters ← spanAll Char.isAlpha
  check (letters.all ['i', 'm', 's', 'x', 'a', 'u'].contains)
  check (!(letters.contains 'a' && letters.contains 'u'))
  return letters

/-- Reads the flags of a group. -/
def readSwitch : Reader Unit := do
  let added ← readLetters
  let removed ← if ← accept "-" then spanAll Char.isAlpha else pure []
  expect ":"
  check (removed.all (fun c => ['i', 'm', 's', 'x'].contains c && !added.contains c))
  modify (fun r => { r with flags := (r.flags.setAll true added).setAll false removed })

/-- Reads the flags of the whole expression. -/
def readGlobal : Nat → Reader Unit
  | 0 => fail
  | fuel + 1 => do
    skip fuel
    let r ← get
    if (← accept "(?") && (← peek).any (fun c => c.isAlpha && c != 'P') then
      let letters ← readLetters
      if ← accept ")" then
        check (!(letters.contains 'a' && r.flags.unicode))
        check (!(letters.contains 'u' && r.flags.ascii))
        modify (fun r => { r with flags := r.flags.setAll true letters })
        readGlobal fuel
      else set r
    else set r

mutual

/-- Reads alternatives up to the end or a closing parenthesis. -/
def readAlternatives : Nat → Reader Pattern
  | 0 => fail
  | fuel + 1 => do
    let p ← readSequence fuel
    if ← accept "|" then return .alt p (← readAlternatives fuel)
    return p

def readSequence : Nat → Reader Pattern
  | 0 => fail
  | fuel + 1 => do
    skip fuel
    match ← peek with
    | none | some '|' | some ')' => return .nothing
    | _ =>
      let p ← readMarked fuel (← readPart fuel)
      return .seq p (← readSequence fuel)

def readPart : Nat → Reader Pattern
  | 0 => fail
  | fuel + 1 => do
    check (← readMark).isNone
    let f := (← get).flags
    match ← next with
    | '.' => return .any f
    | '^' => return .start f
    | '$' => return .stop f
    | '\\' => readEscape
    | '[' => do
      let negated ← accept "^"
      return .oneOf f negated (← readSet fuel [])
    | '(' => do
      let p ← readGroup fuel
      expect ")"
      modify (fun r => { r with flags := f })
      return p
    | c => return .oneOf f false [one c.toNat]

/-- Reads what stands between parentheses. -/
def readGroup : Nat → Reader Pattern
  | 0 => fail
  | fuel + 1 => do
    if ← accept "?:" then readAlternatives fuel
    else if ← accept "?=" then return .ahead true (← readAlternatives fuel)
    else if ← accept "?!" then return .ahead false (← readAlternatives fuel)
    else if ← accept "?<=" then readBehind fuel true
    else if ← accept "?<!" then readBehind fuel false
    else if ← accept "?>" then return .atomic (← readAlternatives fuel)
    else if ← accept "?P<" then readCapture fuel (some (← readName ">"))
    else if ← accept "?P=" then do
      let p ← readReference (← readNamed)
      modify (fun r => { r with rest := ')' :: r.rest })
      return p
    else if ← accept "?(" then do
      let i ← readCondition
      let r ← get
      check (r.behind.all (fun n => i ≤ n && (r.closed.lookup i).isSome))
      let a ← readSequence fuel
      let b ← if ← accept "|" then readSequence fuel else pure .nothing
      return .given i a b
    else if ← accept "?" then do
      readSwitch
      readAlternatives fuel
    else readCapture fuel none

def readCapture : Nat → Option String → Reader Pattern
  | 0, _ => fail
  | fuel + 1, name => do
    let i ← openGroup name
    let p ← readAlternatives fuel
    modify (fun r => { r with closed := (i, p.extent r.closed) :: r.closed })
    return .group i p

def readBehind : Nat → Bool → Reader Pattern
  | 0, _ => fail
  | fuel + 1, is => do
    let outer := (← get).behind
    modify (fun r => { r with behind := some (outer.getD r.opened) })
    let p ← readAlternatives fuel
    modify (fun r => { r with behind := outer })
    let (least, most) := p.extent (← get).closed
    check (most == some least)
    return .behind is least p

end

def readWhole (fuel : Nat) : Reader Pattern := do
  readGlobal fuel
  let p ← readAlternatives fuel
  let r ← get
  check (r.rest.isEmpty && r.asked ≤ r.opened)
  return p

def read (s : String) : Except Fault Pattern :=
  match (readWhole (6 * s.length + 6)).run { rest := s.toList } with
  | some (p, _) => .ok p
  | none => .error .badPattern

end Pattern

/-- Whether a text begins with what a regular expression describes. -/
def fitsPattern (pattern text : String) : Except Fault Bool :=
  (Pattern.read pattern).map (fun p => p.matchesStart text)

end CodeTree.Text
