import CodeTree.Text.Lines

/-! # Sample programs

The programs that workloads run on. One has nearly every kind of statement and expression; the others
are made to measure.
-/
namespace CodeTree.Workload

/-- A program with nearly every kind of statement and expression. -/
def sample : String := Text.unlines [
  "import os, sys as system",
  "from collections import OrderedDict as OD, defaultdict",
  "",
  "@decorator",
  "@other.decorator(arg, key=1)",
  "class Thing(Base, object):",
  "    '''doc'''",
  "    attr = [1, 2, 3, 4]",
  "    data = \x7b'a': 1, 'b': 2\x7d",
  "    tup = (1, 2, 3)",
  "    st = \x7b1, 2, 3\x7d",
  "",
  "    def method(self, a, b=1, *args, **kw):",
  "        x = a + b * 2 - 1",
  "        y = a and b or (not a)",
  "        z = a if b else -a",
  "        lst = [i for i in range(10) if i > 2]",
  "        gen = (i for i in range(3))",
  "        dct = \x7bk: v for k, v in items\x7d",
  "        stc = \x7bi for i in range(3)\x7d",
  "        chain = \"a\" \"b\" \"c\"",
  "        self.attr[1:5:2] = value",
  "        assert x, \"boom\"",
  "        del y",
  "        global attr",
  "        print >>out, x, y",
  "        exec code in g, l",
  "        raise ValueError, \"msg\", tb",
  "        try:",
  "            with open(p) as fh, ctx:",
  "                while x < 10:",
  "                    x += 1",
  "                    yield x",
  "        except ValueError as e:",
  "            pass",
  "        except:",
  "            pass",
  "        else:",
  "            pass",
  "        finally:",
  "            pass",
  "        for i in range(3):",
  "            return i",
  "        return lambda q, r=2: q + r",
  "",
  "a = `repr`",
  "b = 0b101",
  "c = func(x for x in y)",
  "if cond:",
  "    pass",
  "elif other:",
  "    pass",
  ""]

def copies (n : Int) (text : String) : String := String.join (List.replicate n.toNat text)

def words (n : Int) (word : Nat → String) : List String := (List.range n.toNat).map word

/-- Lists of `n` numbers in different brackets, and two lists of fixed length. -/
def bracketProgram (n : Int) : String :=
  let numbers := String.intercalate ", " (words n toString)
  Text.unlines [
    "a = [" ++ numbers ++ "]",
    "b = \x7b" ++ numbers ++ "\x7d",
    "c = (" ++ numbers ++ ",)",
    "d = \x7b0: 0, 1: 1, 2: 2\x7d",
    "e = [",
    "    1,",
    "    2,",
    "    3,",
    "]",
    ""]

/-- A dotted name of `n` parts, as an expression and in an import. -/
def dottedProgram (n : Int) : String :=
  let dotted := String.intercalate "." (words n (fun i => "seg" ++ toString i))
  Text.unlines ["x = " ++ dotted, "import " ++ dotted ++ " as alias", ""]

def blockProgram (n : Int) : String :=
  let body := words n (fun i => "        v" ++ toString i ++ " = " ++ toString i)
  Text.unlines [
    "class C(object):",
    "    @dec",
    "    def outer(self):",
    String.intercalate "\n" body,
    "",
    "    def inner(self):",
    "        pass",
    "other = 1",
    ""]

end CodeTree.Workload
