import MaterialOpenWebui.Py.Text

/-!
# `Py.Lines` — dividing Python strings

`splitlines`, `split` and `rsplit` with one division, `startswith` and `in`, on sequences of code points.
-/

namespace Py

def startsWith (beginning s : Str) : Bool := beginning.isPrefixOf s

/-- `part in s`. -/
def contains (part s : Str) : Bool := s.tails.any fun rest => part.isPrefixOf rest

/-- `s.split(sep, 1)`: what is before the first separator and what is after it. -/
def splitFirst (sep : CodePoint) : Str → Option (Str × Str)
  | [] => none
  | c :: s => if c = sep then some ([], s) else (splitFirst sep s).map fun parts => (c :: parts.1, parts.2)

/-- `s.rsplit(sep, 1)[-1]`. -/
def afterLast (sep : CodePoint) (s : Str) : Str := (s.reverse.takeWhile (· ≠ sep)).reverse

/-- Where `splitlines` divides. -/
def CodePoint.isLineEnd (c : CodePoint) : Bool :=
  0x0a ≤ c.val && c.val ≤ 0x0d || 0x1c ≤ c.val && c.val ≤ 0x1e || c.val = 0x85 || c.val = 0x2028 || c.val = 0x2029

/-- The lines from a line on that has begun; a line feed right after a carriage return ends no line of its own. -/
def splitlinesFrom (afterReturn : Bool) (line : Str) : Str → List Str
  | [] => if line = [] then [] else [line]
  | c :: s =>
    if afterReturn && c.val = 0x0a then splitlinesFrom false line s
    else if c.isLineEnd then line :: splitlinesFrom (c.val = 0x0d) [] s
    else splitlinesFrom false (line ++ [c]) s

def splitlines (s : Str) : List Str := splitlinesFrom false [] s

/-- `sep.join(parts)`. -/
def join (sep : Str) : List Str → Str
  | [] => []
  | [part] => part
  | part :: parts => part ++ sep ++ join sep parts

end Py
