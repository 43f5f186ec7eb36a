import MaterialOpenWebui.Py.Value
import MaterialOpenWebui.Py.Numeral

/-!
# `Py.Json` — `json.dumps` and `json.loads`

The two functions with their defaults: `dumps` writes ASCII only, with `", "` and `": "` between, and what `loads` does
not take is `none`. A text that `loads` reads may hold any code point; an escaped high surrogate and the escaped low one
after it are one character.

What the machine does with floats is a parameter, `Floats`: to which float a number is rounded, and which numeral `repr`
writes.
-/

namespace Py

/-- The floats of the machine: `round` to the nearest, and the numeral of `repr`, which is read as the float again. -/
structure Floats where
  round : Rat → Rat
  repr : Rat → Numeral
  valid : ∀ x, (repr x).Valid
  isInt : ∀ x, (repr x).isInt = false
  round_repr : ∀ x, round x = x → round (repr x).value = x

/-! ## Writing -/

def CodePoint.ofNat (n : Nat) : CodePoint :=
  if h : n < 0x110000 then
    ⟨UInt32.ofNat n, by
      rw [UInt32.toNat_ofNat_of_lt' (by show n < 2 ^ 32; omega)]
      exact h⟩
  else ⟨0, by decide⟩

def CodePoint.toNat (c : CodePoint) : Nat := c.val.toNat

/-- A code unit as an escape. -/
def unicodeEscape (n : Nat) : Str :=
  [ofChar '\x5c', ofChar 'u', ofChar (n / 4096 % 16).digitChar, ofChar (n / 256 % 16).digitChar,
    ofChar (n / 16 % 16).digitChar, ofChar (n % 16).digitChar]

/-- The surrogates of a code point beyond the basic plane. -/
def highOf (n : Nat) : Nat := 0xd800 + (n - 0x10000) / 0x400

def lowOf (n : Nat) : Nat := 0xdc00 + (n - 0x10000) % 0x400

/-- The letter of an escape of two characters. -/
def escapeLetter? (c : CodePoint) : Option CodePoint :=
  if c = ofChar '\x22' then some (ofChar '\x22')
  else if c = ofChar '\x5c' then some (ofChar '\x5c')
  else if c = ofChar '\x0a' then some (ofChar 'n')
  else if c = ofChar '\x0d' then some (ofChar 'r')
  else if c = ofChar '\x09' then some (ofChar 't')
  else if c = ofChar '\x0c' then some (ofChar 'f')
  else if c = ofChar '\x08' then some (ofChar 'b')
  else none

def escapeChar (c : CodePoint) : Str :=
  match escapeLetter? c with
  | some e => [ofChar '\x5c', e]
  | none =>
    if 0x20 ≤ c.toNat ∧ c.toNat ≤ 0x7e then [c]
    else if c.toNat < 0x10000 then unicodeEscape c.toNat
    else unicodeEscape (highOf c.toNat) ++ unicodeEscape (lowOf c.toNat)

def encodeString (s : Str) : Str := ofChar '\x22' :: (s.flatMap escapeChar ++ [ofChar '\x22'])

/-- `", ".join(ts)`. -/
def commaJoin : List Str → Str
  | [] => []
  | [t] => t
  | t :: t' :: ts => t ++ ofChar ',' :: ofChar ' ' :: commaJoin (t' :: ts)

def itemText (k : Str) (t : Str) : Str := encodeString k ++ ofChar ':' :: ofChar ' ' :: t

mutual
/-- `json.dumps(v)`. -/
def dumps (fl : Floats) : Val → Str
  | .none => py "null"
  | .bool true => py "true"
  | .bool false => py "false"
  | .int n => (intNumeral n).text
  | .float x => (fl.repr x).text
  | .str s => encodeString s
  | .list vs => ofChar '[' :: (commaJoin (dumpsElems fl vs) ++ [ofChar ']'])
  | .dict items => ofChar '{' :: (commaJoin (dumpsItems fl [] items) ++ [ofChar '}'])

def dumpsElems (fl : Floats) : List Val → List Str
  | [] => []
  | v :: vs => dumps fl v :: dumpsElems fl vs

/-- The first item of every key that was not seen. -/
def dumpsItems (fl : Floats) : List Str → List (Str × Val) → List Str
  | _, [] => []
  | seen, (k, v) :: items =>
    if k ∈ seen then dumpsItems fl seen items else itemText k (dumps fl v) :: dumpsItems fl (k :: seen) items
end

/-! ## Reading -/

def CodePoint.isHigh (c : CodePoint) : Bool := 0xd800 ≤ c.toNat && c.toNat < 0xdc00

def CodePoint.isLow (c : CodePoint) : Bool := 0xdc00 ≤ c.toNat && c.toNat < 0xe000

def hexValue (c : CodePoint) : Option Nat :=
  if 48 ≤ c.toNat ∧ c.toNat ≤ 57 then some (c.toNat - 48)
  else if 97 ≤ c.toNat ∧ c.toNat ≤ 102 then some (c.toNat - 87)
  else if 65 ≤ c.toNat ∧ c.toNat ≤ 70 then some (c.toNat - 55)
  else none

def hexUnit (a b c d : CodePoint) : Option CodePoint :=
  match hexValue a, hexValue b, hexValue c, hexValue d with
  | some a, some b, some c, some d => some (.ofNat (a * 4096 + b * 256 + c * 16 + d))
  | _, _, _, _ => none

/-- What an escape of two characters stands for. -/
def letterEscape? (e : CodePoint) : Option CodePoint :=
  if e = ofChar '\x22' then some (ofChar '\x22')
  else if e = ofChar '\x5c' then some (ofChar '\x5c')
  else if e = ofChar '/' then some (ofChar '/')
  else if e = ofChar 'b' then some (ofChar '\x08')
  else if e = ofChar 'f' then some (ofChar '\x0c')
  else if e = ofChar 'n' then some (ofChar '\x0a')
  else if e = ofChar 'r' then some (ofChar '\x0d')
  else if e = ofChar 't' then some (ofChar '\x09')
  else none

/-- The characters of a string literal whose opening quote was taken, each with whether it is the escape of a code unit,
    and what follows the closing quote. -/
def scanUnits : Str → Option (List (CodePoint × Bool) × Str)
  | [] => none
  | c :: r =>
    if c = ofChar '\x22' then some ([], r)
    else if c = ofChar '\x5c' then
      match r with
      | [] => none
      | e :: r =>
        if e = ofChar 'u' then
          match r with
          | h₁ :: h₂ :: h₃ :: h₄ :: r =>
            match hexUnit h₁ h₂ h₃ h₄ with
            | some u => (scanUnits r).map fun p => ((u, true) :: p.1, p.2)
            | none => none
          | _ => none
        else
          match letterEscape? e with
          | some u => (scanUnits r).map fun p => ((u, false) :: p.1, p.2)
          | none => none
    else if c.toNat < 0x20 then none
    else (scanUnits r).map fun p => ((c, false) :: p.1, p.2)

/-- The character that two surrogates stand for. -/
def pairOf (hi lo : CodePoint) : CodePoint :=
  .ofNat (0x10000 + (hi.toNat - 0xd800) * 0x400 + (lo.toNat - 0xdc00))

/-- Two escapes that are a pair of surrogates are one character. -/
def combine : List (CodePoint × Bool) → Str
  | [] => []
  | [u] => [u.1]
  | u :: w :: us =>
    if u.2 && w.2 && u.1.isHigh && w.1.isLow then pairOf u.1 w.1 :: combine us else u.1 :: combine (w :: us)

def scanString (s : Str) : Option (Str × Str) := (scanUnits s).map fun p => (combine p.1, p.2)

def isWs (c : CodePoint) : Bool := c = ofChar ' ' || c = ofChar '\x09' || c = ofChar '\x0a' || c = ofChar '\x0d'

def skipWs (s : Str) : Str := s.dropWhile isWs

/-- What follows a text that `s` begins with. -/
def literal? (t s : Str) : Option Str := if s.take t.length = t then some (s.drop t.length) else none

/-- An integer, or the float of a numeral with a fraction or an exponent. -/
def numeralValue (fl : Floats) (n : Numeral) : Val :=
  if n.isInt then .int n.toInt else .float (fl.round n.value)

/-- A constant or a number. -/
def scanAtom (fl : Floats) (s : Str) : Option (Val × Str) :=
  match literal? (py "null") s, literal? (py "true") s, literal? (py "false") s with
  | some r, _, _ => some (.none, r)
  | _, some r, _ => some (.bool true, r)
  | _, _, some r => some (.bool false, r)
  | _, _, _ => (scanNumeral s).map fun p => (numeralValue fl p.1, p.2)

mutual
/-- One value, white space before it taken. -/
def scanValue (fl : Floats) : Nat → Str → Option (Val × Str)
  | _, [] => none
  | 0, _ => none
  | n + 1, c :: r =>
    if c = ofChar '\x22' then (scanString r).map fun p => (.str p.1, p.2)
    else if c = ofChar '[' then
      if (skipWs r).head? = some (ofChar ']') then some (.list [], (skipWs r).tail)
      else (scanElems fl n (skipWs r)).map fun p => (.list p.1, p.2)
    else if c = ofChar '{' then
      if (skipWs r).head? = some (ofChar '}') then some (.dict [], (skipWs r).tail)
      else (scanItems fl n (skipWs r)).map fun p => (.dict (Dict.ofList p.1).items, p.2)
    else scanAtom fl (c :: r)

/-- One element or more, and the closing bracket. -/
def scanElems (fl : Floats) : Nat → Str → Option (List Val × Str)
  | 0, _ => none
  | n + 1, s =>
    match scanValue fl n s with
    | none => none
    | some (v, r) =>
      match skipWs r with
      | [] => none
      | d :: r =>
        if d = ofChar ',' then (scanElems fl n (skipWs r)).map fun p => (v :: p.1, p.2)
        else if d = ofChar ']' then some ([v], r)
        else none

/-- One item or more, and the closing brace. -/
def scanItems (fl : Floats) : Nat → Str → Option (List (Str × Val) × Str)
  | 0, _ => none
  | _, [] => none
  | n + 1, q :: r =>
    if q = ofChar '\x22' then
      match scanString r with
      | none => none
      | some (k, r) =>
        match skipWs r with
        | [] => none
        | d :: r =>
          if d = ofChar ':' then
            match scanValue fl n (skipWs r) with
            | none => none
            | some (v, r) =>
              match skipWs r with
              | [] => none
              | d :: r =>
                if d = ofChar ',' then (scanItems fl n (skipWs r)).map fun p => ((k, v) :: p.1, p.2)
                else if d = ofChar '}' then some ([(k, v)], r)
                else none
          else none
    else none
end

/-- `json.loads(text)`. -/
def loads (fl : Floats) (text : Str) : Option Val :=
  match scanValue fl (text.length + 1) (skipWs text) with
  | some (v, r) => if skipWs r = [] then some v else none
  | none => none

/-! ## JSON values -/

/-- No pair of surrogates: in a text of Unicode characters it is one character. -/
def Joined (s : Str) : Prop := s.IsChain fun c d => ¬(c.isHigh = true ∧ d.isLow = true)

instance (s : Str) : Decidable (Joined s) := inferInstanceAs (Decidable (s.IsChain _))

/-- What a text of Unicode characters can be read as. -/
inductive IsJson (fl : Floats) : Val → Prop where
  | none : IsJson fl .none
  | bool (b : Bool) : IsJson fl (.bool b)
  | int (n : Int) : IsJson fl (.int n)
  | float {x : Rat} (h : fl.round x = x) : IsJson fl (.float x)
  | str {s : Str} (h : Joined s) : IsJson fl (.str s)
  | list {vs : List Val} (h : ∀ v ∈ vs, IsJson fl v) : IsJson fl (.list vs)
  | dict {items : List (Str × Val)} (hkeys : (items.map Prod.fst).Nodup) (hjoined : ∀ p ∈ items, Joined p.1)
      (h : ∀ p ∈ items, IsJson fl p.2) : IsJson fl (.dict items)

end Py
