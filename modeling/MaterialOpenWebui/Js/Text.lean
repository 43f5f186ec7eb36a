import Mathlib.Algebra.Group.Nat.Defs
import Mathlib.Data.List.Sort

/-!
# `Js.Text` — JavaScript strings as sequences of UTF-16 code units

A JavaScript string is not a sequence of characters: `length`, `slice` and `<` all work on 16-bit code
units, a slice may cut a surrogate pair in two, and `<` orders an astral character below `U+E000`.
Everything that measures, cuts or compares a string here therefore does it on `JsString`, and only the
two encoders of the platform (`JSON.stringify` and `TextEncoder`) go through Unicode scalar values.
-/

namespace Js

/-- A JavaScript string: a sequence of UTF-16 code units. -/
abbrev JsString := List UInt16

instance : LawfulBEq JsString := inferInstanceAs (LawfulBEq (List UInt16))

/-- What is said of all units of a text is checked on these units, and not on all units there are. -/
instance (priority := 2000) decidableUnits (P : UInt16 → Prop) [DecidablePred P] (s : JsString) : Decidable (∀ u ∈ s, P u) :=
  List.decidableBAll P s

/-- The code units of one Unicode scalar value: one, or a surrogate pair. -/
def units (c : Char) : JsString :=
  if c.toNat < 0x10000 then [UInt16.ofNat c.toNat]
  else [UInt16.ofNat (0xD800 + (c.toNat - 0x10000) / 0x400),
        UInt16.ofNat (0xDC00 + (c.toNat - 0x10000) % 0x400)]

/-- A text as a JavaScript string. -/
def ofChars (cs : List Char) : JsString := cs.flatMap units

/-- A string literal of the source. -/
def js (s : String) : JsString := ofChars s.toList

/-- A natural number as text. -/
def natText (n : Nat) : JsString := ofChars (Nat.toDigits 10 n)

theorem ofChars_cons (c : Char) (cs : List Char) : ofChars (c :: cs) = units c ++ ofChars cs := by
  simp [ofChars]

/-- White space: what `trim` removes and `\s` matches. -/
def isSpace (u : UInt16) : Bool :=
  [0x09, 0x0a, 0x0b, 0x0c, 0x0d, 0x20, 0xa0, 0x1680, 0x2028, 0x2029, 0x202f, 0x205f, 0x3000,
    0xfeff].contains u || 0x2000 ≤ u && u ≤ 0x200a

def trim (s : JsString) : JsString :=
  ((s.dropWhile isSpace).reverse.dropWhile isSpace).reverse

/-- `s.replace(/\s+/g, '')`. -/
def stripSpaces (s : JsString) : JsString := s.filter (fun u => !isSpace u)

example : js "é𝄞" = [0xE9, 0xD834, 0xDD1E] := by decide

/-! ## Surrogates -/

/-- A leading surrogate. -/
def isHigh (u : UInt16) : Bool := 0xD800 ≤ u.toNat && u.toNat < 0xDC00

/-- A trailing surrogate. -/
def isLow (u : UInt16) : Bool := 0xDC00 ≤ u.toNat && u.toNat < 0xE000

theorem isHigh_iff {u : UInt16} : isHigh u = true ↔ 0xD800 ≤ u.toNat ∧ u.toNat < 0xDC00 := by
  simp [isHigh]

theorem isLow_iff {u : UInt16} : isLow u = true ↔ 0xDC00 ≤ u.toNat ∧ u.toNat < 0xE000 := by
  simp [isLow]

/-- The scalar value a surrogate pair stands for. -/
def pairChar (hi lo : UInt16) : Char :=
  Char.ofNat (0x10000 + (hi.toNat - 0xD800) * 0x400 + (lo.toNat - 0xDC00))

theorem toNat_ofNat_of_valid {n : Nat} (h : n.isValidChar) : (Char.ofNat n).toNat = n := by
  rw [Char.ofNat, dif_pos h]
  rfl

theorem ofNat_toNat_unit (u : UInt16) : UInt16.ofNat u.toNat = u := by simp

theorem toNat_pairChar {hi lo : UInt16} (hh : isHigh hi = true) (hl : isLow lo = true) :
    (pairChar hi lo).toNat = 0x10000 + (hi.toNat - 0xD800) * 0x400 + (lo.toNat - 0xDC00) := by
  rw [isHigh_iff] at hh
  rw [isLow_iff] at hl
  apply toNat_ofNat_of_valid
  right
  omega

/-- Decoding a surrogate pair and encoding the character again gives the pair back. -/
theorem units_pairChar {hi lo : UInt16} (hh : isHigh hi = true) (hl : isLow lo = true) :
    units (pairChar hi lo) = [hi, lo] := by
  have hn := toNat_pairChar hh hl
  rw [isHigh_iff] at hh
  rw [isLow_iff] at hl
  have hbig : ¬ (pairChar hi lo).toNat < 0x10000 := by omega
  have h1 : 0xD800 + ((pairChar hi lo).toNat - 0x10000) / 0x400 = hi.toNat := by omega
  have h2 : 0xDC00 + ((pairChar hi lo).toNat - 0x10000) % 0x400 = lo.toNat := by omega
  unfold units
  rw [if_neg hbig, h1, h2, ofNat_toNat_unit, ofNat_toNat_unit]

/-- A unit that is no surrogate is a scalar value of its own. -/
theorem toNat_bmp {u : UInt16} (hh : isHigh u = false) (hl : isLow u = false) :
    (Char.ofNat u.toNat).toNat = u.toNat := by
  have hh' : ¬ (0xD800 ≤ u.toNat ∧ u.toNat < 0xDC00) := by
    rw [← isHigh_iff, hh]; simp
  have hl' : ¬ (0xDC00 ≤ u.toNat ∧ u.toNat < 0xE000) := by
    rw [← isLow_iff, hl]; simp
  have hu : u.toNat < 0x10000 := u.toNat_lt
  apply toNat_ofNat_of_valid
  unfold Nat.isValidChar
  omega

theorem units_bmp {u : UInt16} (hh : isHigh u = false) (hl : isLow u = false) :
    units (Char.ofNat u.toNat) = [u] := by
  have hn := toNat_bmp hh hl
  unfold units
  rw [hn, if_pos u.toNat_lt, ofNat_toNat_unit]

/-! ## The code-unit order

`Array.prototype.sort` without a comparator and the `<` of two strings both compare code units from the
front, a proper prefix first: the order Lean's lists carry. -/

instance : Std.Total (fun a b : JsString => a ≤ b) := ⟨fun a b => List.le_total a b⟩

instance : IsTrans JsString (fun a b : JsString => a ≤ b) := ⟨fun _ _ _ => List.le_trans⟩

instance : Std.Antisymm (fun a b : JsString => a ≤ b) := ⟨fun _ _ => List.le_antisymm⟩

end Js
