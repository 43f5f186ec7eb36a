import Mathlib.Data.List.Basic

/-!
# `Py.Text` — Python strings as sequences of code points

A Python string may hold any code point, surrogates too: `json.loads` leaves a lone escape as it is. What the
database cannot store, NUL and surrogates, `sanitize_text_for_db` removes.
-/

namespace Py

structure CodePoint where
  val : UInt32
  valid : val.toNat < 0x110000
  deriving DecidableEq

/-- A Python string. -/
abbrev Str := List CodePoint

instance (s : Str) (ss : List Str) : Decidable (s ∈ ss) := List.instDecidableMemOfLawfulBEq s ss

def ofChar (c : Char) : CodePoint where
  val := c.val
  valid := by
    have h : c.toNat < 0xD800 ∨ 0xDFFF < c.toNat ∧ c.toNat < 0x110000 := c.valid
    show c.toNat < 0x110000
    omega

/-- A string literal of the source. -/
def py (s : String) : Str := s.toList.map ofChar

/-- Neither NUL nor a surrogate. -/
def CodePoint.storable (c : CodePoint) : Bool := c.val ≠ 0 && !(0xD800 ≤ c.val && c.val ≤ 0xDFFF)

/-- `sanitize_text_for_db` (`utils/misc.py`): without NULs and surrogates. -/
def sanitize_text_for_db (text : Str) : Str := text.filter CodePoint.storable

theorem sanitize_text_for_db_idem (text : Str) :
    sanitize_text_for_db (sanitize_text_for_db text) = sanitize_text_for_db text := by
  simp [sanitize_text_for_db, List.filter_filter]

/-- What has neither is left as it is. -/
theorem sanitize_text_for_db_of_storable {text : Str} (h : ∀ c ∈ text, c.storable = true) :
    sanitize_text_for_db text = text := List.filter_eq_self.mpr h

/-- What `str.strip` removes. -/
def CodePoint.isSpace (c : CodePoint) : Bool :=
  9 ≤ c.val && c.val ≤ 13 || 28 ≤ c.val && c.val ≤ 32 || c.val = 0x85 || c.val = 0xa0 || c.val = 0x1680 ||
    0x2000 ≤ c.val && c.val ≤ 0x200a || c.val = 0x2028 || c.val = 0x2029 || c.val = 0x202f ||
    c.val = 0x205f || c.val = 0x3000

def strip (s : Str) : Str :=
  ((s.dropWhile CodePoint.isSpace).reverse.dropWhile CodePoint.isSpace).reverse

end Py
