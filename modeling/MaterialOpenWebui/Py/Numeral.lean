import MaterialOpenWebui.Py.Text
import Mathlib.Data.Rat.Init
import Mathlib.Data.Nat.Digits.Defs

/-!
# `Py.Numeral` — the numerals of JSON

A numeral is a sign, an integer without leading zeros, and perhaps a fraction and an exponent. `scanNumeral` takes the
longest numeral that a text begins with, and what is written is scanned back (`scanNumeral_text`) if nothing follows that
could still belong to it.
-/

namespace Py

/-! ## Digits -/

def CodePoint.isDigit (c : CodePoint) : Bool := 48 ≤ c.val && c.val ≤ 57

/-- `str(n)` of a natural number. -/
def natText (n : Nat) : Str := (Nat.toDigits 10 n).map ofChar

/-- `int(s)` of digits. -/
def natOf (s : Str) : Nat := s.foldl (fun n c => 10 * n + (c.val.toNat - 48)) 0

theorem isDigit_ofChar (c : Char) : (ofChar c).isDigit = c.isDigit := by
  rw [Bool.eq_iff_iff, CodePoint.isDigit, Char.isDigit, Bool.and_eq_true, Bool.and_eq_true, decide_eq_true_iff,
    decide_eq_true_iff, decide_eq_true_iff, decide_eq_true_iff]
  rfl

theorem isDigit_of_mem_natText {n : Nat} {c : CodePoint} (h : c ∈ natText n) : c.isDigit = true := by
  obtain ⟨d, hd, rfl⟩ := List.mem_map.mp h
  rw [isDigit_ofChar]
  exact Nat.isDigit_of_mem_toDigits (by decide) (by decide) hd

theorem natText_ne_nil (n : Nat) : natText n ≠ [] := by
  intro h
  exact Nat.toDigits_ne_nil (List.map_eq_nil_iff.mp h)

theorem natOf_natText (n : Nat) : natOf (natText n) = n := by
  have hdigits : Nat.ofDigitChars 10 (Nat.toDigits 10 n) 0 = n := Nat.ofDigitChars_ten_toDigits
  rw [Nat.ofDigitChars_eq_foldl] at hdigits
  rw [natOf, natText, List.foldl_map]
  exact hdigits

/-- A positive number is written without a leading zero. -/
theorem head?_natText {n : Nat} (h : 0 < n) : (natText n).head? ≠ some (ofChar '0') := by
  induction n using Nat.strongRecOn with
  | ind n ih =>
    rw [natText, Nat.toDigits_eq_if (by decide)]
    by_cases hlt : n < 10
    · rw [if_pos hlt]
      have hdigit : ∀ d < 10, 0 < d → ([d.digitChar].map ofChar).head? ≠ some (ofChar '0') := by decide
      exact hdigit n hlt h
    · rw [if_neg hlt, List.map_append]
      show (natText (n / 10) ++ _).head? ≠ _
      rw [List.head?_append_of_ne_nil _ (natText_ne_nil _)]
      exact ih (n / 10) (by omega) (by omega)

/-! ## Numerals -/

structure Numeral where
  neg : Bool
  int : Str
  frac : Option Str
  /-- The sign of the exponent, and its digits. -/
  exp : Option (Bool × Str)
  deriving DecidableEq

/-- Nonempty, and all digits. -/
def Digits (s : Str) : Prop := s ≠ [] ∧ ∀ c ∈ s, c.isDigit = true

/-- No zero before other digits. -/
structure Numeral.Valid (n : Numeral) : Prop where
  int : Digits n.int
  leading : n.int.head? = some (ofChar '0') → n.int = [ofChar '0']
  frac : ∀ f, n.frac = some f → Digits f
  exp : ∀ neg e, n.exp = some (neg, e) → Digits e

def fractionText : Option Str → Str
  | none => []
  | some f => ofChar '.' :: f

def exponentText : Option (Bool × Str) → Str
  | none => []
  | some (neg, e) => ofChar 'e' :: (if neg then ofChar '-' else ofChar '+') :: e

def Numeral.text (n : Numeral) : Str :=
  (if n.neg then [ofChar '-'] else []) ++ (n.int ++ (fractionText n.frac ++ exponentText n.exp))

/-- The numeral of an integer. -/
def intNumeral (n : Int) : Numeral := ⟨decide (n < 0), natText n.natAbs, none, none⟩

/-- `int(text)` of a numeral with neither fraction nor exponent. -/
def Numeral.toInt (n : Numeral) : Int := if n.neg then -(natOf n.int : Int) else natOf n.int

def Numeral.isInt (n : Numeral) : Bool := n.frac.isNone && n.exp.isNone

/-- The number that a numeral stands for. -/
def Numeral.value (n : Numeral) : Rat :=
  let f := n.frac.getD []
  let m : Int := natOf (n.int ++ f)
  let m := if n.neg then -m else m
  match n.exp with
  | none => mkRat m (10 ^ f.length)
  | some (true, e) => mkRat m (10 ^ (f.length + natOf e))
  | some (false, e) => mkRat (m * 10 ^ natOf e) (10 ^ f.length)

theorem toInt_intNumeral (n : Int) : (intNumeral n).toInt = n := by
  rw [Numeral.toInt, intNumeral, natOf_natText]
  by_cases h : n < 0
  · rw [if_pos (decide_eq_true h)]
    omega
  · rw [if_neg (by simpa using h)]
    omega

theorem valid_intNumeral (n : Int) : (intNumeral n).Valid where
  int := ⟨natText_ne_nil _, fun _ hc => isDigit_of_mem_natText hc⟩
  leading := by
    intro hzero
    rcases Nat.eq_zero_or_pos n.natAbs with heq | hpos
    · show natText n.natAbs = _
      rw [heq]
      rfl
    · exact absurd hzero (head?_natText hpos)
  frac := by
    intro f hf
    cases hf
  exp := by
    intro neg e he
    cases he

/-! ## Scanning -/

/-- The digits of the integer: a leading zero is all of it. -/
def scanInt (s : Str) : Str :=
  let digits := s.takeWhile CodePoint.isDigit
  if digits.head? = some (ofChar '0') then digits.take 1 else digits

/-- The digits that a text begins with, if any. -/
def leadingDigits? (s : Str) : Option Str :=
  match s.takeWhile CodePoint.isDigit with
  | [] => none
  | d :: ds => some (d :: ds)

def scanFraction : Str → Option Str
  | [] => none
  | c :: r => if c = ofChar '.' then leadingDigits? r else none

/-- The sign of an exponent and what follows it. -/
def scanSign : Str → Bool × Nat × Str
  | [] => (false, 0, [])
  | c :: r =>
    if c = ofChar '-' then (true, 1, r) else if c = ofChar '+' then (false, 1, r) else (false, 0, c :: r)

/-- With how much of the text it takes. -/
def scanExponent : Str → Option ((Bool × Str) × Nat)
  | [] => none
  | c :: r =>
    let (neg, n, r) := scanSign r
    if c = ofChar 'e' ∨ c = ofChar 'E' then
      (leadingDigits? r).map fun digits => ((neg, digits), 1 + n + digits.length)
    else none

/-- What follows the sign of a numeral. -/
def scanUnsigned (neg : Bool) (s : Str) : Option (Numeral × Str) :=
  let int := scanInt s
  if int = [] then none
  else
    let s := s.drop int.length
    let frac := scanFraction s
    let s := s.drop (fractionText frac).length
    match scanExponent s with
    | some (exp, n) => some (⟨neg, int, frac, some exp⟩, s.drop n)
    | none => some (⟨neg, int, frac, none⟩, s)

/-- The longest numeral that a text begins with, and the rest. -/
def scanNumeral : Str → Option (Numeral × Str)
  | [] => none
  | c :: r => if c = ofChar '-' then scanUnsigned true r else scanUnsigned false (c :: r)

/-! ## Back again -/

/-- What follows does not go on with a digit. -/
def NoDigit (r : Str) : Prop := ∀ c ∈ r.head?, c.isDigit = false

/-- What follows does not go on with anything that a numeral could still take. -/
def Stops (r : Str) : Prop :=
  ∀ c ∈ r.head?, c.isDigit = false ∧ c ≠ ofChar '.' ∧ c ≠ ofChar 'e' ∧ c ≠ ofChar 'E'

theorem Stops.noDigit {r : Str} (h : Stops r) : NoDigit r := fun c hc => (h c hc).1

theorem stops_nil : Stops [] := by
  intro c hc
  cases hc

theorem takeWhile_digits {ds r : Str} (hd : ∀ c ∈ ds, c.isDigit = true) (hr : NoDigit r) :
    (ds ++ r).takeWhile CodePoint.isDigit = ds := by
  rw [List.takeWhile_append_of_pos hd]
  cases r with
  | nil => exact List.append_nil _
  | cons c r =>
    rw [List.takeWhile_cons_of_neg (by rw [hr c rfl]; exact Bool.false_ne_true)]
    exact List.append_nil _

theorem leadingDigits?_append {ds r : Str} (hd : Digits ds) (hr : NoDigit r) : leadingDigits? (ds ++ r) = some ds := by
  rw [leadingDigits?, takeWhile_digits hd.2 hr]
  cases ds with
  | nil => exact absurd rfl hd.1
  | cons d ds => rfl

theorem noDigit_fraction_exponent {frac : Option Str} {exp : Option (Bool × Str)} {r : Str} (hr : NoDigit r) :
    NoDigit (fractionText frac ++ (exponentText exp ++ r)) := by
  cases frac with
  | some f =>
    intro c hc
    cases hc
    rfl
  | none =>
    cases exp with
    | some e =>
      intro c hc
      cases hc
      rfl
    | none => exact hr

theorem scanInt_text {n : Numeral} (h : n.Valid) {r : Str} (hr : NoDigit r) : scanInt (n.int ++ r) = n.int := by
  unfold scanInt
  rw [takeWhile_digits h.int.2 hr]
  dsimp only
  split
  · rename_i hzero
    rw [h.leading hzero]
    rfl
  · rfl

theorem scanFraction_text {n : Numeral} (h : n.Valid) {r : Str} (hr : NoDigit r)
    (hdot : ∀ c ∈ r.head?, c ≠ ofChar '.') : scanFraction (fractionText n.frac ++ r) = n.frac := by
  cases hfrac : n.frac with
  | some f =>
    show scanFraction (ofChar '.' :: (f ++ r)) = some f
    rw [scanFraction, if_pos rfl, leadingDigits?_append (h.frac f hfrac) hr]
  | none =>
    cases r with
    | nil => rfl
    | cons c r => exact if_neg (hdot c rfl)

theorem scanExponent_text {n : Numeral} (h : n.Valid) {r : Str} (hr : Stops r) :
    scanExponent (exponentText n.exp ++ r) = n.exp.map fun e => (e, (exponentText n.exp).length) := by
  cases hexp : n.exp with
  | none =>
    cases r with
    | nil => rfl
    | cons c r =>
      obtain ⟨-, -, he, hE⟩ := hr c rfl
      exact if_neg (not_or.mpr ⟨he, hE⟩)
  | some e =>
    obtain ⟨neg, e⟩ := e
    have hsign : scanSign ((if neg then ofChar '-' else ofChar '+') :: (e ++ r)) = (neg, 1, e ++ r) := by
      cases neg <;> rfl
    have hscan : scanExponent (ofChar 'e' :: (if neg then ofChar '-' else ofChar '+') :: (e ++ r)) =
        some ((neg, e), 1 + 1 + e.length) := by
      rw [scanExponent, hsign]
      dsimp only
      rw [if_pos (Or.inl rfl), leadingDigits?_append (h.exp neg e hexp) hr.noDigit]
      rfl
    have hlength : 1 + 1 + e.length = (exponentText (some (neg, e))).length := by
      show 1 + 1 + e.length = e.length + 1 + 1
      omega
    rw [hlength] at hscan
    exact hscan

/-- What a fraction or exponent begins with is no other part of a numeral. -/
theorem head?_exponent_ne_dot {exp : Option (Bool × Str)} {r : Str} (hr : Stops r) :
    ∀ c ∈ (exponentText exp ++ r).head?, c ≠ ofChar '.' := by
  intro c hc
  cases exp with
  | some e =>
    cases hc
    decide
  | none => exact (hr c hc).2.1

theorem noDigit_exponent {exp : Option (Bool × Str)} {r : Str} (hr : Stops r) : NoDigit (exponentText exp ++ r) :=
  @noDigit_fraction_exponent none exp r hr.noDigit

theorem scanUnsigned_text {n : Numeral} (h : n.Valid) {r : Str} (hr : Stops r) :
    scanUnsigned n.neg (n.int ++ (fractionText n.frac ++ (exponentText n.exp ++ r))) = some (n, r) := by
  have hint : scanInt (n.int ++ (fractionText n.frac ++ (exponentText n.exp ++ r))) = n.int :=
    scanInt_text h (noDigit_fraction_exponent hr.noDigit)
  have hfrac : scanFraction (fractionText n.frac ++ (exponentText n.exp ++ r)) = n.frac :=
    scanFraction_text h (noDigit_exponent hr) (head?_exponent_ne_dot hr)
  have hexp := scanExponent_text h hr
  rw [scanUnsigned]
  dsimp only
  rw [hint, if_neg h.int.1, List.drop_left, hfrac, List.drop_left, hexp]
  cases he : n.exp with
  | none =>
    show some (Numeral.mk n.neg n.int n.frac none, r) = some (n, r)
    rw [← he]
  | some e =>
    show some (Numeral.mk n.neg n.int n.frac (some e), (exponentText (some e) ++ r).drop (exponentText (some e)).length)
      = some (n, r)
    rw [List.drop_left, ← he]

/-- No digit is a sign. -/
theorem digit_ne_minus {c : CodePoint} (h : c.isDigit = true) : c ≠ ofChar '-' := by
  rintro rfl
  revert h
  decide

/-- **A numeral is scanned back.** -/
theorem scanNumeral_text {n : Numeral} (h : n.Valid) {r : Str} (hr : Stops r) :
    scanNumeral (n.text ++ r) = some (n, r) := by
  have hscan := scanUnsigned_text h hr
  rw [Numeral.text, List.append_assoc, List.append_assoc, List.append_assoc]
  cases hneg : n.neg with
  | true =>
    rw [hneg] at hscan
    exact hscan
  | false =>
    rw [hneg] at hscan
    obtain ⟨hne, hdigits⟩ := h.int
    cases hint : n.int with
    | nil => exact absurd hint hne
    | cons c ds =>
      rw [hint] at hscan hdigits
      show (if c = ofChar '-' then _ else _) = _
      rw [if_neg (digit_ne_minus (hdigits c List.mem_cons_self))]
      exact hscan

/-- A numeral begins with a digit or a sign. -/
theorem head_text {n : Numeral} (h : n.Valid) :
    ∃ c cs, n.text = c :: cs ∧ (c.isDigit = true ∨ c = ofChar '-') := by
  rw [Numeral.text]
  cases n.neg with
  | true => exact ⟨_, _, rfl, Or.inr rfl⟩
  | false =>
    obtain ⟨hne, hdigits⟩ := h.int
    cases hint : n.int with
    | nil => exact absurd hint hne
    | cons c ds =>
      rw [hint] at hdigits
      exact ⟨c, _, rfl, Or.inl (hdigits c List.mem_cons_self)⟩

end Py
