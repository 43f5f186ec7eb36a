import MaterialOpenWebui.Js.Uri
import Mathlib.Algebra.Field.Rat
import Mathlib.Algebra.Order.Ring.Rat
import Mathlib.Tactic.Positivity

/-!
# `Js.Numeric` — numbers read from text

`Number(text)`: white space at the ends does not count, a text without anything else is zero, and what is neither a decimal nor digits
after `0x`, `0o` or `0b` is no number. The value is that of the nearest double, the even one of two; a number that is not finite is
no value here.
-/

namespace Js

/-! ## Doubles -/

def scale (base : Nat) (e : Int) : Rat := if 0 ≤ e then (base : Rat) ^ e.toNat else 1 / (base : Rat) ^ (-e).toNat

/-- The greatest `e` with `2 ^ e ≤ r`, of a positive `r`. -/
def leadingBit (r : Rat) : Int :=
  let e : Int := Nat.log2 r.num.natAbs - Nat.log2 r.den
  if scale 2 e ≤ r then e else e - 1

/-- The nearest integer, or the even one of two. -/
def roundEven (r : Rat) : Int :=
  let rest := r - r.floor
  if rest < 1 / 2 ∨ rest = 1 / 2 ∧ r.floor % 2 = 0 then r.floor else r.floor + 1

/-- The nearest double of 53 bits, of what is not negative; `none` beyond the greatest. -/
def toDouble (r : Rat) : Option Rat :=
  if r = 0 then some 0
  else
    let unit := scale 2 (max (leadingBit r) (-1022) - 52)
    let d := roundEven (r / unit) * unit
    if d < scale 2 1024 then some d else none

theorem roundEven_natCast (m : Nat) : roundEven (m : Rat) = m := by
  have hfloor : Rat.floor (m : Rat) = m := Rat.floor_intCast m
  have hrest : (m : Rat) - ((m : Int) : Rat) = 0 := sub_self _
  rw [roundEven, hfloor]
  show (if (m : Rat) - ((m : Int) : Rat) < 1 / 2 ∨ _ then (m : Int) else _) = m
  rw [hrest, if_pos (.inl (by positivity))]

theorem scale_of_nonpos (base k : Nat) : scale base (-(k : Int)) = 1 / (base : Rat) ^ k := by
  cases k with
  | zero => exact (div_one _).symm
  | succ k => rfl

/-- A whole number of 53 bits is a double. -/
theorem toDouble_natCast {n : Nat} (hn : n < 2 ^ 53) : toDouble (n : Rat) = some (n : Rat) := by
  rcases Nat.eq_zero_or_pos n with rfl | hpos
  · rfl
  · have hbits : Nat.log2 n ≤ 52 := Nat.le_of_lt_succ ((Nat.log2_lt (Nat.ne_of_gt hpos)).mpr hn)
    obtain ⟨k, hk⟩ : ∃ k, Nat.log2 n + k = 52 := ⟨52 - Nat.log2 n, by omega⟩
    have hleading : leadingBit (n : Rat) = Nat.log2 n := by
      have hscale : scale 2 (Nat.log2 n : Int) ≤ (n : Rat) := by
        rw [scale, if_pos (Int.natCast_nonneg _), Int.toNat_natCast]
        exact_mod_cast Nat.log2_self_le (Nat.ne_of_gt hpos)
      have hone : Nat.log2 1 = 0 := rfl
      rw [leadingBit, Rat.num_natCast, Rat.den_natCast, Int.natAbs_natCast, hone]
      show (if scale 2 ((Nat.log2 n : Int) - (0 : Nat)) ≤ (n : Rat) then _ else _) = _
      rw [show (Nat.log2 n : Int) - (0 : Nat) = Nat.log2 n by omega, if_pos hscale]
    have hmax : max (Nat.log2 n : Int) (-1022) - 52 = -(k : Int) := by omega
    have hunit : scale 2 (-(k : Int)) = 1 / (2 : Rat) ^ k := scale_of_nonpos 2 k
    have hquot : (n : Rat) / (1 / (2 : Rat) ^ k) = ((n * 2 ^ k : Nat) : Rat) := by
      rw [div_div_eq_mul_div, div_one, Nat.cast_mul, Nat.cast_pow]
      rfl
    have hback : ((n * 2 ^ k : Nat) : Rat) * (1 / (2 : Rat) ^ k) = n := by
      rw [Nat.cast_mul, Nat.cast_pow, mul_one_div]
      exact mul_div_cancel_right₀ _ (by positivity)
    have hsmall : (n : Rat) < scale 2 1024 := by
      have hlt : (n : Rat) < 2 ^ 53 := by exact_mod_cast hn
      rw [scale, if_pos (by decide)]
      exact lt_of_lt_of_le hlt (pow_le_pow_right₀ one_le_two (by decide))
    have hne : (n : Rat) ≠ 0 := Nat.cast_ne_zero.mpr (Nat.ne_of_gt hpos)
    rw [toDouble, if_neg hne, hleading, hmax, hunit]
    show (if (roundEven ((n : Rat) / (1 / (2 : Rat) ^ k)) : Rat) * (1 / (2 : Rat) ^ k) < scale 2 1024 then _ else none) = _
    rw [hquot, roundEven_natCast, Int.cast_natCast, hback]
    exact if_pos hsmall

/-! ## Texts -/

def isDigitUnit (u : UInt16) : Bool := 0x30 ≤ u && u ≤ 0x39

def natOf (base : Nat) (digits : JsString) : Nat := digits.foldl (fun n u => base * n + (hexDigit u).getD 0) 0

theorem natOf_append (base : Nat) (digits : JsString) (u : UInt16) :
    natOf base (digits ++ [u]) = base * natOf base digits + (hexDigit u).getD 0 := List.foldl_append

theorem natText_of_lt {n : Nat} (h : n < 10) : natText n = [0x30 + UInt16.ofNat n] := by
  have hdigit : ∀ d < 10, ofChars [Nat.digitChar d] = [0x30 + UInt16.ofNat d] := by decide
  rw [natText, Nat.toDigits_of_lt_base h, hdigit n h]

theorem natText_of_le {n : Nat} (h : 10 ≤ n) : natText n = natText (n / 10) ++ [0x30 + UInt16.ofNat (n % 10)] := by
  have hlast := natText_of_lt (Nat.mod_lt n (by decide : 0 < 10))
  rw [natText, Nat.toDigits_of_lt_base (Nat.mod_lt n (by decide))] at hlast
  rw [natText, Nat.toDigits_of_base_le (by decide) h, ofChars_append, hlast, natText]

theorem exists_digit {n : Nat} {u : UInt16} (h : u ∈ natText n) : ∃ d < 10, u = 0x30 + UInt16.ofNat d := by
  induction n using Nat.strong_induction_on with
  | _ n ih =>
    by_cases hlt : n < 10
    · rw [natText_of_lt hlt] at h
      exact ⟨n, hlt, List.mem_singleton.mp h⟩
    · rw [natText_of_le (Nat.le_of_not_lt hlt)] at h
      rcases List.mem_append.mp h with h | h
      · exact ih (n / 10) (by omega) h
      · exact ⟨n % 10, Nat.mod_lt n (by decide), List.mem_singleton.mp h⟩

/-- A positive number is written without a leading zero. -/
theorem head_natText {n : Nat} (hpos : 0 < n) : ∃ d s, 0 < d ∧ d < 10 ∧ natText n = (0x30 + UInt16.ofNat d) :: s := by
  induction n using Nat.strong_induction_on with
  | _ n ih =>
    by_cases hlt : n < 10
    · exact ⟨n, [], hpos, hlt, natText_of_lt hlt⟩
    · obtain ⟨d, s, hd, hd', hs⟩ := ih (n / 10) (by omega) (by omega)
      exact ⟨d, s ++ [0x30 + UInt16.ofNat (n % 10)], hd,
        hd', by rw [natText_of_le (Nat.le_of_not_lt hlt), hs, List.cons_append]⟩

/-- The digits of a number read back. -/
theorem natOf_natText (n : Nat) : natOf 10 (natText n) = n := by
  have hdigit : ∀ d < 10, (hexDigit (0x30 + UInt16.ofNat d)).getD 0 = d := by decide
  induction n using Nat.strong_induction_on with
  | _ n ih =>
    by_cases hlt : n < 10
    · rw [natText_of_lt hlt]
      show 10 * 0 + (hexDigit _).getD 0 = n
      rw [hdigit n hlt, Nat.mul_zero, Nat.zero_add]
    · rw [natText_of_le (Nat.le_of_not_lt hlt), natOf_append, hdigit _ (Nat.mod_lt n (by decide)), ih (n / 10) (by omega)]
      exact Nat.div_add_mod n 10

def takeSign : JsString → Bool × JsString
  | [] => (false, [])
  | u :: s => if u = 0x2d then (true, s) else if u = 0x2b then (false, s) else (false, u :: s)

def exponentOf : JsString → Option Int
  | [] => some 0
  | u :: s =>
    let (neg, digits) := takeSign s
    if (u = 0x65 ∨ u = 0x45) ∧ digits ≠ [] ∧ ∀ u ∈ digits, isDigitUnit u = true then
      some (if neg then -natOf 10 digits else natOf 10 digits)
    else none

/-- What follows a decimal point. -/
def afterPoint : JsString → JsString × JsString
  | [] => ([], [])
  | u :: s => if u = 0x2e then (s.takeWhile isDigitUnit, s.dropWhile isDigitUnit) else ([], u :: s)

def decimalOf (s : JsString) : Option Rat :=
  let whole := s.takeWhile isDigitUnit
  let (fraction, rest) := afterPoint (s.dropWhile isDigitUnit)
  if whole = [] ∧ fraction = [] then none
  else (exponentOf rest).map fun e => natOf 10 (whole ++ fraction) * scale 10 (e - fraction.length)

/-- Digits in the base that a letter stands for. -/
def radixOf (letter : UInt16) (digits : JsString) : Option Nat :=
  let base := if letter ∈ js "xX" then 16 else if letter ∈ js "oO" then 8 else if letter ∈ js "bB" then 2 else 0
  if digits ≠ [] ∧ digits.all (fun u => (hexDigit u).any (· < base)) then some (natOf base digits) else none

/-- `Number(text)`, where it is finite. -/
def numberOf (text : JsString) : Option Rat :=
  match trim text with
  | [] => some 0
  | [u] => (decimalOf [u]).bind toDouble
  | u :: v :: s =>
    match if u = 0x30 then radixOf v s else none with
    | some n => toDouble n
    | none =>
      let (neg, magnitude) := takeSign (u :: v :: s)
      ((decimalOf magnitude).bind toDouble).map fun d => if neg then -d else d

/-- `Number.isInteger(d)`, from `low` to `high`. -/
def wholeWithin (low high : Nat) (d : Rat) : Option Nat := if d.den = 1 ∧ low ≤ d ∧ d ≤ high then some d.num.toNat else none

theorem wholeWithin_natCast {low high n : Nat} (hlow : low ≤ n) (hhigh : n ≤ high) : wholeWithin low high n = some n := by
  rw [wholeWithin, if_pos ⟨Rat.den_natCast n, Rat.natCast_le_natCast.mpr hlow,
    Rat.natCast_le_natCast.mpr hhigh⟩, Rat.num_natCast]
  rfl

example : numberOf (js " 4.5e1 ") = some 45 := by decide +kernel

theorem decimalOf_digits {s : JsString} (hne : s ≠ []) (h : ∀ u ∈ s, isDigitUnit u = true) :
    decimalOf s = some (natOf 10 s : Rat) := by
  have htake : s.takeWhile isDigitUnit = s := by
    have hall : (s ++ []).takeWhile isDigitUnit = s ++ [].takeWhile isDigitUnit := List.takeWhile_append_of_pos h
    rwa [List.append_nil, List.takeWhile_nil, List.append_nil] at hall
  have hdrop : s.dropWhile isDigitUnit = [] := by
    have hboth := List.takeWhile_append_dropWhile (p := isDigitUnit) (l := s)
    rw [htake] at hboth
    exact List.append_right_eq_self.mp hboth
  rw [decimalOf, htake, hdrop]
  show (if s = [] ∧ ([] : JsString) = [] then none else (exponentOf []).map fun e => natOf 10 (s ++
    []) * scale 10 (e - 0)) = _
  rw [if_neg fun h => hne h.1, List.append_nil]
  show some ((natOf 10 s : Rat) * 1) = _
  rw [mul_one]

theorem numberOf_natText {n : Nat} (hn : n < 2 ^ 53) : numberOf (natText n) = some (n : Rat) := by
  have hdigit : ∀ u ∈ natText n, isDigitUnit u = true ∧ isSpace u = false ∧ u ≠ 0x2d ∧ u ≠ 0x2b := by
    intro u hu
    obtain ⟨d, hd, rfl⟩ := exists_digit hu
    exact (by decide : ∀ d < 10, isDigitUnit (0x30 + UInt16.ofNat d) = true ∧ isSpace (0x30 + UInt16.ofNat d) = false ∧
      0x30 + UInt16.ofNat d ≠ 0x2d ∧ 0x30 + UInt16.ofNat d ≠ (0x2b : UInt16)) d hd
  have hvalue : ∀ u s, natText n = u :: s → (decimalOf (u :: s)).bind toDouble = some (n : Rat) := by
    intro u s h
    rw [← h, decimalOf_digits (h ▸ List.cons_ne_nil u s) fun u hu => (hdigit u hu).1, natOf_natText]
    exact toDouble_natCast hn
  rw [numberOf, trim_of_visible fun u hu => (hdigit u hu).2.1]
  rcases Nat.eq_zero_or_pos n with rfl | hpos
  · exact hvalue 0x30 [] rfl
  · obtain ⟨d, s, hd, hd', htext⟩ := head_natText hpos
    have hzero : 0x30 + UInt16.ofNat d ≠ 0x30 := (by decide : ∀ d < 10, 0 < d → 0x30 + UInt16.ofNat d ≠ 0x30) d hd' hd
    have hhead := (hdigit _ (htext ▸ List.mem_cons_self)).2.2
    rw [htext]
    cases s with
    | nil => exact hvalue _ _ htext
    | cons v s =>
      show (match if 0x30 + UInt16.ofNat d = 0x30 then radixOf v s else none with | some n => toDouble n | none => _) = _
      rw [if_neg hzero]
      have hsign : takeSign ((0x30 + UInt16.ofNat d) :: v :: s) = (false, (0x30 + UInt16.ofNat d) :: v :: s) := by
        rw [takeSign, if_neg hhead.1, if_neg hhead.2]
      show (match takeSign ((0x30 + UInt16.ofNat d) :: v :: s) with
        | (neg, magnitude) => ((decimalOf magnitude).bind toDouble).map fun d => if neg then -d else d) = _
      rw [hsign]
      show ((decimalOf ((0x30 + UInt16.ofNat d) :: v :: s)).bind toDouble).map (fun d => if false = true then -d else d) = _
      rw [hvalue _ _ htext]
      rfl

end Js
