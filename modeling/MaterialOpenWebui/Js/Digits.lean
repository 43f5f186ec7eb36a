import MaterialOpenWebui.Js.Text
import Mathlib.Data.Prod.Lex

/-!
# `Js.Digits` — decimal texts of a fixed width

`padStart(k, '0')` of a number of at most `k` digits. Texts of one width compare as their numbers do
(`padded_lt_iff`), so texts made of such parts and separators compare part by part.
-/

namespace Js

/-- The code unit of a decimal digit. -/
def digitUnit (d : Nat) : UInt16 := UInt16.ofNat (48 + d)

/-- The last `k` decimal digits of `n`. -/
def padded : Nat → Nat → JsString
  | 0, _ => []
  | k + 1, n => padded k (n / 10) ++ [digitUnit (n % 10)]

theorem length_padded (k n : Nat) : (padded k n).length = k := by
  induction k generalizing n with
  | zero => rfl
  | succ k ih => simp [padded, ih]

theorem units_digitChar : ∀ d < 10, units d.digitChar = [digitUnit d] := by decide

theorem digitUnit_lt_iff : ∀ d < 10, ∀ e < 10, digitUnit d < digitUnit e ↔ d < e := by decide

theorem digitUnit_inj : ∀ d < 10, ∀ e < 10, digitUnit d = digitUnit e → d = e := by decide

/-- A number of exactly `k` digits is written as the padded text. -/
theorem natText_eq_padded (k : Nat) : ∀ n, 10 ^ k ≤ n → n < 10 ^ (k + 1) → natText n = padded (k + 1) n := by
  induction k with
  | zero =>
    intro n _ hn
    have hn : n < 10 := by simpa using hn
    rw [natText, Nat.toDigits_of_lt_base hn, padded, padded, ofChars_cons, units_digitChar n hn,
      Nat.mod_eq_of_lt hn]
    rfl
  | succ k ih =>
    intro n hlow hhigh
    have hten : 10 ^ (k + 1) = 10 ^ k * 10 := Nat.pow_succ 10 k
    have hpos : 0 < 10 ^ k := Nat.pow_pos (by omega)
    have hsucc : 10 ^ (k + 1 + 1) = 10 ^ (k + 1) * 10 := Nat.pow_succ 10 (k + 1)
    have hdigits : Nat.toDigits 10 n = Nat.toDigits 10 (n / 10) ++ [(n % 10).digitChar] :=
      Nat.toDigits_of_base_le (by omega) (by omega)
    have hrest := ih (n / 10) (by omega) (by omega)
    have hmod : n % 10 < 10 := Nat.mod_lt n (by omega)
    rw [natText] at hrest
    rw [natText, hdigits, ofChars, List.flatMap_append, ← ofChars, hrest, List.flatMap_cons,
      units_digitChar _ hmod, List.flatMap_nil, padded]
    rfl

theorem padded_zero (k : Nat) : padded k 0 = List.replicate k (digitUnit 0) := by
  induction k with
  | zero => rfl
  | succ k ih =>
    rw [padded, Nat.zero_div, ih, List.replicate_succ']

/-- `s.padStart(k, '0')` -/
def padStart (k : Nat) (s : JsString) : JsString := List.replicate (k - s.length) (digitUnit 0) ++ s

/-- **The padded text** of a number that has no more digits. -/
theorem padded_eq_padStart (k : Nat) : ∀ n < 10 ^ (k + 1), padded (k + 1) n = padStart (k + 1) (natText n) := by
  have hone : ∀ k, ∀ n < 10, padded (k + 1) n = padStart (k + 1) (natText n) := by
    intro k n hn
    rw [natText, Nat.toDigits_of_lt_base hn, ofChars_cons, units_digitChar n hn, padded, Nat.div_eq_of_lt hn, padded_zero,
      Nat.mod_eq_of_lt hn]
    rfl
  induction k with
  | zero => exact hone 0
  | succ k ih =>
    intro n hn
    by_cases hlt : n < 10
    · exact hone (k + 1) n hlt
    · have hmod : n % 10 < 10 := Nat.mod_lt n (by omega)
      have hdigits : natText n = natText (n / 10) ++ [digitUnit (n % 10)] := by
        rw [natText, Nat.toDigits_of_base_le (by omega) (by omega), ofChars, List.flatMap_append, ← ofChars,
          List.flatMap_cons, units_digitChar _ hmod]
        rfl
      rw [Nat.pow_succ] at hn
      rw [padded, ih (n / 10) (by omega), hdigits, padStart, padStart, List.length_append, List.append_assoc]
      congr 2
      exact (Nat.succ_sub_succ_eq_sub _ _).symm

/-- Texts of one length compare by their first parts, then by the rest. -/
theorem append_lt_append_iff {a b c d : JsString} (h : a.length = b.length) :
    a ++ c < b ++ d ↔ a < b ∨ a = b ∧ c < d := by
  induction a generalizing b with
  | nil =>
    cases b with
    | nil => simp
    | cons y b => simp at h
  | cons x a ih =>
    cases b with
    | nil => simp at h
    | cons y b =>
      have hlen : a.length = b.length := by simpa using h
      simp only [List.cons_append, List.cons_lt_cons_iff, ih hlen, List.cons.injEq]
      grind

theorem padded_inj (k : Nat) : ∀ m < 10 ^ k, ∀ n < 10 ^ k, padded k m = padded k n → m = n := by
  induction k with
  | zero =>
    intro m hm n hn _
    rw [Nat.pow_zero] at hm hn
    omega
  | succ k ih =>
    intro m hm n hn h
    rw [Nat.pow_succ] at hm hn
    rw [padded, padded] at h
    obtain ⟨hhead, hlast⟩ := List.append_inj h (by rw [length_padded, length_padded])
    have hdiv := ih (m / 10) (by omega) (n / 10) (by omega) hhead
    have hmod := digitUnit_inj (m % 10) (by omega) (n % 10) (by omega) (List.cons.inj hlast).1
    omega

/-- **Padded texts compare as numbers.** -/
theorem padded_lt_iff (k : Nat) : ∀ m < 10 ^ k, ∀ n < 10 ^ k, (padded k m < padded k n ↔ m < n) := by
  induction k with
  | zero =>
    intro m hm n hn
    rw [Nat.pow_zero] at hm hn
    simp [padded]
    omega
  | succ k ih =>
    intro m hm n hn
    rw [Nat.pow_succ] at hm hn
    have hdiv := ih (m / 10) (by omega) (n / 10) (by omega)
    have hinj := padded_inj k (m / 10) (by omega) (n / 10) (by omega)
    have hdigit := digitUnit_lt_iff (m % 10) (by omega) (n % 10) (by omega)
    have hlast : [digitUnit (m % 10)] < [digitUnit (n % 10)] ↔ m % 10 < n % 10 := by
      simp [List.cons_lt_cons_iff, hdigit]
    have heq : padded k (m / 10) = padded k (n / 10) ↔ m / 10 = n / 10 :=
      ⟨hinj, fun h => by rw [h]⟩
    rw [padded, padded, append_lt_append_iff (by rw [length_padded, length_padded]), hdiv, heq, hlast]
    omega

/-! ## Dates -/

/-- `YYYY-MM-DD`. -/
def dateText (year month day : Nat) : JsString :=
  padded 4 year ++ js "-" ++ padded 2 month ++ js "-" ++ padded 2 day

/-- **Dates as text compare as dates.** -/
theorem dateText_lt_iff {y m d y' m' d' : Nat} (hy : y < 10000) (hm : m < 100) (hd : d < 100)
    (hy' : y' < 10000) (hm' : m' < 100) (hd' : d' < 100) : dateText y m d < dateText y' m' d' ↔
      toLex (y, toLex (m, d)) < toLex (y', toLex (m', d')) := by
  have hself : ¬ js "-" < js "-" := List.lt_irrefl _
  have hyear : padded 4 y = padded 4 y' ↔ y = y' :=
    ⟨padded_inj 4 y hy y' hy', fun h => by rw [h]⟩
  have hmonth : padded 2 m = padded 2 m' ↔ m = m' :=
    ⟨padded_inj 2 m hm m' hm', fun h => by rw [h]⟩
  simp only [dateText, List.append_assoc]
  rw [append_lt_append_iff (by rw [length_padded, length_padded]), append_lt_append_iff rfl,
    append_lt_append_iff (by rw [length_padded, length_padded]), append_lt_append_iff rfl,
    padded_lt_iff 4 y hy y' hy', padded_lt_iff 2 m hm m' hm', padded_lt_iff 2 d hd d' hd', hyear, hmonth,
    Prod.Lex.toLex_lt_toLex, Prod.Lex.toLex_lt_toLex]
  simp [hself]

end Js
