import Mathlib.Data.Prod.Lex

/-!
# `Lib.Calendar` — the proleptic Gregorian calendar

Days are numbered from 1 January 1970, backwards below zero. `civil` turns a day number into year, month and
day of the month, and `dayNumber` turns such a date into its number.
-/

namespace Calendar

/-! ## Years -/

/-- The number of the first day of a year. -/
def daysBeforeYear (y : Int) : Int :=
  365 * (y - 1970) + (y - 1969) / 4 - (y - 1901) / 100 + (y - 1601) / 400

def isLeap (y : Int) : Bool := y % 4 == 0 && (y % 100 != 0 || y % 400 == 0)

theorem daysBeforeYear_succ (y : Int) :
    daysBeforeYear (y + 1) = daysBeforeYear y + 365 + (if isLeap y then 1 else 0) := by
  have hleap : isLeap y = true ↔ y % 4 = 0 ∧ (y % 100 ≠ 0 ∨ y % 400 = 0) := by simp [isLeap]
  unfold daysBeforeYear
  split_ifs with h
  · rw [hleap] at h
    omega
  · rw [hleap] at h
    omega

/-- A first guess at the year of a day, from the mean length of a year. -/
def yearGuess (d : Int) : Int := 400 * d / 146097 + 1970

/-- The guess is off by one year at most. -/
theorem yearGuess_bounds (d : Int) :
    daysBeforeYear (yearGuess d - 1) ≤ d ∧ d < daysBeforeYear (yearGuess d + 2) := by
  unfold daysBeforeYear yearGuess
  omega

/-- The year a day is in. -/
def yearOf (d : Int) : Int :=
  if d < daysBeforeYear (yearGuess d) then yearGuess d - 1
  else if d < daysBeforeYear (yearGuess d + 1) then yearGuess d
  else yearGuess d + 1

theorem yearOf_bounds (d : Int) : daysBeforeYear (yearOf d) ≤ d ∧ d < daysBeforeYear (yearOf d + 1) := by
  obtain ⟨hlow, hhigh⟩ := yearGuess_bounds d
  unfold yearOf
  split_ifs with h1 h2
  · exact ⟨hlow, by rw [Int.sub_add_cancel]; exact h1⟩
  · exact ⟨by omega, h2⟩
  · exact ⟨by omega, by rw [Int.add_assoc]; exact hhigh⟩

theorem daysBeforeYear_mono {y z : Int} (h : y ≤ z) : daysBeforeYear y ≤ daysBeforeYear z := by
  unfold daysBeforeYear
  omega

theorem yearOf_mono {a b : Int} (h : a ≤ b) : yearOf a ≤ yearOf b := by
  by_contra hlt
  have hnext : daysBeforeYear (yearOf b + 1) ≤ daysBeforeYear (yearOf a) := daysBeforeYear_mono (by omega)
  have ha := (yearOf_bounds a).1
  have hb := (yearOf_bounds b).2
  omega

/-- The day of the year, counted from zero. -/
def dayOfYear (d : Int) : Nat := (d - daysBeforeYear (yearOf d)).toNat

theorem dayOfYear_spec (d : Int) : daysBeforeYear (yearOf d) + dayOfYear d = d := by
  have hlow := (yearOf_bounds d).1
  unfold dayOfYear
  omega

theorem dayOfYear_lt (d : Int) : dayOfYear d < 365 + (isLeap (yearOf d)).toNat := by
  have hspec := dayOfYear_spec d
  have hhigh := (yearOf_bounds d).2
  rw [daysBeforeYear_succ] at hhigh
  cases hleap : isLeap (yearOf d) with
  | true =>
    rw [hleap] at hhigh
    simp only [if_true] at hhigh
    simp only [Bool.toNat_true]
    omega
  | false =>
    rw [hleap] at hhigh
    simp only [Bool.false_eq_true, if_false] at hhigh
    simp only [Bool.toNat_false]
    omega

/-! ## Months -/

/-- The days of a year before a month of it, January being month 1. -/
def daysBeforeMonth (leap : Bool) (m : Nat) : Nat :=
  [0, 31, 59, 90, 120, 151, 181, 212, 243, 273, 304, 334].getD (m - 1) 0 + (if leap && 2 < m then 1 else 0)

/-- The month that a day of the year is in. -/
def monthOf (leap : Bool) (n : Nat) : Nat :=
  (List.range 12).countP (fun m => daysBeforeMonth leap (m + 1) ≤ n)

/-- A day of the year is in one of the twelve months, and among the first 31 days of it. -/
theorem monthOf_spec : ∀ leap : Bool, ∀ n < 365 + leap.toNat, 1 ≤ monthOf leap n ∧ monthOf leap n ≤ 12 ∧
    daysBeforeMonth leap (monthOf leap n) ≤ n ∧ n < daysBeforeMonth leap (monthOf leap n) + 31 := by
  decide +kernel

/-! ## Dates -/

/-- Year, month and day of the month of a day, in the order that compares dates. -/
def civil (d : Int) : Int ×ₗ Nat ×ₗ Nat :=
  let leap := isLeap (yearOf d)
  let month := monthOf leap (dayOfYear d)
  toLex (yearOf d, toLex (month, dayOfYear d - daysBeforeMonth leap month + 1))

/-- The number of the day with a date. -/
def dayNumber (year : Int) (month day : Nat) : Int :=
  daysBeforeYear year + daysBeforeMonth (isLeap year) month + (day - 1)

def year (d : Int) : Int := (civil d).1
def month (d : Int) : Nat := (civil d).2.1
def day (d : Int) : Nat := (civil d).2.2

theorem month_bounds (d : Int) : 1 ≤ month d ∧ month d ≤ 12 := by
  obtain ⟨h1, h12, -, -⟩ := monthOf_spec (isLeap (yearOf d)) (dayOfYear d) (dayOfYear_lt d)
  exact ⟨h1, h12⟩

theorem day_bounds (d : Int) : 1 ≤ day d ∧ day d ≤ 31 := by
  obtain ⟨-, -, hlow, hhigh⟩ := monthOf_spec (isLeap (yearOf d)) (dayOfYear d) (dayOfYear_lt d)
  have hday : day d = dayOfYear d - daysBeforeMonth (isLeap (yearOf d)) (monthOf (isLeap (yearOf d)) (dayOfYear d)) + 1 := rfl
  omega

/-- **A date is the date of its own number.** -/
theorem dayNumber_civil (d : Int) : dayNumber (year d) (month d) (day d) = d := by
  obtain ⟨-, -, hlow, -⟩ := monthOf_spec (isLeap (yearOf d)) (dayOfYear d) (dayOfYear_lt d)
  have hspec := dayOfYear_spec d
  have hday : day d = dayOfYear d - daysBeforeMonth (isLeap (yearOf d)) (monthOf (isLeap (yearOf d)) (dayOfYear d)) + 1 := rfl
  have hmonth : month d = monthOf (isLeap (yearOf d)) (dayOfYear d) := rfl
  have hyear : year d = yearOf d := rfl
  unfold dayNumber
  rw [hyear, hmonth, hday]
  omega

/-! ## Weeks -/

/-- The day of the week, Sunday being 0; 1 January 1970 was a Thursday. -/
def weekday (d : Int) : Nat := ((d + 4) % 7).toNat

example : civil 20540 = toLex (2026, toLex (3, 28)) := by decide +kernel
example : weekday 20541 = 0 := by decide

end Calendar
