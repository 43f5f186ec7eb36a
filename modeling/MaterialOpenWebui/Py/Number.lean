import MaterialOpenWebui.Py.Value
import Mathlib.Data.Rat.Defs

/-!
# `Py.Number` — adding values

`a + b` and `int(v)` on the values that JSON gives. Two things the language does are left open, as parameters:
how the sum of two floats is rounded (`round`; a sum with zero is the other float), and which texts `int`
reads as which numbers (`parseInt`).
-/

namespace Py
namespace Val

/-- An `int` or `float`: a boolean is no number here. -/
def isNumber : Val → Bool
  | .int _ => true
  | .float _ => true
  | _ => false

/-- The integer that a boolean or integer is. -/
def integer? : Val → Option Int
  | .bool b => some (if b then 1 else 0)
  | .int n => some n
  | _ => Option.none

section
variable (round : Rat → Rat)

/-- The float nearest to a value; zero of what is no number. -/
def toFloat : Val → Rat
  | .bool b => if b then 1 else 0
  | .int n => if n = 0 then 0 else round n
  | .float x => x
  | _ => 0

/-- The sum of two numbers: an integer of two integers, and else a float. -/
def plus (a b : Val) : Val :=
  match a.integer?, b.integer? with
  | some n, some m => .int (n + m)
  | _, _ =>
    let x := a.toFloat round
    let y := b.toFloat round
    .float (if y = 0 then x else if x = 0 then y else round (x + y))

/-- `a + b`. -/
def add : Val → Val → Option Val
  | .str s, .str t => some (.str (s ++ t))
  | .list vs, .list ws => some (.list (vs ++ ws))
  | a, b => if a.number?.isSome && b.number?.isSome then some (plus round a b) else Option.none

end

/-- `int(v)`. -/
def int_ (parseInt : Str → Option Int) : Val → Option Int
  | .bool b => some (if b then 1 else 0)
  | .int n => some n
  | .float x => some (x.num.tdiv x.den)
  | .str s => parseInt s
  | _ => Option.none

/-! ## Adding nothing -/

/-- A number that is zero. -/
def IsZero (v : Val) : Prop := v.isNumber = true ∧ v.number? = some 0

theorem isNumber_plus (round : Rat → Rat) (a b : Val) : (plus round a b).isNumber = true := by
  unfold plus
  split <;> rfl

/-- Adding zero once more to a sum with it changes nothing. -/
theorem plus_plus_zero (round : Rat → Rat) (a : Val) {b : Val} (hb : IsZero b) :
    plus round (plus round a b) b = plus round a b := by
  obtain ⟨hnumber, hzero⟩ := hb
  cases b with
  | int n =>
    have hn : n = 0 := by
      rw [number?, Option.some.injEq] at hzero
      exact_mod_cast hzero
    subst hn
    cases a <;> simp [plus, integer?, toFloat]
  | float x =>
    have hx : x = 0 := by
      rw [number?, Option.some.injEq] at hzero
      exact hzero
    subst hx
    cases a <;> simp [plus, integer?, toFloat]
  | _ => cases hnumber

end Val
end Py
