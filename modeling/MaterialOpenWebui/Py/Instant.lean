import MaterialOpenWebui.Lib.Calendar
import Mathlib.Data.Rat.Defs

/-!
# `Py.Instant` — dates and times as floats

A date is counted in microseconds since 1970, and a timestamp in nanoseconds. Between them is a float of seconds: what is
rounded to a float is a parameter, as for sums (`Py.Number`).
-/

namespace Py

section
variable (round : Rat → Rat)

/-- `int(dt.timestamp() * 1_000_000_000)`, of an instant in microseconds. -/
def timestamp_ns (instant : Int) : Int :=
  let seconds := round (mkRat instant 1000000)
  let ns := round (mkRat (seconds.num * 1000000000) seconds.den)
  ns.num.tdiv ns.den

/-- The nearest whole number, the even one of two. -/
def halfEven (x : Rat) : Int :=
  let whole := x.num / x.den
  let twice := 2 * (x.num % x.den)
  if twice < x.den ∨ twice = x.den ∧ whole % 2 = 0 then whole else whole + 1

/-- The microseconds that `datetime.fromtimestamp(ns / 1_000_000_000)` comes to. -/
def microseconds (ns : Int) : Int :=
  let x := round (mkRat ns 1000000000)
  let whole := x.num.tdiv x.den
  whole * 1000000 + halfEven (round (mkRat ((x.num - whole * x.den) * 1000000) x.den))

end

def yearOf (micros : Int) : Int := Calendar.year (micros / 86400000000)

/-- A `datetime` has a year from 1 to 9999. -/
def InYears (micros : Int) : Prop := 1 ≤ yearOf micros ∧ yearOf micros ≤ 9999

instance (micros : Int) : Decidable (InYears micros) := inferInstanceAs (Decidable (_ ∧ _))

end Py
