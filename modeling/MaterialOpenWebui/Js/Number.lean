import Mathlib.Algebra.Group.Nat.Defs
import Mathlib.Data.List.Basic

/-!
# `Js.Number` — JavaScript numbers through their shortest decimals

`Number::toString` renders a finite number `x` from three integers `n`, `k`, `s`: the shortest digit
string `s` (of `k` digits) that rounds back to `x`, and the position `n` of its decimal point. A finite
number is therefore carried here as exactly that decimal, sign and normal form included; every double has
one, and reading the rendering back gives the same decimal.

`parseNumeral` takes a numeral at its exact value. On a numeral that is not the shortest decimal of a
double the platform would round as well; nothing that was rendered here is such a numeral.
-/

namespace Js

/-! ## Decimals in normal form -/

/-- `±digits · 10^exp`, with no trailing zero in `digits` and `exp = 0` for zero. -/
structure Decimal where
  neg : Bool
  digits : Nat
  exp : Int
  normal : if digits = 0 then exp = 0 else digits % 10 ≠ 0
deriving DecidableEq

/-- Move the trailing zeros of `m` into the exponent; `m` itself is fuel enough. -/
def stripZeros : Nat → Nat → Int → Nat × Int
  | 0, m, e => (m, e)
  | f + 1, m, e => if m % 10 = 0 then stripZeros f (m / 10) (e + 1) else (m, e)

theorem stripZeros_normal : ∀ (f m : Nat) (e : Int), 0 < m → m ≤ f →
    (stripZeros f m e).1 % 10 ≠ 0 := by
  intro f
  induction f with
  | zero =>
    intro m e hm hf
    omega
  | succ f ih =>
    intro m e hm hf
    unfold stripZeros
    by_cases h : m % 10 = 0
    · rw [if_pos h]
      exact ih (m / 10) (e + 1) (by omega) (by omega)
    · rw [if_neg h]
      exact h

/-- `k` zeros appended to a normal significand are stripped again, whatever fuel is left over. -/
theorem stripZeros_mul {s : Nat} (hs : s % 10 ≠ 0) : ∀ (k f : Nat) (e : Int), s * 10 ^ k ≤ f →
    stripZeros f (s * 10 ^ k) e = (s, e + k) := by
  intro k
  induction k with
  | zero =>
    intro f e _
    cases f with
    | zero => simp [stripZeros]
    | succ f => simp [stripZeros, hs]
  | succ k ih =>
    intro f e hf
    have hpos : 0 < s * 10 ^ (k + 1) := Nat.mul_pos (by omega) (Nat.pow_pos (by omega))
    have hten : s * 10 ^ (k + 1) = s * 10 ^ k * 10 := by rw [Nat.pow_succ, Nat.mul_assoc]
    cases f with
    | zero => omega
    | succ f =>
      have hmod : s * 10 ^ (k + 1) % 10 = 0 := by rw [hten]; omega
      have hdiv : s * 10 ^ (k + 1) / 10 = s * 10 ^ k := by rw [hten]; omega
      unfold stripZeros
      rw [if_pos hmod, hdiv, ih f (e + 1) (by omega)]
      congr 1
      omega

/-- The decimal `±m · 10^e`, brought into normal form. -/
def Decimal.make (neg : Bool) (m : Nat) (e : Int) : Decimal :=
  if h : m = 0 then ⟨neg, 0, 0, by simp⟩
  else ⟨neg, (stripZeros m m e).1, (stripZeros m m e).2, by
    have hn := stripZeros_normal m m e (by omega) (Nat.le_refl m)
    rw [if_neg (by intro h0; rw [h0] at hn; exact hn rfl)]
    exact hn⟩

theorem Decimal.make_zero (neg : Bool) (e : Int) : Decimal.make neg 0 e = ⟨neg, 0, 0, by simp⟩ := by
  simp [Decimal.make]

/-- Any way of writing a nonzero decimal with `k` more zeros is the same decimal. -/
theorem Decimal.make_mul (d : Decimal) (hd : d.digits ≠ 0) (k : Nat) :
    Decimal.make d.neg (d.digits * 10 ^ k) (d.exp - k) = d := by
  have hn := d.normal
  rw [if_neg hd] at hn
  have hne : d.digits * 10 ^ k ≠ 0 := Nat.mul_ne_zero hd (Nat.ne_of_gt (Nat.pow_pos (by omega)))
  have hs := stripZeros_mul hn k (d.digits * 10 ^ k) (d.exp - k) (Nat.le_refl _)
  unfold Decimal.make
  rw [dif_neg hne]
  obtain ⟨neg, s, e, _⟩ := d
  simp only [Decimal.mk.injEq]
  rw [hs]
  simp

/-- The number a decimal denotes. -/
def Decimal.toRat (d : Decimal) : Rat :=
  let magnitude : Rat :=
    if 0 ≤ d.exp then (d.digits : Rat) * 10 ^ d.exp.toNat else (d.digits : Rat) / 10 ^ (-d.exp).toNat
  if d.neg then -magnitude else magnitude

/-- A JavaScript number. -/
inductive JsNumber where
  | nan
  | infinity (neg : Bool)
  | finite (d : Decimal)
deriving DecidableEq

/-- A natural number as a JavaScript number. -/
def JsNumber.ofNat (n : Nat) : JsNumber := .finite (Decimal.make false n 0)

/-! ## Rendering (`Number::toString`) -/

/-- Integer digits, fraction digits and exponent, as `Number::toString` lays them out. -/
def Decimal.parts (d : Decimal) : List Char × List Char × Option Int :=
  let ds := Nat.toDigits 10 d.digits
  let n : Int := d.exp + ds.length
  if -5 ≤ n ∧ n ≤ 21 then
    if (ds.length : Int) ≤ n then (ds ++ List.replicate (n - ds.length).toNat '0', [], none)
    else if 0 < n then (ds.take n.toNat, ds.drop n.toNat, none)
    else (['0'], List.replicate (-n).toNat '0' ++ ds, none)
  else (ds.take 1, ds.drop 1, some (n - 1))

def fractionText : List Char → List Char
  | [] => []
  | ds => '.' :: ds

def exponentText : Option Int → List Char
  | none => []
  | some e => 'e' :: (if 0 ≤ e then '+' else '-') :: Nat.toDigits 10 e.natAbs

def numeral (p : List Char × List Char × Option Int) : List Char :=
  p.1 ++ fractionText p.2.1 ++ exponentText p.2.2

/-- `Number::toString` of a finite number; both zeros are `0`. -/
def Decimal.toText (d : Decimal) : List Char :=
  if d.digits = 0 then ['0']
  else if d.neg then '-' :: numeral d.parts
  else numeral d.parts

/-- `Number::toString`. -/
def JsNumber.toText : JsNumber → List Char
  | .nan => "NaN".toList
  | .infinity neg => if neg then "-Infinity".toList else "Infinity".toList
  | .finite d => d.toText

/-! ## Reading (`JSON.parse`) -/

def parseFraction : List Char → Option (List Char × List Char)
  | '.' :: cs =>
    match cs.takeWhile Char.isDigit with
    | [] => none
    | ds => some (ds, cs.dropWhile Char.isDigit)
  | cs => some ([], cs)

def parseExponentDigits (neg : Bool) (cs : List Char) : Option (Int × List Char) :=
  match cs.takeWhile Char.isDigit with
  | [] => none
  | ds =>
    let e : Int := Nat.ofDigitChars 10 ds 0
    some (if neg then -e else e, cs.dropWhile Char.isDigit)

def parseExponent : List Char → Option (Int × List Char)
  | 'e' :: '+' :: cs => parseExponentDigits false cs
  | 'e' :: '-' :: cs => parseExponentDigits true cs
  | 'E' :: '+' :: cs => parseExponentDigits false cs
  | 'E' :: '-' :: cs => parseExponentDigits true cs
  | 'e' :: cs => parseExponentDigits false cs
  | 'E' :: cs => parseExponentDigits false cs
  | cs => some (0, cs)

/-- The number production without its sign: no digits, or a leading zero before others, is refused. -/
def parseMagnitude (neg : Bool) (cs : List Char) : Option (Decimal × List Char) :=
  match cs.takeWhile Char.isDigit with
  | [] => none
  | '0' :: _ :: _ => none
  | i =>
    match parseFraction (cs.dropWhile Char.isDigit) with
    | none => none
    | some (f, r) =>
      match parseExponent r with
      | none => none
      | some (e, r) => some (Decimal.make neg (Nat.ofDigitChars 10 (i ++ f) 0) (e - f.length), r)

def parseNumeral : List Char → Option (Decimal × List Char)
  | '-' :: cs => parseMagnitude true cs
  | cs => parseMagnitude false cs

/-! ## Round trip: scanning one part at a time -/

/-- The continuation does not go on with a digit. -/
def NoDigit (r : List Char) : Prop := ∀ c ∈ r.head?, c.isDigit = false

/-- The continuation does not go on with anything a numeral could still take. -/
def Stops (r : List Char) : Prop :=
  ∀ c ∈ r.head?, c.isDigit = false ∧ c ≠ '.' ∧ c ≠ 'e' ∧ c ≠ 'E'

theorem Stops.noDigit {r : List Char} (h : Stops r) : NoDigit r := fun c hc => (h c hc).1

theorem stops_cons {c : Char} {r : List Char} (h : c = ',' ∨ c = ']' ∨ c = '}') :
    Stops (c :: r) := by
  intro c' hc'
  simp only [List.head?_cons, Option.mem_def, Option.some.injEq] at hc'
  subst hc'
  rcases h with h | h | h <;> subst h <;> decide

theorem stops_nil : Stops [] := by
  intro c hc
  simp at hc

theorem takeWhile_digits {ds r : List Char} (hd : ∀ c ∈ ds, c.isDigit = true) (hr : NoDigit r) :
    (ds ++ r).takeWhile Char.isDigit = ds := by
  rw [List.takeWhile_append_of_pos hd]
  cases r with
  | nil => simp
  | cons c r => simp [hr c (by simp)]

theorem dropWhile_digits {ds r : List Char} (hd : ∀ c ∈ ds, c.isDigit = true) (hr : NoDigit r) :
    (ds ++ r).dropWhile Char.isDigit = r := by
  rw [List.dropWhile_append_of_pos hd]
  cases r with
  | nil => simp
  | cons c r => simp [hr c (by simp)]

theorem isDigit_toDigits {n : Nat} {c : Char} (hc : c ∈ Nat.toDigits 10 n) : c.isDigit = true :=
  Nat.isDigit_of_mem_toDigits (by decide) (by decide) hc

theorem digitChar_ne_zero : ∀ n < 10, 0 < n → n.digitChar ≠ '0' := by decide

/-- A positive number is written without a leading zero. -/
theorem head_toDigits_ne_zero : ∀ n, 0 < n → (Nat.toDigits 10 n).head? ≠ some '0' := by
  intro n
  induction n using Nat.strongRecOn with
  | ind n ih =>
    intro hn
    rw [Nat.toDigits_eq_if (by decide)]
    by_cases hlt : n < 10
    · simp [hlt, digitChar_ne_zero n hlt hn]
    · rw [if_neg hlt, List.head?_append_of_ne_nil _ Nat.toDigits_ne_nil]
      exact ih (n / 10) (by omega) (by omega)

theorem noDigit_fraction_exponent {f r : List Char} {x : Option Int} (hr : Stops r) :
    NoDigit (fractionText f ++ (exponentText x ++ r)) := by
  cases f with
  | cons c f => intro c' hc'; simp [fractionText] at hc'; subst hc'; decide
  | nil =>
    cases x with
    | none => simpa [fractionText, exponentText] using hr.noDigit
    | some e => intro c' hc'; simp [fractionText, exponentText] at hc'; subst hc'; decide

theorem parseFraction_text {f r : List Char} (hf : ∀ c ∈ f, c.isDigit = true) (hr : NoDigit r)
    (hdot : ∀ c ∈ r.head?, c ≠ '.') : parseFraction (fractionText f ++ r) = some (f, r) := by
  cases f with
  | nil =>
    cases r with
    | nil => rfl
    | cons c r =>
      have hc : c ≠ '.' := hdot c (by simp)
      simp [fractionText, parseFraction, hc]
  | cons c f =>
    have ht := takeWhile_digits hf hr
    have hd := dropWhile_digits hf hr
    simp only [fractionText, List.cons_append] at ht hd ⊢
    simp only [parseFraction, ht, hd]

theorem parseExponentDigits_text {n : Nat} {r : List Char} (neg : Bool) (hr : NoDigit r) :
    parseExponentDigits neg (Nat.toDigits 10 n ++ r) = some (if neg then -(n : Int) else n, r) := by
  have hd : ∀ c ∈ Nat.toDigits 10 n, c.isDigit = true := fun c hc => isDigit_toDigits hc
  unfold parseExponentDigits
  rw [takeWhile_digits hd hr, dropWhile_digits hd hr]
  cases h : Nat.toDigits 10 n with
  | nil => exact absurd h Nat.toDigits_ne_nil
  | cons c ds =>
    simp only [← h, Nat.ofDigitChars_ten_toDigits]

theorem parseExponent_text {x : Option Int} {r : List Char} (hr : Stops r) :
    parseExponent (exponentText x ++ r) = some (x.getD 0, r) := by
  cases x with
  | none =>
    cases r with
    | nil => rfl
    | cons c r =>
      obtain ⟨-, -, he, hE⟩ := hr c (by simp)
      simp only [exponentText, List.nil_append, Option.getD_none]
      unfold parseExponent
      split <;> simp_all
  | some e =>
    by_cases h : 0 ≤ e
    · simp only [exponentText, if_pos h, List.cons_append, parseExponent,
        parseExponentDigits_text false hr.noDigit]
      simp [Int.natAbs_of_nonneg h]
    · simp only [exponentText, if_neg h, List.cons_append, parseExponent,
        parseExponentDigits_text true hr.noDigit]
      have hneg : -(e.natAbs : Int) = e := by omega
      simp only [hneg, if_true, Option.getD_some]

/-- A numeral written from its parts is read back as the decimal those parts denote. -/
theorem parseMagnitude_numeral {i f r : List Char} {x : Option Int} (neg : Bool)
    (hi : ∀ c ∈ i, c.isDigit = true) (hne : i ≠ []) (hlead : i = ['0'] ∨ i.head? ≠ some '0')
    (hf : ∀ c ∈ f, c.isDigit = true) (hr : Stops r) :
    parseMagnitude neg (numeral (i, f, x) ++ r) =
      some (Decimal.make neg (Nat.ofDigitChars 10 (i ++ f) 0) (x.getD 0 - f.length), r) := by
  have hnd := noDigit_fraction_exponent (f := f) (x := x) hr
  have hdot : ∀ c ∈ (exponentText x ++ r).head?, c ≠ '.' := by
    cases x with
    | none => simpa [exponentText] using fun c hc => (hr c hc).2.1
    | some e => intro c hc; simp [exponentText] at hc; subst hc; decide
  have hnd' : NoDigit (exponentText x ++ r) := noDigit_fraction_exponent (f := []) hr
  unfold parseMagnitude numeral
  simp only [List.append_assoc]
  rw [takeWhile_digits hi hnd, dropWhile_digits hi hnd, parseFraction_text hf hnd' hdot]
  simp only [parseExponent_text hr]
  split
  · exact absurd rfl hne
  · rcases hlead with h | h
    · simp at h
    · simp at h
  · rfl

/-! ## Round trip: the four layouts of `Number::toString` -/

/-- What the parts of a rendering have to satisfy to be read back as `d`. -/
structure PartsOf (d : Decimal) (i f : List Char) (x : Option Int) : Prop where
  intDigits : ∀ c ∈ i, c.isDigit = true
  nonempty : i ≠ []
  lead : i = ['0'] ∨ i.head? ≠ some '0'
  fracDigits : ∀ c ∈ f, c.isDigit = true
  value : Decimal.make d.neg (Nat.ofDigitChars 10 (i ++ f) 0) (x.getD 0 - f.length) = d

/-- Splitting the digit string anywhere after its first digit leaves its value alone. -/
theorem partsOf_split {d : Decimal} (hd : d.digits ≠ 0) {j : Nat} {x : Option Int} (hj : 0 < j)
    (hx : x.getD 0 - ((Nat.toDigits 10 d.digits).drop j).length = d.exp) :
    PartsOf d ((Nat.toDigits 10 d.digits).take j) ((Nat.toDigits 10 d.digits).drop j) x where
  intDigits c hc := isDigit_toDigits (List.mem_of_mem_take hc)
  nonempty := by
    have hne : Nat.toDigits 10 d.digits ≠ [] := Nat.toDigits_ne_nil
    simp [hne]
    omega
  lead := by
    right
    rw [List.head?_take, if_neg (by omega)]
    exact head_toDigits_ne_zero _ (by omega)
  fracDigits c hc := isDigit_toDigits (List.mem_of_mem_drop hc)
  value := by
    rw [List.take_append_drop, Nat.ofDigitChars_ten_toDigits, hx]
    simpa using d.make_mul hd 0

/-- Digits followed by `j` zeros: the significand scaled by `10^j`. -/
theorem partsOf_zeros {d : Decimal} (hd : d.digits ≠ 0) {j : Nat} (hj : d.exp = j) :
    PartsOf d (Nat.toDigits 10 d.digits ++ List.replicate j '0') [] none where
  intDigits c hc := by
    rcases List.mem_append.mp hc with h | h
    · exact isDigit_toDigits h
    · rw [List.eq_of_mem_replicate h]
      decide
  nonempty := by simp [Nat.toDigits_ne_nil]
  lead := by
    right
    rw [List.head?_append_of_ne_nil _ Nat.toDigits_ne_nil]
    exact head_toDigits_ne_zero _ (by omega)
  fracDigits c hc := by simp at hc
  value := by
    have h := d.make_mul hd j
    rw [List.append_nil, Nat.ofDigitChars_append, Nat.ofDigitChars_ten_toDigits,
      Nat.ofDigitChars_replicate_zero, Nat.mul_comm]
    simpa [hj] using h

/-- `0.` and `j` zeros before the digits: the exponent counts the whole fraction. -/
theorem partsOf_leadingZeros {d : Decimal} (hd : d.digits ≠ 0) {j : Nat}
    (hj : d.exp + (Nat.toDigits 10 d.digits).length = -j) :
    PartsOf d ['0'] (List.replicate j '0' ++ Nat.toDigits 10 d.digits) none where
  intDigits c hc := by
    rw [List.mem_singleton.mp hc]
    decide
  nonempty := by simp
  lead := Or.inl rfl
  fracDigits c hc := by
    rcases List.mem_append.mp hc with h | h
    · rw [List.eq_of_mem_replicate h]
      decide
    · exact isDigit_toDigits h
  value := by
    have hval : Nat.ofDigitChars 10 (['0'] ++ (List.replicate j '0' ++ Nat.toDigits 10 d.digits)) 0
        = d.digits := by
      rw [← List.append_assoc, show ['0'] ++ List.replicate j '0' = List.replicate (j + 1) '0' from rfl,
        Nat.ofDigitChars_append, Nat.ofDigitChars_replicate_zero, Nat.mul_zero,
        Nat.ofDigitChars_ten_toDigits]
    have hexp : (none : Option Int).getD 0
        - (List.replicate j '0' ++ Nat.toDigits 10 d.digits).length = d.exp := by
      simp
      omega
    rw [hval, hexp]
    simpa using d.make_mul hd 0

theorem partsOf_parts {d : Decimal} (hd : d.digits ≠ 0) :
    PartsOf d d.parts.1 d.parts.2.1 d.parts.2.2 := by
  have hlen : 0 < (Nat.toDigits 10 d.digits).length := Nat.length_toDigits_pos
  unfold Decimal.parts
  simp only
  split_ifs with hn hk hpos
  · exact partsOf_zeros hd (by omega)
  · refine partsOf_split hd (by omega) ?_
    simp
    omega
  · exact partsOf_leadingZeros hd (by omega)
  · refine partsOf_split hd (by omega) ?_
    simp
    omega

/-- JSON has one zero: the sign of `-0` is not written. -/
def Decimal.unsignZero (d : Decimal) : Decimal :=
  if d.digits = 0 then ⟨false, 0, 0, by simp⟩ else d

theorem numeral_head_ne_minus {i f : List Char} {x : Option Int} (hi : ∀ c ∈ i, c.isDigit = true)
    (hne : i ≠ []) (r : List Char) : ∃ c cs, numeral (i, f, x) ++ r = c :: cs ∧ c.isDigit = true := by
  cases i with
  | nil => exact absurd rfl hne
  | cons c i => exact ⟨c, _, rfl, hi c (by simp)⟩

theorem parseNumeral_of_digit {c : Char} (hc : c.isDigit = true) (cs : List Char) :
    parseNumeral (c :: cs) = parseMagnitude false (c :: cs) := by
  have hm : c ≠ '-' := by
    rintro rfl
    cases hc
  simp [parseNumeral, hm]

/-- **A rendered number reads back**, up to the sign of zero, whatever follows it. -/
theorem parseNumeral_toText (d : Decimal) {r : List Char} (hr : Stops r) :
    parseNumeral (d.toText ++ r) = some (d.unsignZero, r) := by
  by_cases hd : d.digits = 0
  · have hzero : ∀ c ∈ ['0'], c.isDigit = true := by
      intro c hc
      rw [List.mem_singleton.mp hc]
      rfl
    have h := parseMagnitude_numeral (i := ['0']) (f := []) (x := none) false
      hzero (List.cons_ne_nil _ _) (Or.inl rfl) (by simp) hr
    simp only [Decimal.toText, Decimal.unsignZero, if_pos hd]
    rw [show ['0'] ++ r = '0' :: r from rfl, parseNumeral_of_digit rfl]
    simpa [numeral, fractionText, exponentText, Nat.ofDigitChars, Decimal.make_zero] using h
  · have hp := partsOf_parts hd
    simp only [Decimal.toText, Decimal.unsignZero, if_neg hd]
    cases hneg : d.neg with
    | true =>
      have h := parseMagnitude_numeral true hp.intDigits hp.nonempty hp.lead hp.fracDigits
        (x := d.parts.2.2) hr
      rw [← hneg, hp.value] at h
      simpa [parseNumeral, hneg] using h
    | false =>
      have h := parseMagnitude_numeral false hp.intDigits hp.nonempty hp.lead hp.fracDigits
        (x := d.parts.2.2) hr
      rw [← hneg, hp.value, hneg] at h
      obtain ⟨c, cs, hcs, hc⟩ := numeral_head_ne_minus (f := d.parts.2.1) (x := d.parts.2.2)
        hp.intDigits hp.nonempty r
      have htext : numeral d.parts ++ r = c :: cs := hcs
      simp only [Bool.false_eq_true, if_false]
      rw [htext, parseNumeral_of_digit hc, ← htext]
      exact h

end Js
