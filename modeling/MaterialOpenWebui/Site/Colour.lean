import Mathlib

/-!
# `Site.Colour` — colours by hue, and in four inks (`docs/assets/js/colour.js`)

The conversions between RGB and HSL, HSV, HWB and CMYK, over exact rational numbers. Going to a hue tells which channel is the
largest and how the others stand to it; going back is one wave for all channels, at three places of the circle. In units of the
spread of the channels, the hue of `(R, G, B)` is where the wave has the value `1 - R` for red, `1 - G` for green and `1 - B` for
blue (`wave_hue`), and every way back is an affine function of it.
-/

namespace MaterialOpenWebui
namespace Colour

/-! ## Arithmetic -/

/-- The part of a number before the point. -/
def trunc (x : ℚ) : ℤ := if 0 ≤ x then ⌊x⌋ else ⌈x⌉

/-- `a % b` -/
def rem (a b : ℚ) : ℚ := a - b * trunc (a / b)

/-- `1e-10` -/
def epsilon : ℚ := 1 / 10000000000

/-! ## Conversions -/

/-- Three numbers, as the source has them in an array. -/
abbrev Triple := ℚ × ℚ × ℚ

def max3 (rgb : Triple) : ℚ := max (max rgb.1 rgb.2.1) rgb.2.2

def min3 (rgb : Triple) : ℚ := min (min rgb.1 rgb.2.1) rgb.2.2

/-- The hue, of channels that are not all the same. -/
def hueOf (rgb : Triple) : ℚ :=
  let (r, g, b) := rgb
  let d := max3 rgb - min3 rgb
  let hue :=
    if max3 rgb = r then rem ((g - b) / d) 6
    else if max3 rgb = g then (b - r) / d + 2
    else (r - g) / d + 4
  let hue := hue * 60
  if hue < 0 then hue + 360 else hue

def rgbToHsl (rgb : Triple) : Triple :=
  let max := max3 rgb
  let min := min3 rgb
  let l := (max + min) / 2
  let d := max - min
  if d < epsilon then (0, 0, l * 100)
  else
    let s := if l > 1 / 2 then d / (2 - max - min) else d / (max + min)
    (hueOf rgb, s * 100, l * 100)

def hslToRgb (hsl : Triple) : Triple :=
  let (h, s, l) := hsl
  let S := s / 100
  let L := l / 100
  let k (n : ℚ) := rem (n + h / 30) 12
  let a := S * min L (1 - L)
  let f (n : ℚ) := L - a * max (-1) (min (k n - 3) (min (9 - k n) 1))
  (f 0, f 8, f 4)

def rgbToHsv (rgb : Triple) : Triple :=
  let max := max3 rgb
  let d := max - min3 rgb
  let hue := if epsilon ≤ d then hueOf rgb else 0
  (hue, if max < epsilon then 0 else d / max * 100, max * 100)

def hsvToRgb (hsv : Triple) : Triple :=
  let (h, s, v) := hsv
  let S := s / 100
  let V := v / 100
  let f (n : ℚ) :=
    let k := rem (n + h / 60) 6
    V - V * S * max 0 (min k (min (4 - k) 1))
  (f 5, f 3, f 1)

def rgbToHwb (rgb : Triple) : Triple := ((rgbToHsv rgb).1, min3 rgb * 100, (1 - max3 rgb) * 100)

def hwbToRgb (hwb : Triple) : Triple :=
  let (h, w, b) := hwb
  let W := w / 100
  let B := b / 100
  if W + B ≥ 1 then
    let grey := W / (W + B)
    (grey, grey, grey)
  else
    let (r, g, b) := hslToRgb (h, 100, 50)
    let mix (c : ℚ) := c * (1 - W - B) + W
    (mix r, mix g, mix b)

def rgbToCmyk (rgb : Triple) : ℚ × ℚ × ℚ × ℚ :=
  let (r, g, b) := rgb
  let k := 1 - max3 rgb
  if k ≥ 1 - epsilon then (0, 0, 0, 100)
  else ((1 - r - k) / (1 - k) * 100, (1 - g - k) / (1 - k) * 100, (1 - b - k) / (1 - k) * 100, k * 100)

def cmykToRgb (cmyk : ℚ × ℚ × ℚ × ℚ) : Triple :=
  let (c, m, y, k) := cmyk
  let K := k / 100
  ((1 - c / 100) * (1 - K), (1 - m / 100) * (1 - K), (1 - y / 100) * (1 - K))

/-! ## The wave -/

theorem trunc_eq {x : ℚ} {n : ℤ} (h0 : 0 ≤ x) (h : (n : ℚ) ≤ x) (h' : x < n + 1) : trunc x = n := by
  rw [trunc, if_pos h0]
  exact Int.floor_eq_iff.mpr ⟨h, h'⟩

theorem rem_of_lt {x b : ℚ} (h0 : 0 ≤ x) (h : x < b) : rem x b = x := by
  have hb : 0 < b := lt_of_le_of_lt h0 h
  have htrunc : trunc (x / b) = 0 := by
    apply trunc_eq (div_nonneg h0 hb.le)
    · exact_mod_cast div_nonneg h0 hb.le
    · rw [div_lt_iff₀ hb]
      simpa using h
  rw [rem, htrunc]
  simp

theorem rem_of_le {x b : ℚ} (hb : 0 < b) (h : b ≤ x) (h' : x < 2 * b) : rem x b = x - b := by
  have h0 : 0 ≤ x / b := div_nonneg (hb.le.trans h) hb.le
  have htrunc : trunc (x / b) = 1 := by
    apply trunc_eq h0
    · rw [le_div_iff₀ hb]
      simpa using h
    · rw [div_lt_iff₀ hb]
      push_cast
      linarith
  rw [rem, htrunc]
  simp

/-- Less than one turn back, nothing is taken off either. -/
theorem rem_of_neg {x b : ℚ} (h0 : x < 0) (h : -b < x) : rem x b = x := by
  have hb : 0 < b := by linarith
  have hneg : x / b < 0 := div_neg_of_neg_of_pos h0 hb
  have htrunc : trunc (x / b) = 0 := by
    rw [trunc, if_neg (not_le.mpr hneg)]
    apply Int.ceil_eq_iff.mpr
    constructor
    · rw [lt_div_iff₀ hb]
      push_cast
      linarith
    · exact_mod_cast hneg.le
  rw [rem, htrunc]
  simp

/-- What `hsvToRgb` takes off at a place of the circle, of six units. -/
def wave (x : ℚ) : ℚ := max 0 (min (rem x 6) (min (4 - rem x 6) 1))

theorem wave_rise {x : ℚ} (h0 : 0 ≤ x) (h1 : x ≤ 1) : wave x = x := by
  rw [wave, rem_of_lt h0 (by linarith), min_eq_right (by linarith : 1 ≤ 4 - x), min_eq_left h1, max_eq_right h0]

theorem wave_high {x : ℚ} (h0 : 1 ≤ x) (h1 : x ≤ 3) : wave x = 1 := by
  rw [wave, rem_of_lt (by linarith) (by linarith), min_eq_right (by linarith : 1 ≤ 4 - x), min_eq_right h0,
    max_eq_right zero_le_one]

theorem wave_fall {x : ℚ} (h0 : 3 ≤ x) (h1 : x ≤ 4) : wave x = 4 - x := by
  rw [wave, rem_of_lt (by linarith) (by linarith), min_eq_left (by linarith : 4 - x ≤ 1),
    min_eq_right (by linarith : 4 - x ≤ x), max_eq_right (by linarith)]

theorem wave_low {x : ℚ} (h0 : 4 ≤ x) (h1 : x < 6) : wave x = 0 := by
  rw [wave, rem_of_lt (by linarith) h1]
  apply max_eq_left
  exact (min_le_right _ _).trans ((min_le_left _ _).trans (by linarith))

/-- Once around. -/
theorem wave_sub {x : ℚ} (h0 : 6 ≤ x) (h1 : x < 12) : wave x = wave (x - 6) := by
  rw [wave, wave, rem_of_le (by norm_num) h0 (by linarith), rem_of_lt (x := x - 6) (by linarith) (by linarith)]

theorem wave_low_again {x : ℚ} (h0 : 4 ≤ x) (h1 : x ≤ 6) : wave x = 0 := by
  rcases lt_or_eq_of_le h1 with hlt | rfl
  · exact wave_low h0 hlt
  · rw [wave_sub (by norm_num) (by norm_num), wave_rise (by norm_num) (by norm_num)]
    norm_num

/-- Which channel is the largest and which the smallest, in units of the spread, and what the hue is then. -/
inductive Sextant (R G B : ℚ) : ℚ → Prop where
  | redGreen (hmax : R = 1) (hmin : B = 0) : Sextant R G B G
  | redBlue (hmax : R = 1) (hmin : G = 0) (hpos : 0 < B) : Sextant R G B (6 - B)
  | greenRed (hmax : G = 1) (hmin : B = 0) : Sextant R G B (2 - R)
  | greenBlue (hmax : G = 1) (hmin : R = 0) : Sextant R G B (2 + B)
  | blueGreen (hmax : B = 1) (hmin : R = 0) : Sextant R G B (4 - G)
  | blueRed (hmax : B = 1) (hmin : G = 0) : Sextant R G B (4 + R)

/-- **The wave at the hue**, and a third of the circle to either side. -/
theorem wave_sextant {R G B H : ℚ} (hR : 0 ≤ R ∧ R ≤ 1) (hG : 0 ≤ G ∧ G ≤ 1) (hB : 0 ≤ B ∧ B ≤ 1) (h : Sextant R G B H) :
    (0 ≤ H ∧ H < 6) ∧ wave (5 + H) = 1 - R ∧ wave (3 + H) = 1 - G ∧ wave (1 + H) = 1 - B := by
  obtain ⟨hR0, hR1⟩ := hR
  obtain ⟨hG0, hG1⟩ := hG
  obtain ⟨hB0, hB1⟩ := hB
  cases h with
  | redGreen hmax hmin =>
    refine ⟨⟨hG0, by linarith⟩, ?_, ?_, ?_⟩
    · rw [wave_low_again (by linarith) (by linarith), hmax, sub_self]
    · rw [wave_fall (by linarith) (by linarith)]
      ring
    · rw [wave_high (by linarith) (by linarith), hmin, sub_zero]
  | redBlue hmax hmin hpos =>
    refine ⟨⟨by linarith, by linarith⟩, ?_, ?_, ?_⟩
    · rw [wave_sub (by linarith) (by linarith), wave_low_again (by linarith) (by linarith), hmax, sub_self]
    · rw [wave_sub (by linarith) (by linarith), wave_high (by linarith) (by linarith), hmin, sub_zero]
    · rw [wave_sub (by linarith) (by linarith), wave_rise (by linarith) (by linarith)]
      ring
  | greenRed hmax hmin =>
    refine ⟨⟨by linarith, by linarith⟩, ?_, ?_, ?_⟩
    · rw [wave_sub (by linarith) (by linarith), wave_rise (by linarith) (by linarith)]
      ring
    · rw [wave_low_again (by linarith) (by linarith), hmax, sub_self]
    · rw [wave_high (by linarith) (by linarith), hmin, sub_zero]
  | greenBlue hmax hmin =>
    refine ⟨⟨by linarith, by linarith⟩, ?_, ?_, ?_⟩
    · rw [wave_sub (by linarith) (by linarith), wave_high (by linarith) (by linarith), hmin, sub_zero]
    · rw [wave_low_again (by linarith) (by linarith), hmax, sub_self]
    · rw [wave_fall (by linarith) (by linarith)]
      ring
  | blueGreen hmax hmin =>
    refine ⟨⟨by linarith, by linarith⟩, ?_, ?_, ?_⟩
    · rw [wave_sub (by linarith) (by linarith), wave_high (by linarith) (by linarith), hmin, sub_zero]
    · rw [wave_sub (by linarith) (by linarith), wave_rise (by linarith) (by linarith)]
      ring
    · rw [wave_low_again (by linarith) (by linarith), hmax, sub_self]
  | blueRed hmax hmin =>
    refine ⟨⟨by linarith, by linarith⟩, ?_, ?_, ?_⟩
    · rw [wave_sub (by linarith) (by linarith), wave_fall (by linarith) (by linarith)]
      ring
    · rw [wave_sub (by linarith) (by linarith), wave_high (by linarith) (by linarith), hmin, sub_zero]
    · rw [wave_low_again (by linarith) (by linarith), hmax, sub_self]

/-! ## The hue of three channels -/

theorem max3_cases (r g b : ℚ) : max3 (r, g, b) = r ∨ max3 (r, g, b) = g ∨ max3 (r, g, b) = b := by
  rcases max_choice (max r g) b with h | h
  · rcases max_choice r g with h' | h'
    · exact Or.inl (h.trans h')
    · exact Or.inr (Or.inl (h.trans h'))
  · exact Or.inr (Or.inr h)

theorem min3_cases (r g b : ℚ) : min3 (r, g, b) = r ∨ min3 (r, g, b) = g ∨ min3 (r, g, b) = b := by
  rcases min_choice (min r g) b with h | h
  · rcases min_choice r g with h' | h'
    · exact Or.inl (h.trans h')
    · exact Or.inr (Or.inl (h.trans h'))
  · exact Or.inr (Or.inr h)

/-- No channel is out of the spread. -/
theorem between (r g b : ℚ) : (min3 (r, g, b) ≤ r ∧ r ≤ max3 (r, g, b)) ∧ (min3 (r, g, b) ≤ g ∧ g ≤ max3 (r, g, b)) ∧
    min3 (r, g, b) ≤ b ∧ b ≤ max3 (r, g, b) :=
  ⟨⟨(min_le_left _ _).trans (min_le_left _ _), (le_max_left _ _).trans (le_max_left _ _)⟩,
    ⟨(min_le_left _ _).trans (min_le_right _ _), (le_max_right _ _).trans (le_max_left _ _)⟩,
    min_le_right _ _, le_max_right _ _⟩

/-- A channel in units of the spread. -/
def unit (rgb : Triple) (c : ℚ) : ℚ := (c - min3 rgb) / (max3 rgb - min3 rgb)

theorem unit_bounds {rgb : Triple} {c : ℚ} (hd : 0 < max3 rgb - min3 rgb) (h : min3 rgb ≤ c ∧ c ≤ max3 rgb) :
    0 ≤ unit rgb c ∧ unit rgb c ≤ 1 := by
  constructor
  · exact div_nonneg (by linarith [h.1]) hd.le
  · rw [unit, div_le_one hd]
    linarith [h.2]

theorem unit_sub (rgb : Triple) (c c' : ℚ) : unit rgb c - unit rgb c' = (c - c') / (max3 rgb - min3 rgb) := by
  rw [unit, unit, ← sub_div]
  congr 1
  ring

theorem unit_max {rgb : Triple} (hd : 0 < max3 rgb - min3 rgb) : unit rgb (max3 rgb) = 1 := div_self hd.ne'

theorem unit_min (rgb : Triple) : unit rgb (min3 rgb) = 0 := by rw [unit, sub_self, zero_div]

/-- **The hue** tells the sextant. -/
theorem sextant_hueOf {r g b : ℚ} (hd : 0 < max3 (r, g, b) - min3 (r, g, b)) :
    Sextant (unit (r, g, b) r) (unit (r, g, b) g) (unit (r, g, b) b) (hueOf (r, g, b) / 60) := by
  obtain ⟨hr, hg, hb⟩ := between r g b
  obtain ⟨hR0, hR1⟩ := unit_bounds hd hr
  obtain ⟨hG0, hG1⟩ := unit_bounds hd hg
  obtain ⟨hB0, hB1⟩ := unit_bounds hd hb
  have hmax := unit_max hd
  have hmin := unit_min (r, g, b)
  have hturn : ∀ x : ℚ, (if x * 60 < 0 then x * 60 + 360 else x * 60) / 60 = if x < 0 then x + 6 else x := by
    intro x
    by_cases hx : x < 0
    · rw [if_pos hx, if_pos (by linarith)]
      ring
    · rw [if_neg hx, if_neg (by linarith)]
      ring
  rw [hueOf, hturn, ← unit_sub, ← unit_sub, ← unit_sub]
  by_cases hred : max3 (r, g, b) = r
  · rw [if_pos hred]
    rw [hred] at hmax
    rcases min3_cases r g b with h | h | h <;> rw [h] at hmin
    · exact absurd (hmax.symm.trans hmin) one_ne_zero
    · rcases lt_or_eq_of_le hB0 with hpos | hzero
      · have hturned : rem (unit (r, g, b) g - unit (r, g, b) b) 6 = -unit (r, g, b) b := by
          rw [hmin, zero_sub, rem_of_neg (by linarith) (by linarith)]
        rw [hturned, if_pos (by linarith), neg_add_eq_sub]
        exact .redBlue hmax hmin hpos
      · have hsame : rem (unit (r, g, b) g - unit (r, g, b) b) 6 = unit (r, g, b) g := by
          rw [← hzero, sub_zero, rem_of_lt hG0 (by linarith)]
        rw [hsame, if_neg (not_lt.mpr hG0)]
        exact .redGreen hmax hzero.symm
    · have hsame : rem (unit (r, g, b) g - unit (r, g, b) b) 6 = unit (r, g, b) g := by
        rw [hmin, sub_zero, rem_of_lt hG0 (by linarith)]
      rw [hsame, if_neg (not_lt.mpr hG0)]
      exact .redGreen hmax hmin
  · rw [if_neg hred]
    by_cases hgreen : max3 (r, g, b) = g
    · rw [if_pos hgreen, if_neg (by linarith)]
      rw [hgreen] at hmax
      rcases min3_cases r g b with h | h | h <;> rw [h] at hmin
      · have hvalue : unit (r, g, b) b - unit (r, g, b) r + 2 = 2 + unit (r, g, b) b := by linarith
        rw [hvalue]
        exact .greenBlue hmax hmin
      · exact absurd (hmax.symm.trans hmin) one_ne_zero
      · have hvalue : unit (r, g, b) b - unit (r, g, b) r + 2 = 2 - unit (r, g, b) r := by linarith
        rw [hvalue]
        exact .greenRed hmax hmin
    · have hblue : max3 (r, g, b) = b := ((max3_cases r g b).resolve_left hred).resolve_left hgreen
      rw [if_neg hgreen, if_neg (by linarith)]
      rw [hblue] at hmax
      rcases min3_cases r g b with h | h | h <;> rw [h] at hmin
      · have hvalue : unit (r, g, b) r - unit (r, g, b) g + 4 = 4 - unit (r, g, b) g := by linarith
        rw [hvalue]
        exact .blueGreen hmax hmin
      · have hvalue : unit (r, g, b) r - unit (r, g, b) g + 4 = 4 + unit (r, g, b) r := by linarith
        rw [hvalue]
        exact .blueRed hmax hmin
      · exact absurd (hmax.symm.trans hmin) one_ne_zero

/-- **The wave at the hue** of three channels takes each of them off the largest. -/
theorem wave_hue {r g b : ℚ} (hd : 0 < max3 (r, g, b) - min3 (r, g, b)) :
    (0 ≤ hueOf (r, g, b) / 60 ∧ hueOf (r, g, b) / 60 < 6) ∧
      max3 (r, g, b) - (max3 (r, g, b) - min3 (r, g, b)) * wave (5 + hueOf (r, g, b) / 60) = r ∧
      max3 (r, g, b) - (max3 (r, g, b) - min3 (r, g, b)) * wave (3 + hueOf (r, g, b) / 60) = g ∧
      max3 (r, g, b) - (max3 (r, g, b) - min3 (r, g, b)) * wave (1 + hueOf (r, g, b) / 60) = b := by
  obtain ⟨hr, hg, hb⟩ := between r g b
  obtain ⟨hrange, hR, hG, hB⟩ := wave_sextant (unit_bounds hd hr) (unit_bounds hd hg) (unit_bounds hd hb) (sextant_hueOf hd)
  have hscaled : ∀ c, max3 (r, g, b) - (max3 (r, g, b) - min3 (r, g, b)) * (1 - unit (r, g, b) c) = c := by
    intro c
    rw [mul_sub, mul_one, unit, mul_div_cancel₀ _ hd.ne']
    ring
  refine ⟨hrange, ?_, ?_, ?_⟩
  · rw [hR, hscaled]
  · rw [hG, hscaled]
  · rw [hB, hscaled]

/-! ## There and back -/

/-- Where the channels are the same, they are the smallest and the largest. -/
theorem grey_of_spread {r g b : ℚ} (h : max3 (r, g, b) - min3 (r, g, b) = 0) :
    (max3 (r, g, b), max3 (r, g, b), max3 (r, g, b)) = (r, g, b) := by
  obtain ⟨hr, hg, hb⟩ := between r g b
  rw [Prod.mk.injEq, Prod.mk.injEq]
  exact ⟨by linarith [hr.1, hr.2], by linarith [hg.1, hg.2], by linarith [hb.1, hb.2]⟩

/-- What `hslToRgb` takes off in one place is twice what `hsvToRgb` does, less one. -/
def bump (k : ℚ) : ℚ := max (-1) (min (k - 3) (min (9 - k) 1))

theorem bump_double {z : ℚ} (h0 : 0 ≤ z) (h1 : z < 6) : bump (2 * z) = 2 * wave (5 + z) - 1 := by
  rw [bump]
  by_cases hrise : z ≤ 1
  · rw [wave_low_again (by linarith) (by linarith), max_eq_left]
    · norm_num
    · exact (min_le_left _ _).trans (by linarith)
  by_cases hone : z ≤ 2
  · rw [wave_sub (by linarith) (by linarith), wave_rise (by linarith) (by linarith),
      min_eq_right (by linarith : 1 ≤ 9 - 2 * z),
      min_eq_left (by linarith), max_eq_right (by linarith)]
    ring
  by_cases hfour : z ≤ 4
  · rw [wave_sub (by linarith) (by linarith), wave_high (by linarith) (by linarith),
      min_eq_right (by linarith : 1 ≤ 9 - 2 * z),
      min_eq_right (by linarith), max_eq_right (by linarith)]
    norm_num
  by_cases hfive : z ≤ 5
  · rw [wave_sub (by linarith) (by linarith), wave_fall (by linarith) (by linarith),
      min_eq_left (by linarith : 9 - 2 * z ≤ 1),
      min_eq_right (by linarith), max_eq_right (by linarith)]
    ring
  · rw [wave_sub (by linarith) (by linarith), wave_low (by linarith) (by linarith), max_eq_left]
    · norm_num
    · exact (min_le_right _ _).trans ((min_le_left _ _).trans (by linarith))

/-- A place `c` further on. -/
theorem bump_place {c H : ℚ} (hc : 1 ≤ c ∧ c ≤ 6) (h : 0 ≤ H ∧ H < 6) :
    bump (rem (2 * c + 2 * H) 12) = 2 * wave (c - 1 + H) - 1 := by
  by_cases hlt : c + H < 6
  · have hplace : wave (c - 1 + H) = wave (5 + (c + H)) := by
      rw [wave_sub (x := 5 + (c + H)) (by linarith [h.1]) (by linarith)]
      congr 1
      ring
    rw [rem_of_lt (by linarith [h.1]) (by linarith), ← mul_add, bump_double (by linarith [h.1]) hlt, hplace]
  · have hplace : 2 * c + 2 * H - 12 = 2 * (c + H - 6) := by ring
    rw [rem_of_le (by norm_num) (by linarith) (by linarith [h.2, hc.2]), hplace,
      bump_double (by linarith) (by linarith [h.2, hc.2])]
    congr 3
    ring

/-- The three places that `hslToRgb` looks at. -/
theorem bump_hue {h : ℚ} (hrange : 0 ≤ h / 60 ∧ h / 60 < 6) :
    bump (rem (0 + h / 30) 12) = 2 * wave (5 + h / 60) - 1 ∧ bump (rem (8 + h / 30) 12) = 2 * wave (3 + h / 60) - 1 ∧
      bump (rem (4 + h / 30) 12) = 2 * wave (1 + h / 60) - 1 := by
  have hdouble : h / 30 = 2 * (h / 60) := by ring
  rw [hdouble]
  refine ⟨?_, ?_, ?_⟩
  · rw [zero_add, rem_of_lt (by linarith [hrange.1]) (by linarith [hrange.2])]
    exact bump_double hrange.1 hrange.2
  · have hplace := bump_place (c := 4) (by norm_num) hrange
    norm_num at hplace
    exact hplace
  · have hplace := bump_place (c := 2) (by norm_num) hrange
    norm_num at hplace
    exact hplace

theorem hslToRgb_eq (h S L : ℚ) : hslToRgb (h, S * 100, L * 100) =
    (L - S * min L (1 - L) * bump (rem (0 + h / 30) 12), L - S * min L (1 - L) * bump (rem (8 + h / 30) 12),
      L - S * min L (1 - L) * bump (rem (4 + h / 30) 12)) := by
  rw [hslToRgb]
  simp only [mul_div_cancel_right₀ _ (by norm_num : (100 : ℚ) ≠ 0), bump]

/-- Going back from a hue: the largest channel less the wave. -/
theorem hslToRgb_of_amplitude {r g b S L : ℚ} (hd : 0 < max3 (r, g, b) - min3 (r, g, b))
    (hL : L = (max3 (r, g, b) + min3 (r, g, b)) / 2) (ha : S * min L (1 - L) = (max3 (r, g, b) - min3 (r, g, b)) / 2) :
    hslToRgb (hueOf (r, g, b), S * 100, L * 100) = (r, g, b) := by
  obtain ⟨hrange, hr, hg, hb⟩ := wave_hue hd
  obtain ⟨h0, h8, h4⟩ := bump_hue hrange
  have hback : ∀ w : ℚ, L - (max3 (r, g, b) - min3 (r, g, b)) / 2 * (2 * w - 1) =
      max3 (r, g, b) - (max3 (r, g, b) - min3 (r, g, b)) * w := by
    intro w
    rw [hL]
    ring
  rw [hslToRgb_eq, h0, h8, h4, ha, hback, hback, hback, hr, hg, hb]

theorem hsvToRgb_eq (h S V : ℚ) : hsvToRgb (h, S * 100, V * 100) =
    (V - V * S * wave (5 + h / 60), V - V * S * wave (3 + h / 60), V - V * S * wave (1 + h / 60)) := by
  rw [hsvToRgb]
  simp only [mul_div_cancel_right₀ _ (by norm_num : (100 : ℚ) ≠ 0), wave]

/-- Three channels from 0 to 1, which are the same or at least `epsilon` apart. -/
structure Apart (rgb : Triple) : Prop where
  low : 0 ≤ min3 rgb
  high : max3 rgb ≤ 1
  spread : max3 rgb - min3 rgb = 0 ∨ epsilon ≤ max3 rgb - min3 rgb

theorem epsilon_pos : 0 < epsilon := by
  rw [epsilon]
  norm_num

theorem hslToRgb_rgbToHsl {rgb : Triple} (h : Apart rgb) : hslToRgb (rgbToHsl rgb) = rgb := by
  obtain ⟨r, g, b⟩ := rgb
  obtain ⟨hlow, hhigh, hspread⟩ := h
  rw [rgbToHsl]
  rcases hspread with hzero | hapart
  · have hl : (max3 (r, g, b) + min3 (r, g, b)) / 2 = max3 (r, g, b) := by linarith
    dsimp only
    rw [if_pos (by rw [hzero]; exact epsilon_pos), hl, hslToRgb]
    simp only [zero_div, zero_mul, sub_zero, mul_div_cancel_right₀ _ (by norm_num : (100 : ℚ) ≠ 0)]
    exact grey_of_spread hzero
  · have hd : 0 < max3 (r, g, b) - min3 (r, g, b) := epsilon_pos.trans_le hapart
    dsimp only
    rw [if_neg (not_lt.mpr hapart)]
    apply hslToRgb_of_amplitude hd rfl
    by_cases hlight : (max3 (r, g, b) + min3 (r, g, b)) / 2 > 1 / 2
    · have hne : 2 - max3 (r, g, b) - min3 (r, g, b) ≠ 0 := by linarith
      rw [if_pos hlight, min_eq_right (by linarith)]
      field_simp
      ring
    · have hne : max3 (r, g, b) + min3 (r, g, b) ≠ 0 := by linarith
      rw [if_neg hlight, min_eq_left (by linarith)]
      field_simp

theorem hsvToRgb_rgbToHsv {rgb : Triple} (h : Apart rgb) : hsvToRgb (rgbToHsv rgb) = rgb := by
  obtain ⟨r, g, b⟩ := rgb
  obtain ⟨hlow, hhigh, hspread⟩ := h
  rcases hspread with hzero | hapart
  · have hs : rgbToHsv (r, g, b) = (0, 0 * 100, max3 (r, g, b) * 100) := by
      rw [rgbToHsv, hzero, if_neg (not_le.mpr epsilon_pos), zero_div, zero_mul, ite_self]
    rw [hs, hsvToRgb_eq]
    simp only [mul_zero, zero_mul, sub_zero]
    exact grey_of_spread hzero
  · have hd : 0 < max3 (r, g, b) - min3 (r, g, b) := epsilon_pos.trans_le hapart
    have hmax : epsilon ≤ max3 (r, g, b) := by linarith
    have hpos : max3 (r, g, b) ≠ 0 := (epsilon_pos.trans_le hmax).ne'
    have hs : rgbToHsv (r, g, b) =
        (hueOf (r, g, b), (max3 (r, g, b) - min3 (r, g, b)) / max3 (r, g, b) * 100, max3 (r, g, b) * 100) := by
      rw [rgbToHsv, if_pos hapart, if_neg (not_lt.mpr hmax)]
    obtain ⟨-, hr, hg, hb⟩ := wave_hue hd
    rw [hs, hsvToRgb_eq, mul_div_cancel₀ _ hpos, hr, hg, hb]

theorem hwbToRgb_rgbToHwb {rgb : Triple} (h : Apart rgb) : hwbToRgb (rgbToHwb rgb) = rgb := by
  obtain ⟨r, g, b⟩ := rgb
  obtain ⟨hlow, hhigh, hspread⟩ := h
  rw [rgbToHwb, hwbToRgb]
  simp only [mul_div_cancel_right₀ _ (by norm_num : (100 : ℚ) ≠ 0)]
  rcases hspread with hzero | hapart
  · have hsum : min3 (r, g, b) + (1 - max3 (r, g, b)) = 1 := by linarith
    have hgrey : min3 (r, g, b) = max3 (r, g, b) := by linarith
    rw [if_pos (by rw [hsum]), hsum, div_one, hgrey]
    exact grey_of_spread hzero
  · have hd : 0 < max3 (r, g, b) - min3 (r, g, b) := epsilon_pos.trans_le hapart
    have hhue : (rgbToHsv (r, g, b)).1 = hueOf (r, g, b) := by
      rw [rgbToHsv]
      exact if_pos hapart
    rw [if_neg (by linarith), hhue]
    obtain ⟨hrange, hr, hg, hb⟩ := wave_hue hd
    obtain ⟨h0, h8, h4⟩ := bump_hue hrange
    have hpure : hslToRgb (hueOf (r, g, b), 100, 50) = (1 - wave (5 + hueOf (r, g, b) / 60),
        1 - wave (3 + hueOf (r, g, b) / 60), 1 - wave (1 + hueOf (r, g, b) / 60)) := by
      have hhalf : ∀ w : ℚ, 1 / 2 - 1 * min (1 / 2) (1 - 1 / 2) * (2 * w - 1) = 1 - w := by
        intro w
        rw [min_eq_left (by norm_num)]
        ring
      have heq := hslToRgb_eq (hueOf (r, g, b)) 1 (1 / 2)
      rw [h0, h8, h4, hhalf, hhalf, hhalf] at heq
      norm_num at heq
      exact heq
    have hmix : ∀ w : ℚ, (1 - w) * (1 - min3 (r, g, b) - (1 - max3 (r, g, b))) + min3 (r, g, b) =
        max3 (r, g, b) - (max3 (r, g, b) - min3 (r, g, b)) * w := by
      intro w
      ring
    rw [hpure]
    dsimp only
    rw [hmix, hmix, hmix, hr, hg, hb]

/-- **In four inks**, a colour comes back if and only if it is black or not as dark as `epsilon`. -/
theorem cmykToRgb_rgbToCmyk_iff {rgb : Triple} (hlow : 0 ≤ min3 rgb) :
    cmykToRgb (rgbToCmyk rgb) = rgb ↔ max3 rgb = 0 ∨ epsilon < max3 rgb := by
  obtain ⟨r, g, b⟩ := rgb
  obtain ⟨hr, hg, hb⟩ := between r g b
  rw [rgbToCmyk]
  by_cases hdark : 1 - max3 (r, g, b) ≥ 1 - epsilon
  · have hblack : cmykToRgb (0, 0, 0, 100) = (0, 0, 0) := by
      rw [cmykToRgb]
      norm_num
    rw [if_pos hdark, hblack]
    constructor
    · intro h
      rw [← h]
      exact Or.inl rfl
    · rintro (hzero | hlight)
      · rw [← grey_of_spread (by linarith : max3 (r, g, b) - min3 (r, g, b) = 0), hzero]
      · linarith
  · have hne : max3 (r, g, b) ≠ 0 := by
      intro hzero
      rw [hzero, sub_zero] at hdark
      exact hdark (by linarith [epsilon_pos])
    have hk : 1 - (1 - max3 (r, g, b)) = max3 (r, g, b) := by ring
    have hink : ∀ c : ℚ, (1 - (1 - c - (1 - max3 (r, g, b))) / max3 (r, g, b)) * max3 (r, g, b) = c := by
      intro c
      rw [sub_mul, div_mul_cancel₀ _ hne]
      ring
    rw [if_neg hdark, cmykToRgb]
    simp only [mul_div_cancel_right₀ _ (by norm_num : (100 : ℚ) ≠ 0), hk, hink, true_iff]
    exact Or.inr (by linarith)

/-- **There and back**: by hue every colour comes back, and in four inks every one but those that are nearly black. -/
theorem conversions_invert {rgb : Triple} (h : Apart rgb) :
    hslToRgb (rgbToHsl rgb) = rgb ∧ hsvToRgb (rgbToHsv rgb) = rgb ∧ hwbToRgb (rgbToHwb rgb) = rgb ∧
      (cmykToRgb (rgbToCmyk rgb) = rgb ↔ max3 rgb = 0 ∨ epsilon < max3 rgb) :=
  ⟨hslToRgb_rgbToHsl h, hsvToRgb_rgbToHsv h, hwbToRgb_rgbToHwb h, cmykToRgb_rgbToCmyk_iff h.low⟩

/-- An orange. -/
theorem conversions_invert_orange : hslToRgb (rgbToHsl (1, 1 / 2, 0)) = (1, 1 / 2, 0) ∧
    hsvToRgb (rgbToHsv (1, 1 / 2, 0)) = (1, 1 / 2, 0) ∧ hwbToRgb (rgbToHwb (1, 1 / 2, 0)) = (1, 1 / 2, 0) ∧
      (cmykToRgb (rgbToCmyk (1, 1 / 2, 0)) = (1, 1 / 2, 0) ↔ max3 (1, 1 / 2, 0) = 0 ∨ epsilon < max3 (1, 1 / 2, 0)) := by
  have hmin : min3 (1, 1 / 2, 0) = 0 := by norm_num [min3]
  have hmax : max3 (1, 1 / 2, 0) = 1 := by norm_num [max3]
  have hspread : epsilon ≤ 1 - 0 := by norm_num [epsilon]
  exact conversions_invert ⟨hmin.ge, hmax.le, by rw [hmax, hmin]; exact Or.inr hspread⟩

/-- **A grey that is nearly black** comes back from four inks as black. -/
theorem nearly_black : ¬∀ rgb : Triple, Apart rgb → hslToRgb (rgbToHsl rgb) = rgb ∧ hsvToRgb (rgbToHsv rgb) = rgb ∧
    hwbToRgb (rgbToHwb rgb) = rgb ∧ cmykToRgb (rgbToCmyk rgb) = rgb := by
  intro h
  have hmin : min3 (epsilon, epsilon, epsilon) = epsilon := by rw [min3, min_self, min_self]
  have hmax : max3 (epsilon, epsilon, epsilon) = epsilon := by rw [max3, max_self, max_self]
  have hone : epsilon ≤ 1 := by norm_num [epsilon]
  have hlow : 0 ≤ min3 (epsilon, epsilon, epsilon) := by
    rw [hmin]
    exact epsilon_pos.le
  have hback := (h (epsilon, epsilon, epsilon)
    ⟨hlow, hmax.le.trans hone, Or.inl (by rw [hmax, hmin, sub_self])⟩).2.2.2
  rw [cmykToRgb_rgbToCmyk_iff hlow, hmax] at hback
  rcases hback with hzero | hlt
  · exact epsilon_pos.ne' hzero
  · exact lt_irrefl _ hlt

end Colour
end MaterialOpenWebui
