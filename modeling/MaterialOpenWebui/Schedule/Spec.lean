import MaterialOpenWebui.Schedule.Evaluate

/-!
# `Schedule.Spec` — what a rule means on the calendar

A rule opens one window on every day it covers: from its start time to its end time, into the next day when
the end comes first, the whole day when the two are equal. `InForce` says that a wall clock stands in the
window of a day; it knows days by their number and compares dates as dates. `evaluate` is proved to decide
it, and to report the day, for an enabled rule and a local year of four digits (`evaluate_eq`,
`evaluate_decides`).

Beyond those years the texts part ways: `Intl` writes the year 999 with three digits and the year 10000 with
five, and the dates of rules are compared with them as text.
-/

namespace MaterialOpenWebui
namespace Schedule
open Js JsValue

/-! ## The calendar specification -/

/-- When the window of day `D` opens, on the wall clock. -/
def opensAt (rule : Rule) (D : Int) : Int :=
  if timeOf rule.startTime = timeOf rule.endTime then D * dayMs
  else D * dayMs + timeOf rule.startTime * minuteMs

/-- When it closes: the next day when the end time comes before the start time. -/
def closesAt (rule : Rule) (D : Int) : Int :=
  if timeOf rule.startTime = timeOf rule.endTime then (D + 1) * dayMs
  else if timeOf rule.endTime < timeOf rule.startTime then (D + 1) * dayMs + timeOf rule.endTime * minuteMs
  else D * dayMs + timeOf rule.endTime * minuteMs

/-- The date a text of a rule names. -/
def dateOf (d : JsValue) : Int ×ₗ Nat ×ₗ Nat :=
  match d.toStr.bind matchDate with
  | some (y, m, d) => toLex ((y : Int), toLex (m, d))
  | none => toLex (0, toLex (0, 0))

/-- Day `D` is neither before the start date nor after the end date. -/
def InRange (rule : Rule) (D : Int) : Prop :=
  (∀ d, rule.startDate = some d → dateOf d ≤ Calendar.civil D) ∧
    ∀ d, rule.endDate = some d → Calendar.civil D ≤ dateOf d

/-- The rule applies on day `D`. -/
def Covers (rule : Rule) (D : Int) : Prop := Calendar.weekday D ∈ rule.days ∧ InRange rule D

/-- The wall clock `w` stands in the window of day `D`, which is the local day or the day before. -/
def InForce (rule : Rule) (w D : Int) : Prop :=
  (D = w / dayMs ∨ D = w / dayMs - 1) ∧ Covers rule D ∧ opensAt rule D ≤ w ∧ w < closesAt rule D

/-- The local year has four digits, as the dates of rules have. -/
def FourDigitYear (D : Int) : Prop := 1000 ≤ Calendar.year D ∧ Calendar.year D ≤ 9999

/-! ## Texts and dates -/

theorem isoDate_eq {D : Int} (hlow : 0 ≤ Calendar.year D) (hhigh : Calendar.year D ≤ 9999) :
    isoDate D = dateText (Calendar.year D).toNat (Calendar.month D) (Calendar.day D) := by
  have hlen : (dateText (Calendar.year D).toNat (Calendar.month D) (Calendar.day D)).length = 10 := by
    have hone : (js "-").length = 1 := rfl
    simp [dateText, length_padded, hone]
  unfold isoDate isoYear
  rw [if_pos ⟨hlow, hhigh⟩, ← dateText]
  exact List.take_of_length_le (Nat.le_of_eq hlen)

/-- With four digits both renderings of a date agree. -/
theorem intlDate_eq {D : Int} (h : FourDigitYear D) : intlDate D = isoDate D := by
  obtain ⟨hlow, hhigh⟩ := h
  have hyear : intlYear (Calendar.year D) = (Calendar.year D).toNat := by
    unfold intlYear
    rw [if_neg (by omega)]
  rw [isoDate_eq (by omega) hhigh, intlDate, hyear, natText_eq_padded 3 _ (by omega) (by omega), dateText]

theorem twoDigits_eq {a b : UInt16} {n : Nat} (h : twoDigits a b = some n) : n < 100 ∧ [a, b] = padded 2 n := by
  have hdigit : ∀ u d, digitValue u = some d → d < 10 ∧ u = digitUnit d := by
    intro u d hu
    unfold digitValue at hu
    split_ifs at hu with hrange
    cases hu
    simp only [Bool.and_eq_true, decide_eq_true_eq] at hrange
    refine ⟨by omega, ?_⟩
    rw [digitUnit, ← UInt16.toNat_inj, UInt16.toNat_ofNat']
    omega
  unfold twoDigits at h
  simp only [Option.bind_eq_bind, Option.bind_eq_some_iff] at h
  obtain ⟨x, hx, y, hy, h⟩ := h
  cases h
  obtain ⟨hx10, rfl⟩ := hdigit a x hx
  obtain ⟨hy10, rfl⟩ := hdigit b y hy
  have hdiv : (x * 10 + y) / 10 = x := by omega
  have hmod : (x * 10 + y) % 10 = y := by omega
  refine ⟨by omega, ?_⟩
  simp only [padded, hdiv, hmod, Nat.mod_eq_of_lt hx10, List.nil_append, List.cons_append]

/-- A text that matches is the text of its three numbers. -/
theorem matchDate_eq {s : JsString} {y m d : Nat} (h : matchDate s = some (y, m, d)) :
    y < 10000 ∧ m < 100 ∧ d < 100 ∧ s = dateText y m d := by
  unfold matchDate at h
  split at h
  · simp only [Option.bind_eq_bind, Option.bind_eq_some_iff] at h
    obtain ⟨century, hcentury, rest, hrest, month, hmonth, day, hday, h⟩ := h
    split_ifs at h with hhyphens
    cases h
    obtain ⟨hc, hceq⟩ := twoDigits_eq hcentury
    obtain ⟨hr, hreq⟩ := twoDigits_eq hrest
    obtain ⟨hm, hmeq⟩ := twoDigits_eq hmonth
    obtain ⟨hd, hdeq⟩ := twoDigits_eq hday
    refine ⟨by omega, hm, hd, ?_⟩
    -- four digits are two digits after two digits
    have hyear : padded 4 (century * 100 + rest) = padded 2 century ++ padded 2 rest := by
      have h1 : (century * 100 + rest) / 10 / 10 = century := by omega
      have h2 : (century * 100 + rest) / 10 % 10 = rest / 10 % 10 := by omega
      have h3 : (century * 100 + rest) % 10 = rest % 10 := by omega
      rw [padded, padded, h1, h2, h3]
      simp [padded]
    have hhyphen : js "-" = [hyphen] := rfl
    rw [dateText, hyear, ← hceq, ← hreq, ← hmeq, ← hdeq, hhyphen, hhyphens.1, hhyphens.2]
    rfl
  · cases h

/-- Comparing the text of a day with a rule's date compares the dates. -/
theorem textBefore_date {D : Int} (hlow : 0 ≤ Calendar.year D) (hhigh : Calendar.year D ≤ 9999) {d : JsValue}
    (hd : IsDate d) : textBefore (.str (isoDate D)) d = .ok (decide (Calendar.civil D < dateOf d)) ∧
      textBefore d (.str (isoDate D)) = .ok (decide (dateOf d < Calendar.civil D)) := by
  obtain ⟨s, hs, ⟨y, m, n⟩, hmatch⟩ := hd
  obtain ⟨hy, hm, hn, rfl⟩ := matchDate_eq hmatch
  have hmonth := Calendar.month_bounds D
  have hday := Calendar.day_bounds D
  have hdate : dateOf d = toLex ((y : Int), toLex (m, n)) := by
    unfold dateOf
    rw [hs, Option.bind_some, hmatch]
  have hcivil : Calendar.civil D =
      toLex (Calendar.year D, toLex (Calendar.month D, Calendar.day D)) := rfl
  have hstr : ∀ t, toStrOrThrow (.str t) = .ok t := fun _ => rfl
  have hstrd : toStrOrThrow d = .ok (dateText y m n) := by
    unfold toStrOrThrow
    rw [hs]
  have hyear : ((Calendar.year D).toNat : Int) = Calendar.year D := Int.toNat_of_nonneg hlow
  have hlt := dateText_lt_iff (y := (Calendar.year D).toNat) (m := Calendar.month D) (d := Calendar.day D)
    (by omega) (by omega) (by omega) hy hm hn
  have hgt : dateText y m n < dateText (Calendar.year D).toNat (Calendar.month D) (Calendar.day D) ↔ _ :=
    dateText_lt_iff hy hm hn (by omega) (by omega) (by omega)
  rw [isoDate_eq hlow hhigh, hdate, hcivil]
  simp only [Prod.Lex.toLex_lt_toLex] at hlt hgt ⊢
  constructor
  · simp only [textBefore, hstr, hstrd]
    refine congrArg Except.ok (decide_eq_decide.mpr (hlt.trans ?_))
    omega
  · simp only [textBefore, hstr, hstrd]
    refine congrArg Except.ok (decide_eq_decide.mpr (hgt.trans ?_))
    omega

/-! ## One reading -/

/-- A day as the evaluator passes it on. -/
def dayRecord (D : Int) : CalendarDay :=
  { year := Calendar.year D, month := Calendar.month D, day := Calendar.day D,
    weekday := Calendar.weekday D, date := isoDate D }

theorem today_reading {w : Int} (h : FourDigitYear (w / dayMs)) : (reading w).today = dayRecord (w / dayMs) := by
  have hyear : ((intlYear (Calendar.year (w / dayMs)) : Nat) : Int) = Calendar.year (w / dayMs) := by
    obtain ⟨hlow, -⟩ := h
    unfold intlYear
    rw [if_neg (by omega)]
    omega
  simp only [Reading.today, reading, dayRecord, hyear, intlDate_eq h]

/-- Day numbers of four-digit years. -/
theorem FourDigitYear.bounds {D : Int} (h : FourDigitYear D) : -354285 ≤ D ∧ D < 2932897 := by
  obtain ⟨hlow, hhigh⟩ := Calendar.yearOf_bounds D
  have hyear : Calendar.year D = Calendar.yearOf D := rfl
  obtain ⟨h1, h2⟩ := h
  rw [hyear] at h1 h2
  have h3 := Calendar.daysBeforeYear_mono h1
  have h4 := Calendar.daysBeforeYear_mono (show Calendar.yearOf D + 1 ≤ 10000 by omega)
  have h5 : Calendar.daysBeforeYear 1000 = -354285 := by decide
  have h6 : Calendar.daysBeforeYear 10000 = 2932897 := by decide
  omega

/-- Yesterday is the day before, in years that `Date.UTC` takes as they are. -/
theorem shiftDate_reading {w : Int} (h : FourDigitYear (w / dayMs)) :
    shiftDate (reading w).year (reading w).month (reading w).day (-1) = .ok (dayRecord (w / dayMs - 1)) := by
  have hbounds := h.bounds
  have hnumber : dateUTC (reading w).year (reading w).month (reading w).day = w / dayMs * dayMs := by
    obtain ⟨hlow, -⟩ := h
    have hyear : (((intlYear (Calendar.year (w / dayMs)) : Nat)) : Int) = Calendar.year (w / dayMs) := by
      unfold intlYear
      rw [if_neg (by omega)]
      omega
    have hnot : ¬ intlYear (Calendar.year (w / dayMs)) ≤ 99 := by omega
    simp only [dateUTC, reading, if_neg hnot, hyear, Calendar.dayNumber_civil]
  have hday : (w / dayMs * dayMs + -1 * dayMs) / dayMs = w / dayMs - 1 := by
    unfold dayMs
    omega
  have hrange : ¬ (w / dayMs * dayMs < -maxTime ∨ maxTime < w / dayMs * dayMs ∨
      w / dayMs * dayMs + -1 * dayMs < -maxTime ∨ maxTime < w / dayMs * dayMs + -1 * dayMs) := by
    unfold maxTime dayMs at *
    omega
  simp only [shiftDate, hnumber, if_neg hrange, hday, dayRecord]

/-- The day whose window the wall clock is in, if it is in one. -/
def windowDay (start finish : Nat) (w : Int) : Option Int :=
  if start = finish then some (w / dayMs)
  else if ¬ finish < start then
    if (reading w).minutes < start ∨ finish ≤ (reading w).minutes then none else some (w / dayMs)
  else if start ≤ (reading w).minutes then some (w / dayMs)
  else if (reading w).minutes < finish then some (w / dayMs - 1)
  else none

theorem startDay_eq {w : Int} (h : FourDigitYear (w / dayMs)) (start finish : Nat) :
    startDay start finish (reading w) = .ok ((windowDay start finish w).map dayRecord) := by
  unfold startDay windowDay
  rw [today_reading h, shiftDate_reading h]
  split_ifs <;> rfl

theorem minutes_reading (w : Int) : ((reading w).minutes : Int) = w % dayMs / minuteMs := by
  have hnonneg : 0 ≤ w % dayMs / minuteMs := by
    unfold dayMs minuteMs
    omega
  simp only [reading]
  omega

/-- **The window of a day is where its evaluation lands.** -/
theorem windowDay_eq_some_iff {rule : Rule} (hvalid : Valid rule) (w D : Int) :
    windowDay (timeOf rule.startTime) (timeOf rule.endTime) w = some D ↔
      opensAt rule D ≤ w ∧ w < closesAt rule D := by
  have hstart := parseTime_lt hvalid.startTime
  have hfinish := parseTime_lt hvalid.endTime
  have hminutes := minutes_reading w
  unfold windowDay opensAt closesAt
  generalize (reading w).minutes = minutes at hminutes
  generalize timeOf rule.startTime = start at hstart
  generalize timeOf rule.endTime = finish at hfinish
  unfold dayMs minuteMs at *
  -- the clock is `w / day` days and `minutes` minutes, and windows are at most a day long
  split_ifs <;> simp only [Option.some.injEq, false_iff] <;> omega

/-- A window is met on its own day or the next. -/
theorem day_of_window {rule : Rule} (hvalid : Valid rule) {w D : Int} (h : opensAt rule D ≤ w)
    (h' : w < closesAt rule D) : D = w / dayMs ∨ D = w / dayMs - 1 := by
  have hstart := parseTime_lt hvalid.startTime
  have hfinish := parseTime_lt hvalid.endTime
  unfold opensAt at h
  unfold closesAt at h'
  unfold dayMs minuteMs at *
  split_ifs at h h' <;> omega

theorem beforeStart_eq {rule : Rule} (hvalid : Valid rule) {D : Int} (hlow : 0 ≤ Calendar.year D)
    (hhigh : Calendar.year D ≤ 9999) : ∃ b, beforeStart rule (isoDate D) = .ok b ∧
      (b = false ↔ ∀ d, rule.startDate = some d → dateOf d ≤ Calendar.civil D) := by
  unfold beforeStart
  cases hdate : rule.startDate with
  | none => exact ⟨false, rfl, by simp⟩
  | some d =>
    refine ⟨_, (textBefore_date hlow hhigh (hvalid.startDate d hdate)).1, ?_⟩
    simp

theorem afterEnd_eq {rule : Rule} (hvalid : Valid rule) {D : Int} (hlow : 0 ≤ Calendar.year D)
    (hhigh : Calendar.year D ≤ 9999) : ∃ b, afterEnd rule (isoDate D) = .ok b ∧
      (b = false ↔ ∀ d, rule.endDate = some d → Calendar.civil D ≤ dateOf d) := by
  unfold afterEnd
  cases hdate : rule.endDate with
  | none => exact ⟨false, rfl, by simp⟩
  | some d =>
    refine ⟨_, (textBefore_date hlow hhigh (hvalid.endDate d hdate)).2, ?_⟩
    simp

/-- The checks on the day a window began decide whether the rule covers the day. -/
theorem judge_eq {rule : Rule} (hvalid : Valid rule) {D : Int} (hlow : 0 ≤ Calendar.year D)
    (hhigh : Calendar.year D ≤ 9999) : ∃ v, judge rule (dayRecord D) = .ok v ∧
      ∀ text, v = .active text ↔ Covers rule D ∧ text = isoDate D := by
  obtain ⟨early, hearly, hearlyiff⟩ := beforeStart_eq hvalid hlow hhigh
  obtain ⟨late, hlate, hlateiff⟩ := afterEnd_eq hvalid hlow hhigh
  have hdate : (dayRecord D).date = isoDate D := rfl
  have hweekday : (dayRecord D).weekday = Calendar.weekday D := rfl
  by_cases hdays : Calendar.weekday D ∈ rule.days
  · have hcovers : Covers rule D ↔ early = false ∧ late = false := by
      rw [hearlyiff, hlateiff]
      exact ⟨fun h => h.2, fun h => ⟨hdays, h⟩⟩
    rw [hcovers]
    unfold judge
    rw [hweekday, hdate, if_neg (not_not_intro hdays), hearly]
    cases early with
    | true => exact ⟨_, rfl, by simp⟩
    | false =>
      rw [hlate]
      cases late with
      | true => exact ⟨_, rfl, by simp⟩
      | false => exact ⟨_, rfl, by intro text; simp [eq_comm]⟩
  · unfold judge
    rw [hweekday, if_pos hdays]
    refine ⟨_, rfl, ?_⟩
    intro text
    simp [Covers, hdays]

/-- The day before a four-digit year is at worst in the year 999, which `toISOString` pads. -/
theorem year_before {D : Int} (h : FourDigitYear D) : 0 ≤ Calendar.year (D - 1) ∧ Calendar.year (D - 1) ≤ 9999 := by
  have hbounds := h.bounds
  have hyear : ∀ d, Calendar.year d = Calendar.yearOf d := fun _ => rfl
  have hlow : Calendar.yearOf (-354286) ≤ Calendar.yearOf (D - 1) := Calendar.yearOf_mono (by omega)
  have hhigh : Calendar.yearOf (D - 1) ≤ Calendar.yearOf D := Calendar.yearOf_mono (by omega)
  have h999 : Calendar.yearOf (-354286) = 999 := by decide
  obtain ⟨-, hle⟩ := h
  rw [hyear] at hle ⊢
  omega

/-- **What `evaluate` decides**, at a valid instant in a four-digit local year. -/
theorem evaluate_eq {rule : Rule} (hvalid : Valid rule) {offset : Int → Int} {instant : Int}
    (hinstant : -maxTime ≤ instant ∧ instant ≤ maxTime) (hyear : FourDigitYear (localDay offset instant)) :
    ∃ v, evaluate rule offset instant = .ok v ∧ ∀ text, v = .active text ↔
      rule.enabled = true ∧ ∃ D, InForce rule (wall offset instant) D ∧ text = isoDate D := by
  unfold evaluate
  cases henabled : rule.enabled with
  | false => exact ⟨_, rfl, by simp⟩
  | true =>
    have hrange : ¬ (instant < -maxTime ∨ maxTime < instant) := by omega
    simp only [Bool.true_eq_false, if_false, wallClock, if_neg hrange, hvalid.startTime, hvalid.endTime,
      bind, Except.bind, startDay_eq hyear]
    have hwindow := windowDay_eq_some_iff hvalid (wall offset instant)
    cases hday : windowDay (timeOf rule.startTime) (timeOf rule.endTime) (wall offset instant) with
    | none =>
      -- outside every window
      refine ⟨_, rfl, ?_⟩
      intro text
      simp only [reduceCtorEq, false_iff]
      rintro ⟨-, D, ⟨-, -, hopen, hclose⟩, -⟩
      have hsome := (hwindow D).mpr ⟨hopen, hclose⟩
      rw [hday] at hsome
      cases hsome
    | some D =>
      -- in the window of `D` and of no other day, so the checks on `D` decide
      obtain ⟨hopen, hclose⟩ := (hwindow D).mp hday
      have hlocal := day_of_window hvalid hopen hclose
      have hD : 0 ≤ Calendar.year D ∧ Calendar.year D ≤ 9999 := by
        rcases hlocal with rfl | rfl
        · exact ⟨by have := hyear.1; simp only [localDay] at this; omega, hyear.2⟩
        · exact year_before hyear
      obtain ⟨v, hv, hiff⟩ := judge_eq hvalid hD.1 hD.2
      refine ⟨v, hv, ?_⟩
      intro text
      rw [hiff]
      constructor
      · rintro ⟨hcovers, htext⟩
        exact ⟨trivial, D, ⟨hlocal, hcovers, hopen, hclose⟩, htext⟩
      · rintro ⟨-, D', ⟨-, hcovers, hopen', hclose'⟩, htext⟩
        have hsame := (hwindow D').mpr ⟨hopen', hclose'⟩
        rw [hday, Option.some.injEq] at hsame
        subst hsame
        exact ⟨hcovers, htext⟩

/-- **`evaluate` decides the calendar specification**, for any zone, at every instant whose local year has
    four digits: it never throws, an enabled rule is active exactly when the wall clock stands in the window
    of a day it covers, that day is the one reported, and a disabled rule is never active. -/
theorem evaluate_decides {number : JsString → JsNumber} {index : Nat} {input : JsValue} {rule : Rule}
    (haccepted : validateRule number index input = .ok rule) {offset : Int → Int} {instant : Int}
    (hinstant : -maxTime ≤ instant ∧ instant ≤ maxTime) (hyear : FourDigitYear (localDay offset instant)) :
    (∃ v, evaluate rule offset instant = .ok v) ∧
      ∀ text, evaluate rule offset instant = .ok (.active text) ↔
        rule.enabled = true ∧ ∃ D, InForce rule (wall offset instant) D ∧ text = isoDate D := by
  obtain ⟨v, hv, hiff⟩ := evaluate_eq (valid_of_validateRule haccepted) hinstant hyear
  refine ⟨⟨v, hv⟩, ?_⟩
  intro text
  rw [hv, Except.ok.injEq]
  exact hiff text

/-- Friday nights from eight to seven, from 6 March 2026 on. -/
def nightInput : JsValue :=
  .obj [(js "id", .str (js "night")), (js "startTime", .str (js "20:00")), (js "endTime", .str (js "7:00")),
    (js "startDate", .str (js "2026-03-06")), (js "days", .arr [.num (.ofNat 5)]),
    (js "patch", .obj [(js "theme", .str (js "dark"))])]

def nightRule : Rule :=
  { id := js "night", name := js "night", startTime := js "20:00", endTime := js "7:00",
    startDate := some (.str (js "2026-03-06")), endDate := none, days := [5],
    patch := [(js "theme", .str (js "dark"))], enabled := true }

/-- At two on Saturday morning, eight hours east, the window of Friday 6 March is open. -/
theorem night_is_fridays : evaluate nightRule (fun _ => 28800000) 1772820000000 =
    .ok (.active (js "2026-03-06")) := by
  have haccepted : validateRule (fun _ => .nan) 0 nightInput = .ok nightRule := rfl
  refine ((evaluate_decides haccepted ⟨by decide, by decide⟩ ⟨by decide, by decide⟩).2 _).mpr
    ⟨rfl, 20518, ⟨Or.inr (by decide), ⟨by decide, ?_, ?_⟩, by decide, by decide⟩, by decide⟩
  · intro d hd
    cases hd
    decide
  · intro d hd
    cases hd

/-- The night rule, switched off. -/
def disabledInput : JsValue :=
  .obj [(js "id", .str (js "off")), (js "enabled", .bool false),
    (js "patch", .obj [(js "theme", .str (js "dark"))])]

/-- Every day up to the year 1500. -/
def oldInput : JsValue :=
  .obj [(js "id", .str (js "old")), (js "endDate", .str (js "1500-01-01")),
    (js "patch", .obj [(js "theme", .str (js "dark"))])]

/-- A rule the validator accepts can be switched off, and is then inactive all day; and in the year 999 the
    date is compared as a text of three digits, so a rule that ends in 1500 seems to be over. -/
theorem undecided_when_disabled_or_early :
    (∃ rule, validateRule (fun _ => .nan) 0 disabledInput = .ok rule ∧
      InForce rule (wall (fun _ => 0) 1772820000000) 20518 ∧
      evaluate rule (fun _ => 0) 1772820000000 = .ok (.inactive (js "disabled"))) ∧
    ∃ rule, validateRule (fun _ => .nan) 0 oldInput = .ok rule ∧
      InForce rule (wall (fun _ => 0) (-30627504000000)) (-354485) ∧
      evaluate rule (fun _ => 0) (-30627504000000) = .ok (.inactive (js "after the end date")) := by
  constructor
  · refine ⟨_, rfl, ⟨Or.inl (by decide), ⟨by decide, ?_, ?_⟩, by decide, by decide⟩, rfl⟩
    · intro d hd
      cases hd
    · intro d hd
      cases hd
  · refine ⟨_, rfl, ⟨Or.inl (by decide), ⟨by decide, ?_, ?_⟩, by decide, by decide⟩, rfl⟩
    · intro d hd
      cases hd
    · intro d hd
      cases hd
      decide

end Schedule
end MaterialOpenWebui
