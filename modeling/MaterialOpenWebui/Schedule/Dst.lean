import Mathlib
import MaterialOpenWebui.Lib.Intervals
import MaterialOpenWebui.Schedule.Spec

/-!
# `Schedule.Dst` — schedules where the clock skips or repeats

What `evaluate` attributes to a start day is what the wall clock reads in that day's window
(`activeFor_iff`), so both ends of daylight saving come down to which readings occur, and how often.

Where the clock skips from `A` to `B`, a window that starts in between is met only by what it has from `B` on:
the rule does not run that day exactly when the window ends by then (`springForward_iff`). Where the clock is
set back, a window may be met once before and once after. A zone is a list of changes of the offset; each
stretch between two changes passes through the window at most once, and the instants attributed to the day are
one interval exactly when these passes join end to start (`contiguous_iff`).
-/

namespace MaterialOpenWebui
namespace Schedule
open Js JsValue

/-! ## Attribution -/

/-- A time value a `Date` can hold. -/
def ValidTime (t : Int) : Prop := -maxTime ≤ t ∧ t ≤ maxTime

/-- At the instant, in a four-digit local year, the rule is reported as active and started on day `D`. -/
def ActiveFor (rule : Rule) (offset : Int → Int) (D t : Int) : Prop :=
  ValidTime t ∧ FourDigitYear (localDay offset t) ∧ evaluate rule offset t = .ok (.active (isoDate D))

/-- A day whose windows lie in four-digit years altogether. -/
def Dated (D : Int) : Prop := FourDigitYear D ∧ FourDigitYear (D + 1)

theorem dateText_inj {y m d y' m' d' : Nat} (hy : y < 10000) (hm : m < 100) (hd : d < 100) (hy' : y' < 10000)
    (hm' : m' < 100) (hd' : d' < 100) (h : dateText y m d = dateText y' m' d') :
    y = y' ∧ m = m' ∧ d = d' := by
  have hself : ∀ s : JsString, ¬ s < s := fun s => List.lt_irrefl s
  have hlt := dateText_lt_iff hy hm hd hy' hm' hd'
  have hgt := dateText_lt_iff hy' hm' hd' hy hm hd
  rw [h] at hlt hgt
  simp only [hself, false_iff, Prod.Lex.toLex_lt_toLex] at hlt hgt
  omega

/-- The text of a day names the day. -/
theorem isoDate_inj {D D' : Int} (h : 0 ≤ Calendar.year D ∧ Calendar.year D ≤ 9999)
    (h' : 0 ≤ Calendar.year D' ∧ Calendar.year D' ≤ 9999) (heq : isoDate D = isoDate D') : D = D' := by
  have hm := Calendar.month_bounds D
  have hm' := Calendar.month_bounds D'
  have hd := Calendar.day_bounds D
  have hd' := Calendar.day_bounds D'
  rw [isoDate_eq h.1 h.2, isoDate_eq h'.1 h'.2] at heq
  obtain ⟨hyear, hmonth, hday⟩ := dateText_inj (by omega) (by omega) (by omega) (by omega) (by omega) (by omega) heq
  have hyear : Calendar.year D = Calendar.year D' := by omega
  rw [← Calendar.dayNumber_civil D, ← Calendar.dayNumber_civil D', hyear, hmonth, hday]

/-- **The instants attributed to a day are those at which the clock reads in its window.** -/
theorem activeFor_iff {rule : Rule} (hvalid : Valid rule) (offset : Int → Int) {D : Int} (hD : Dated D)
    (t : Int) : ActiveFor rule offset D t ↔ ValidTime t ∧ (rule.enabled = true ∧ Covers rule D) ∧
      opensAt rule D ≤ wall offset t ∧ wall offset t < closesAt rule D := by
  constructor
  · rintro ⟨htime, hyear, heval⟩
    obtain ⟨v, hv, hiff⟩ := evaluate_eq hvalid htime hyear
    rw [hv, Except.ok.injEq, hiff] at heval
    obtain ⟨henabled, D', ⟨hlocal, hcovers, hopen, hclose⟩, htext⟩ := heval
    have hyear' : 0 ≤ Calendar.year D' ∧ Calendar.year D' ≤ 9999 := by
      rcases hlocal with rfl | rfl
      · exact ⟨by have := hyear.1; simp only [localDay] at this; omega, hyear.2⟩
      · exact year_before hyear
    have hsame := isoDate_inj ⟨by have := hD.1.1; omega, hD.1.2⟩ hyear' htext
    subst hsame
    exact ⟨htime, ⟨henabled, hcovers⟩, hopen, hclose⟩
  · rintro ⟨htime, ⟨henabled, hcovers⟩, hopen, hclose⟩
    have hlocal := day_of_window hvalid hopen hclose
    have hyear : FourDigitYear (localDay offset t) := by
      unfold localDay
      rcases hlocal with heq | heq
      · rw [← heq]
        exact hD.1
      · have hnext : wall offset t / dayMs = D + 1 := by omega
        rw [hnext]
        exact hD.2
    obtain ⟨v, hv, hiff⟩ := evaluate_eq hvalid htime hyear
    refine ⟨htime, hyear, ?_⟩
    rw [hv, Except.ok.injEq, hiff]
    exact ⟨henabled, D, ⟨hlocal, hcovers, hopen, hclose⟩, rfl⟩

/-! ## Skipped time -/

/-- The clock goes from `A` straight to `B`, and what lies between is never read. -/
structure Skips (offset : Int → Int) (A B : Int) : Prop where
  forward : A < B
  jump : ∃ t, ValidTime (t - 1) ∧ ValidTime t ∧ wall offset (t - 1) = A - 1 ∧ wall offset t = B
  never : ∀ t, ValidTime t → ¬ (A ≤ wall offset t ∧ wall offset t < B)

/-- A rule that starts in the skipped time does not run that day; one that starts outside it is active when
    the clock reads in its window, as on any day. -/
def SpringForwardLaw (rule : Rule) (offset : Int → Int) (A B D : Int) : Prop :=
  (A ≤ opensAt rule D ∧ opensAt rule D < B → ∀ t, ¬ ActiveFor rule offset D t) ∧
    (¬ (A ≤ opensAt rule D ∧ opensAt rule D < B) → ∀ t, ValidTime t → (ActiveFor rule offset D t ↔
      (rule.enabled = true ∧ Covers rule D) ∧ opensAt rule D ≤ wall offset t ∧
        wall offset t < closesAt rule D))

/-- **When the skipped start is honoured**: exactly when the window is over by the time the clock resumes, or
    the rule would not have run that day anyway. -/
theorem springForward_iff {number : JsString → JsNumber} {index : Nat} {input : JsValue} {rule : Rule}
    (haccepted : validateRule number index input = .ok rule) {offset : Int → Int} {A B D : Int}
    (hskip : Skips offset A B) (hD : Dated D) : SpringForwardLaw rule offset A B D ↔
      (A ≤ opensAt rule D ∧ opensAt rule D < B →
        ¬ (rule.enabled = true ∧ Covers rule D) ∨ closesAt rule D ≤ B) := by
  have hactive := activeFor_iff (valid_of_validateRule haccepted) offset hD
  constructor
  · rintro ⟨hlaw, -⟩ hstart
    by_contra hnot
    rw [not_or, not_not, not_le] at hnot
    obtain ⟨t, -, htime, -, hB⟩ := hskip.jump
    -- the clock resumes inside the window
    refine hlaw hstart t ((hactive t).mpr ⟨htime, hnot.1, ?_, ?_⟩)
    · rw [hB]
      exact Int.le_of_lt hstart.2
    · rw [hB]
      exact hnot.2
  · intro h
    refine ⟨fun hstart t ht => ?_, fun _ t htime => ?_⟩
    · obtain ⟨htime, happlies, hopen, hclose⟩ := (hactive t).mp ht
      rcases h hstart with hnot | hend
      · exact hnot happlies
      · exact hskip.never t htime ⟨Int.le_trans hstart.1 hopen, Int.lt_of_lt_of_le hclose hend⟩
    · rw [hactive]
      exact ⟨fun ht => ht.2, fun ht => ⟨htime, ht⟩⟩

/-- London in the spring of 2026: at one in the morning on 29 March the clock goes to two. -/
def londonSpring : Int → Int := fun t => if t < 1774746000000 then 0 else 3600000

theorem londonSpring_skips : Skips londonSpring (20541 * dayMs + 3600000) (20541 * dayMs + 7200000) := by
  refine ⟨by decide, ⟨1774746000000, ⟨by decide, by decide⟩, ⟨by decide, by decide⟩, by decide, by decide⟩, ?_⟩
  intro t _
  unfold wall londonSpring dayMs
  split_ifs <;> omega

theorem dated_2026_03_29 : Dated 20541 := ⟨⟨by decide, by decide⟩, ⟨by decide, by decide⟩⟩

/-- A rule for every day between two times. -/
def dailyInput (startTime endTime : String) : JsValue :=
  .obj [(js "id", .str (js "daily")), (js "startTime", .str (js startTime)),
    (js "endTime", .str (js endTime)), (js "patch", .obj [(js "theme", .str (js "dark"))])]

def dailyRule (startTime endTime : String) : Rule :=
  { id := js "daily", name := js "daily", startTime := js startTime, endTime := js endTime,
    startDate := none, endDate := none, days := [0, 1, 2, 3, 4, 5, 6],
    patch := [(js "theme", .str (js "dark"))], enabled := true }

/-- A window inside the hour that does not exist never opens. -/
theorem skipped_quarter_law : SpringForwardLaw (dailyRule "01:15" "01:45") londonSpring
    (20541 * dayMs + 3600000) (20541 * dayMs + 7200000) 20541 := by
  have haccepted : validateRule (fun _ => .nan) 0 (dailyInput "01:15" "01:45") = .ok (dailyRule "01:15" "01:45") :=
    rfl
  exact (springForward_iff haccepted londonSpring_skips dated_2026_03_29).mpr (fun _ => Or.inr (by decide))

/-- A window that starts in that hour and ends after it opens when the clock resumes. -/
theorem skipped_start_runs : ¬ SpringForwardLaw (dailyRule "01:30" "03:00") londonSpring
    (20541 * dayMs + 3600000) (20541 * dayMs + 7200000) 20541 := by
  rintro ⟨hlaw, -⟩
  refine hlaw ⟨by decide, by decide⟩ 1774746000000 ⟨⟨by decide, by decide⟩, ⟨by decide, by decide⟩, rfl⟩

/-! ## Zones -/

/-- The offset in force at `t`, given the one before the changes. -/
def offsetAt (base : Int) : List (Int × Int) → Int → Int
  | [], _ => base
  | (u, o) :: cs, t => if t < u then base else offsetAt o cs t

/-- A zone: an offset, and the instants at which another takes its place. -/
structure Zone where
  base : Int
  changes : List (Int × Int)
  ascending : (changes.map Prod.fst).Pairwise (· < ·)
  inRange : ∀ c ∈ changes, -maxTime < c.1 ∧ c.1 ≤ maxTime

/-- The zone has the offsets of the function, on the range of `Date`. -/
def Zone.Represents (z : Zone) (offset : Int → Int) : Prop :=
  ∀ t, ValidTime t → offset t = offsetAt z.base z.changes t

theorem offsetAt_of_before {cs : List (Int × Int)} {t : Int} (h : ∀ c ∈ cs, t < c.1) (base : Int) :
    offsetAt base cs t = base := by
  cases cs with
  | nil => rfl
  | cons c cs => exact if_pos (h c List.mem_cons_self)

/-- A change at each of `n` instants from `a` on. -/
def tabulate (f : Int → Int) (a : Int) : Nat → List (Int × Int)
  | 0 => []
  | n + 1 => (a, f a) :: tabulate f (a + 1) n

theorem tabulate_bounds (f : Int → Int) : ∀ (n : Nat) (a : Int), ∀ c ∈ tabulate f a n, a ≤ c.1 ∧ c.1 < a + n := by
  intro n
  induction n with
  | zero => intro a c hc; exact absurd hc List.not_mem_nil
  | succ n ih =>
    intro a c hc
    rcases List.mem_cons.mp hc with rfl | hc
    · exact ⟨Int.le_refl a, by push_cast; omega⟩
    · have hbounds := ih (a + 1) c hc
      push_cast
      omega

theorem tabulate_ascending (f : Int → Int) : ∀ (n : Nat) (a : Int),
    ((tabulate f a n).map Prod.fst).Pairwise (· < ·) := by
  intro n
  induction n with
  | zero => intro a; exact .nil
  | succ n ih =>
    intro a
    refine List.pairwise_cons.mpr ⟨?_, ih (a + 1)⟩
    intro u hu
    obtain ⟨c, hc, rfl⟩ := List.mem_map.mp hu
    have hbounds := tabulate_bounds f n (a + 1) c hc
    omega

theorem offsetAt_tabulate (f : Int → Int) : ∀ (n : Nat) (a base t : Int), a ≤ t → t < a + n →
    offsetAt base (tabulate f a n) t = f t := by
  intro n
  induction n with
  | zero => intro a base t h h'; push_cast at h'; omega
  | succ n ih =>
    intro a base t h h'
    push_cast at h'
    rw [tabulate, offsetAt, if_neg (by omega)]
    by_cases heq : t = a
    · subst heq
      refine offsetAt_of_before ?_ _
      intro c hc
      have hbounds := tabulate_bounds f n (t + 1) c hc
      omega
    · exact ih (a + 1) (f a) t (by omega) (by omega)

/-- **Every offset function is a zone** on the range of `Date`: at worst it changes at every instant. -/
theorem exists_zone (offset : Int → Int) : ∃ z : Zone, z.Represents offset := by
  have hcount : ((2 * maxTime).toNat : Int) = 2 * maxTime := by decide
  have hbounds := tabulate_bounds offset (2 * maxTime).toNat (-maxTime + 1)
  refine ⟨⟨offset (-maxTime), tabulate offset (-maxTime + 1) (2 * maxTime).toNat,
    tabulate_ascending offset _ _, ?_⟩, ?_⟩
  · intro c hc
    have hc := hbounds c hc
    rw [hcount] at hc
    omega
  · intro t ht
    obtain ⟨hlow, hhigh⟩ := ht
    simp only
    by_cases heq : t = -maxTime
    · subst heq
      refine (offsetAt_of_before ?_ _).symm
      intro c hc
      have hc := hbounds c hc
      omega
    · refine (offsetAt_tabulate offset _ _ _ t (by omega) ?_).symm
      rw [hcount]
      omega

/-! ## Repeated time -/

/-- A stretch of time with one offset, from its start up to its stop. -/
structure Stretch where
  start : Int
  stop : Int
  offset : Int

def stretchesFrom (start base : Int) : List (Int × Int) → List Stretch
  | [] => [⟨start, maxTime + 1, base⟩]
  | (u, o) :: cs => ⟨start, u, base⟩ :: stretchesFrom u o cs

/-- The stretches of a zone, over the range of `Date`. -/
def Zone.stretches (z : Zone) : List Stretch := stretchesFrom (-maxTime) z.base z.changes

/-- When, during the stretch, the clock reads from `opens` up to `closes`. -/
def pass (opens closes : Int) (s : Stretch) : Int × Int :=
  (max s.start (opens - s.offset), min s.stop (closes - s.offset))

/-- The passes of the clock of a zone through a window, less those that take no time. -/
def passes (z : Zone) (opens closes : Int) : List (Int × Int) :=
  (z.stretches.map (pass opens closes)).filter (fun p => p.1 < p.2)

theorem start_le_of_mem {cs : List (Int × Int)} {start base : Int}
    (h : (start :: cs.map Prod.fst).Pairwise (· < ·)) : ∀ s ∈ stretchesFrom start base cs, start ≤ s.start := by
  induction cs generalizing start base with
  | nil =>
    intro s hs
    rw [List.mem_singleton.mp hs]
  | cons c cs ih =>
    obtain ⟨u, o⟩ := c
    obtain ⟨hhead, htail⟩ := List.pairwise_cons.mp h
    intro s hs
    rcases List.mem_cons.mp hs with rfl | hs
    · exact Int.le_refl start
    · exact Int.le_trans (Int.le_of_lt (hhead u List.mem_cons_self)) (ih htail s hs)

theorem stop_le (z : Zone) : ∀ s ∈ z.stretches, s.stop ≤ maxTime + 1 := by
  have hall : ∀ (cs : List (Int × Int)) (start base : Int), (∀ c ∈ cs, c.1 ≤ maxTime) →
      ∀ s ∈ stretchesFrom start base cs, s.stop ≤ maxTime + 1 := by
    intro cs
    induction cs with
    | nil =>
      intro start base _ s hs
      rw [List.mem_singleton.mp hs]
    | cons c cs ih =>
      intro start base h s hs
      rcases List.mem_cons.mp hs with rfl | hs
      · have hc := h c List.mem_cons_self
        simp only
        omega
      · exact ih _ _ (fun c hc => h c (List.mem_cons_of_mem _ hc)) s hs
  exact hall z.changes _ _ (fun c hc => (z.inRange c hc).2)

/-- The clock reads in a window exactly during its passes. -/
theorem mem_pass_iff {cs : List (Int × Int)} {start base t opens closes : Int}
    (h : (start :: cs.map Prod.fst).Pairwise (· < ·)) (hlow : start ≤ t) (hhigh : t ≤ maxTime) :
    (opens ≤ t + offsetAt base cs t ∧ t + offsetAt base cs t < closes) ↔
      ∃ s ∈ stretchesFrom start base cs, (pass opens closes s).1 ≤ t ∧ t < (pass opens closes s).2 := by
  induction cs generalizing start base with
  | nil =>
    simp only [offsetAt, stretchesFrom, List.mem_singleton, exists_eq_left, pass]
    omega
  | cons c cs ih =>
    obtain ⟨u, o⟩ := c
    obtain ⟨-, htail⟩ := List.pairwise_cons.mp h
    by_cases hbefore : t < u
    · -- in the first stretch: the others start later
      simp only [offsetAt, if_pos hbefore, stretchesFrom]
      constructor
      · intro hin
        refine ⟨_, List.mem_cons_self, ?_⟩
        simp only [pass]
        omega
      · rintro ⟨s, hs, hle, hlt⟩
        rcases List.mem_cons.mp hs with rfl | hs
        · simp only [pass] at hle hlt
          omega
        · have hstart := start_le_of_mem htail s hs
          simp only [pass] at hle
          omega
    · simp only [offsetAt, if_neg hbefore, stretchesFrom]
      rw [ih htail (by omega)]
      constructor
      · rintro ⟨s, hs, hmem⟩
        exact ⟨s, List.mem_cons_of_mem _ hs, hmem⟩
      · rintro ⟨s, hs, hle, hlt⟩
        rcases List.mem_cons.mp hs with rfl | hs
        · simp only [pass] at hlt
          omega
        · exact ⟨s, hs, hle, hlt⟩

theorem ascending_pass {cs : List (Int × Int)} {start base opens closes : Int}
    (h : (start :: cs.map Prod.fst).Pairwise (· < ·)) :
    Intervals.Ascending ((stretchesFrom start base cs).map (pass opens closes)) := by
  induction cs generalizing start base with
  | nil => exact List.pairwise_singleton _ _
  | cons c cs ih =>
    obtain ⟨u, o⟩ := c
    obtain ⟨-, htail⟩ := List.pairwise_cons.mp h
    refine List.pairwise_cons.mpr ⟨?_, ih htail⟩
    intro p hp
    obtain ⟨s, hs, rfl⟩ := List.mem_map.mp hp
    have hstart := start_le_of_mem htail s hs
    simp only [pass]
    omega

theorem Zone.ascending_start (z : Zone) : ((-maxTime) :: z.changes.map Prod.fst).Pairwise (· < ·) := by
  refine List.pairwise_cons.mpr ⟨?_, z.ascending⟩
  intro u hu
  obtain ⟨c, hc, rfl⟩ := List.mem_map.mp hu
  exact (z.inRange c hc).1

/-- The valid instants at which the clock reads in a window are those of its passes. -/
theorem union_passes {z : Zone} {offset : Int → Int} (hz : z.Represents offset) (opens closes : Int) :
    Intervals.union (passes z opens closes) =
      {t | ValidTime t ∧ opens ≤ wall offset t ∧ wall offset t < closes} := by
  ext t
  have hstop : ∀ s ∈ z.stretches, s.stop ≤ maxTime + 1 := stop_le z
  constructor
  · rintro ⟨p, hp, hle, hlt⟩
    obtain ⟨s, hs, rfl⟩ := List.mem_map.mp (List.mem_filter.mp hp).1
    have hstart := start_le_of_mem z.ascending_start s hs
    have hend := hstop s hs
    have htime : ValidTime t := by
      simp only [pass] at hle hlt
      exact ⟨by omega, by omega⟩
    refine ⟨htime, ?_⟩
    rw [wall, hz t htime]
    exact (mem_pass_iff z.ascending_start htime.1 htime.2).mpr ⟨s, hs, hle, hlt⟩
  · rintro ⟨htime, hin⟩
    rw [wall, hz t htime] at hin
    obtain ⟨s, hs, hle, hlt⟩ := (mem_pass_iff z.ascending_start htime.1 htime.2).mp hin
    exact ⟨_, List.mem_filter.mpr ⟨List.mem_map_of_mem hs, by simpa using Int.lt_of_le_of_lt hle hlt⟩, hle, hlt⟩

/-- **When the instants attributed to a day are one interval**: exactly when the passes of the clock through
    the day's window join end to start, or the rule does not run that day at all. -/
theorem contiguous_iff {number : JsString → JsNumber} {index : Nat} {input : JsValue} {rule : Rule}
    (haccepted : validateRule number index input = .ok rule) {offset : Int → Int} {z : Zone}
    (hz : z.Represents offset) {D : Int} (hD : Dated D) :
    {t | ActiveFor rule offset D t}.OrdConnected ↔
      ¬ (rule.enabled = true ∧ Covers rule D) ∨ Intervals.Joined (passes z (opensAt rule D) (closesAt rule D)) := by
  have hactive := activeFor_iff (valid_of_validateRule haccepted) offset hD
  by_cases happlies : rule.enabled = true ∧ Covers rule D
  · have hset : {t | ActiveFor rule offset D t} =
        Intervals.union (passes z (opensAt rule D) (closesAt rule D)) := by
      rw [union_passes hz]
      ext t
      rw [Set.mem_ofPred_eq, hactive, Set.mem_ofPred_eq]
      exact ⟨fun h => ⟨h.1, h.2.2⟩, fun h => ⟨h.1, happlies, h.2⟩⟩
    have hne : ∀ p ∈ passes z (opensAt rule D) (closesAt rule D), p.1 < p.2 := by
      intro p hp
      simpa using (List.mem_filter.mp hp).2
    have hasc : Intervals.Ascending (passes z (opensAt rule D) (closesAt rule D)) :=
      (ascending_pass z.ascending_start).sublist List.filter_sublist
    rw [hset, Intervals.ordConnected_iff hne hasc]
    exact ⟨Or.inr, fun h => h.resolve_left (not_not_intro happlies)⟩
  · have hempty : {t | ActiveFor rule offset D t} = ∅ := by
      ext t
      rw [Set.mem_ofPred_eq, hactive]
      simp only [Set.mem_empty_iff_false, iff_false]
      exact fun h => happlies h.2.1
    rw [hempty]
    exact ⟨fun _ => Or.inl happlies, fun _ => Set.ordConnected_empty⟩

/-- London in the autumn of 2026: at two in the morning on 25 October the clock goes back to one. -/
def londonAutumn : Int → Int := fun t => if t < 1792890000000 then 3600000 else 0

def londonAutumnZone : Zone where
  base := 3600000
  changes := [(1792890000000, 0)]
  ascending := List.pairwise_singleton _ _
  inRange := by decide

theorem dated_2026_10_25 : Dated 20751 := ⟨⟨by decide, by decide⟩, ⟨by decide, by decide⟩⟩

/-- A window that contains the repeated hour is open throughout. -/
theorem window_over_repeated_hour :
    {t | ActiveFor (dailyRule "00:30" "02:30") londonAutumn 20751 t}.OrdConnected := by
  have haccepted : validateRule (fun _ => .nan) 0 (dailyInput "00:30" "02:30") = .ok (dailyRule "00:30" "02:30") :=
    rfl
  have hzone : londonAutumnZone.Represents londonAutumn := fun _ _ => rfl
  exact (contiguous_iff haccepted hzone dated_2026_10_25).mpr (Or.inr (by decide))

/-- A window that starts within it is entered on the first occurrence of its start, left when the clock is set
    back, and entered again on the second. -/
theorem window_entered_twice :
    ¬ {t | ActiveFor (dailyRule "01:30" "03:00") londonAutumn 20751 t}.OrdConnected := by
  intro h
  have hfirst : ActiveFor (dailyRule "01:30" "03:00") londonAutumn 20751 1792888200000 :=
    ⟨⟨by decide, by decide⟩, ⟨by decide, by decide⟩, rfl⟩
  have hsecond : ActiveFor (dailyRule "01:30" "03:00") londonAutumn 20751 1792891800000 :=
    ⟨⟨by decide, by decide⟩, ⟨by decide, by decide⟩, rfl⟩
  have hbetween : ActiveFor (dailyRule "01:30" "03:00") londonAutumn 20751 1792890000000 :=
    h.out hfirst hsecond ⟨by decide, by decide⟩
  have hclosed : evaluate (dailyRule "01:30" "03:00") londonAutumn 1792890000000 =
      .ok (.inactive (js "outside the window")) := rfl
  have hactive := hbetween.2.2
  rw [hclosed] at hactive
  cases hactive

end Schedule
end MaterialOpenWebui
