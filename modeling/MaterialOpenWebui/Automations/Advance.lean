import MaterialOpenWebui.Automations.Recurrence
import MaterialOpenWebui.Lib.AllSome
import Mathlib.Data.List.Chain

/-!
# `Automations.Advance` — whether schedules advance

The next run is to be after now, the runs of a preview are to ascend, and an automation that was claimed is not to be due
again. The occurrences of a rule are readings, which ascend; but their instants need not. In the hour that the clock shows
twice, what is still to come the second time is taken for the first time, which is over.
-/

namespace MaterialOpenWebui
namespace Automations
open Py

/-! ## What is to hold -/

/-- A call of each function: a rule and a zone, now, how many runs are previewed; and a claim among rows, where each is
rescheduled at some instant from that of the claim on. -/
structure Call where
  s : Str
  tz : Option Str
  now : Int
  n : Nat
  timezone : Str → Option Str
  clock : Automation → Int
  free : Automation → Bool
  rows : List Automation
  now_ns : Int
  limit : Nat
  later : ∀ row, now_ns / 1000 ≤ clock row

/-- The schedules advance. -/
structure Advances (settings : Settings) (call : Call) : Prop where
  next : ∀ ns, next_run_ns settings call.s call.tz call.now = some (some ns) → call.now * 1000 < ns
  ascending : ∀ runs, next_n_runs_ns settings call.s call.n call.tz call.now = some runs → runs.Pairwise (· < ·)
  first : ∀ runs, next_n_runs_ns settings call.s call.n call.tz call.now = some runs → 0 < call.n →
    next_run_ns settings call.s call.tz call.now = some runs.head?
  claimed : ∀ rows, claim_due settings call.timezone call.clock call.free call.rows call.now_ns call.limit = some rows →
    ∀ row ∈ rows, row.due call.now_ns = false

/-! ## When it does -/

/-- Up to an instant the clock has not shown the next occurrence of a rule after its reading at another. -/
def Unshown (settings : Settings) (s : Str) (zone : WallClock.Zone) (now upTo : Int) : Prop :=
  ∀ rule d, _parse_rule settings s (zone.wall now) = some rule →
    settings.dateutil.after rule (zone.wall now) = some d → ∀ t ≤ upTo, zone.wall t ≠ d

/-- No rule that is claimed fails to be accepted. -/
def AllAccepted (settings : Settings) (call : Call) : Prop :=
  ∀ row ∈ claimed call.rows call.free call.now_ns call.limit,
    (_parse_rule settings row.rrule ((settings.zone (call.timezone row.user_id)).wall (call.clock row))).isSome

structure Clear (settings : Settings) (call : Call) : Prop where
  next : Unshown settings call.s (settings.zone call.tz) call.now call.now
  ascending : ∀ rule, _parse_rule settings call.s ((settings.zone call.tz).wall call.now) = some rule →
    (occurrences settings rule call.n ((settings.zone call.tz).wall call.now)).IsChain
      fun d e => ¬ WallClock.Overtakes (settings.zone call.tz) d e
  claimed : AllAccepted settings call → ∀ row ∈ claimed call.rows call.free call.now_ns call.limit,
    Unshown settings row.rrule (settings.zone (call.timezone row.user_id)) (call.clock row) (call.now_ns / 1000)

variable {settings : Settings}

theorem lt_of_after {rule : settings.dateutil.Rule} {dt d : Int} (h : settings.dateutil.after rule dt = some d) :
    dt < d := (settings.dateutil.after_least rule dt d h).1.2

theorem next_run_eq_some_iff (s : Str) (tz : Option Str) (now ns : Int) :
    next_run_ns settings s tz now = some (some ns) ↔
      ∃ rule d, _parse_rule settings s ((settings.zone tz).wall now) = some rule ∧
        settings.dateutil.after rule ((settings.zone tz).wall now) = some d ∧ timestamp_ns (settings.zone tz) d = ns := by
  rw [next_run_ns, Option.map_eq_some_iff]
  apply exists_congr
  intro rule
  rw [Option.map_eq_some_iff, exists_and_left]

/-- **The next run is after an instant exactly if the clock has not shown its reading by then.** -/
theorem next_run_iff (s : Str) (tz : Option Str) {now upTo : Int} (hle : upTo ≤ now) :
    (∀ ns, next_run_ns settings s tz now = some (some ns) → upTo * 1000 < ns) ↔
      Unshown settings s (settings.zone tz) now upTo := by
  have hread : ∀ rule d, settings.dateutil.after rule ((settings.zone tz).wall now) = some d →
      (upTo * 1000 < timestamp_ns (settings.zone tz) d ↔ ∀ t ≤ upTo, (settings.zone tz).wall t ≠ d) := by
    intro rule d hd
    have hinstant := (settings.zone tz).instantOf_le_iff (lt_of_after hd) hle
    rw [timestamp_ns]
    constructor
    · intro hlt t ht hshown
      have hover := hinstant.mpr ⟨t, ht, hshown⟩
      omega
    · intro hunshown
      by_contra hle
      obtain ⟨t, ht, hshown⟩ := hinstant.mp (by omega)
      exact hunshown t ht hshown
  constructor
  · intro h rule d hrule hd
    exact (hread rule d hd).mp (h _ ((next_run_eq_some_iff s tz now _).mpr ⟨rule, d, hrule, hd, rfl⟩))
  · intro h ns hns
    obtain ⟨rule, d, hrule, hd, rfl⟩ := (next_run_eq_some_iff s tz now ns).mp hns
    exact (hread rule d hd).mpr (h rule d hrule hd)

theorem head?_occurrences (rule : settings.dateutil.Rule) (n : Nat) (dt : Int) :
    (occurrences settings rule (n + 1) dt).head? = settings.dateutil.after rule dt := by
  rw [occurrences]
  cases settings.dateutil.after rule dt <;> rfl

theorem lt_of_head?_occurrences {rule : settings.dateutil.Rule} {n : Nat} {dt d : Int}
    (h : (occurrences settings rule n dt).head? = some d) : dt < d := by
  cases n with
  | zero => cases h
  | succ n =>
    rw [head?_occurrences] at h
    exact lt_of_after h

/-- The instants of the occurrences ascend if none overtakes the next. -/
theorem ascending_iff (zone : WallClock.Zone) (rule : settings.dateutil.Rule) (n : Nat) (dt : Int) :
    ((occurrences settings rule n dt).map (timestamp_ns zone)).Pairwise (· < ·) ↔
      (occurrences settings rule n dt).IsChain fun d e => ¬ WallClock.Overtakes zone d e := by
  rw [← List.isChain_iff_pairwise, List.isChain_map]
  induction n generalizing dt with
  | zero => exact iff_of_true List.IsChain.nil List.IsChain.nil
  | succ n ih =>
    rw [occurrences]
    cases settings.dateutil.after rule dt with
    | none => exact iff_of_true List.IsChain.nil List.IsChain.nil
    | some d =>
      show List.IsChain _ (d :: occurrences settings rule n d) ↔ List.IsChain _ (d :: occurrences settings rule n d)
      rw [List.isChain_cons, List.isChain_cons, ih d]
      apply and_congr_left'
      apply forall_congr'
      intro e
      apply imp_congr_right
      intro he
      rw [← zone.instantOf_lt_iff (lt_of_head?_occurrences he), timestamp_ns, timestamp_ns]
      omega

theorem first_run (s : Str) (tz : Option Str) (now : Int) {n : Nat} (hn : 0 < n) {runs : List Int}
    (h : next_n_runs_ns settings s n tz now = some runs) : next_run_ns settings s tz now = some runs.head? := by
  obtain ⟨rule, hrule, rfl⟩ := Option.map_eq_some_iff.mp h
  obtain ⟨n, rfl⟩ := Nat.exists_eq_succ_of_ne_zero (Nat.ne_of_gt hn)
  rw [next_run_ns]
  show (_parse_rule settings s ((settings.zone tz).wall now)).map _ = _
  rw [hrule, List.head?_map, head?_occurrences]
  rfl

theorem ascending_runs_iff (s : Str) (tz : Option Str) (now : Int) (n : Nat) :
    (∀ runs, next_n_runs_ns settings s n tz now = some runs → runs.Pairwise (· < ·)) ↔
      ∀ rule, _parse_rule settings s ((settings.zone tz).wall now) = some rule →
        (occurrences settings rule n ((settings.zone tz).wall now)).IsChain
          fun d e => ¬ WallClock.Overtakes (settings.zone tz) d e := by
  constructor
  · intro h rule hrule
    rw [← ascending_iff]
    apply h
    rw [next_n_runs_ns, Option.map_eq_some_iff]
    exact ⟨rule, hrule, rfl⟩
  · intro h runs hruns
    obtain ⟨rule, hrule, rfl⟩ := Option.map_eq_some_iff.mp hruns
    rw [ascending_iff]
    exact h rule hrule

theorem due_of_mem_claimed {rows : List Automation} {free : Automation → Bool} {now_ns : Int} {limit : Nat}
    {row : Automation} (h : row ∈ claimed rows free now_ns limit) : row.due now_ns := by
  have hmem := List.mem_of_mem_take h
  rw [StableSort.mem_sortOn, List.mem_filter, Bool.and_eq_true] at hmem
  exact hmem.2.1

/-- A row that was claimed is due again exactly if the clock has shown its next reading by then. -/
theorem rescheduled_iff {timezone : Str → Option Str} {clock : Automation → Int} {now_ns : Int} {row : Automation}
    (hrow : row.due now_ns) (hlater : now_ns / 1000 ≤ clock row) :
    (∀ row', reschedule settings timezone clock now_ns row = some row' → row'.due now_ns = false) ↔
      Unshown settings row.rrule (settings.zone (timezone row.user_id)) (clock row) (now_ns / 1000) := by
  have hactive : row.is_active = true := (Bool.and_eq_true_iff.mp hrow).1
  rw [← next_run_iff row.rrule (timezone row.user_id) hlater]
  constructor
  · intro h ns hns
    have hdue := h { row with last_run_at := some now_ns, next_run_at := some ns } (by rw [reschedule, hns]; rfl)
    rw [Automation.due, hactive, Bool.true_and] at hdue
    have hlt : ¬ ns ≤ now_ns := of_decide_eq_false hdue
    omega
  · intro h row' hrow'
    obtain ⟨next, hnext, rfl⟩ := Option.map_eq_some_iff.mp hrow'
    rw [Automation.due, hactive, Bool.true_and]
    cases next with
    | none => rfl
    | some ns =>
      have hlt := h ns hnext
      obtain ⟨rule, d, -, -, hns⟩ := (next_run_eq_some_iff _ _ _ _).mp hnext
      rw [timestamp_ns] at hns
      apply decide_eq_false
      omega

theorem isSome_reschedule {timezone : Str → Option Str} {clock : Automation → Int} {now_ns : Int} (row : Automation) :
    (reschedule settings timezone clock now_ns row).isSome ↔ (_parse_rule settings row.rrule
      ((settings.zone (timezone row.user_id)).wall (clock row))).isSome := by
  rw [reschedule, Option.isSome_map, next_run_ns]
  show (Option.map _ (_parse_rule settings row.rrule _)).isSome ↔ _
  rw [Option.isSome_map]

/-- **Schedules advance exactly where the clock has not shown what is to come, and no occurrence overtakes the next.** -/
theorem advances_iff (settings : Settings) (call : Call) : Advances settings call ↔ Clear settings call := by
  have hclaimed : (∀ rows, claim_due settings call.timezone call.clock call.free call.rows call.now_ns call.limit =
      some rows → ∀ row ∈ rows, row.due call.now_ns = false) ↔
      (AllAccepted settings call → ∀ row ∈ claimed call.rows call.free call.now_ns call.limit,
        Unshown settings row.rrule (settings.zone (call.timezone row.user_id)) (call.clock row)
          (call.now_ns / 1000)) := by
    simp only [claim_due]
    rw [AllSome.forall_mapM_iff]
    simp only [isSome_reschedule]
    apply imp_congr_right
    intro _
    apply forall_congr'
    intro row
    apply imp_congr_right
    intro hrow
    exact rescheduled_iff (due_of_mem_claimed hrow) (call.later row)
  constructor
  · intro h
    exact ⟨(next_run_iff call.s call.tz (Int.le_refl _)).mp h.next,
      (ascending_runs_iff call.s call.tz call.now call.n).mp h.ascending, hclaimed.mp h.claimed⟩
  · intro h
    exact ⟨(next_run_iff call.s call.tz (Int.le_refl _)).mpr h.next,
      (ascending_runs_iff call.s call.tz call.now call.n).mpr h.ascending,
      fun runs hruns hn => first_run call.s call.tz call.now hn hruns, hclaimed.mpr h.claimed⟩

/-! ## The exception -/

/-- On `1970-01-01` the hour from one o'clock is shown twice. -/
def autumn : WallClock.Zone where
  before := 3600 * second
  changes := [(3600 * second, 0)]
  spaced := trivial

def minute : Int := 60 * second

/-- Every five minutes. -/
def fiveMinutes : Dateutil where
  Rule := Unit
  rrulestr _ _ := some ()
  parse _ := none
  occurs _ x := x % (5 * minute) = 0
  after _ dt := some ((dt / (5 * minute) + 1) * (5 * minute))
  after_least := by
    intro rule dt d hd
    cases hd
    constructor
    · show (dt / (5 * minute) + 1) * (5 * minute) % (5 * minute) = 0 ∧ dt < (dt / (5 * minute) + 1) * (5 * minute)
      have hminute : 5 * minute = 300000000 := rfl
      rw [hminute]
      omega
    · rintro x ⟨hx, hlt⟩
      have hminute : 5 * minute = 300000000 := rfl
      show (dt / (5 * minute) + 1) * (5 * minute) ≤ x
      rw [hminute] at hx ⊢
      omega
  after_none := by
    intro rule dt hd
    cases hd

def autumnSettings : Settings where
  dateutil := fiveMinutes
  zoneInfo _ := some autumn
  server := autumn
  upper s := s
  parseInt _ := some 5

/-- A preview at ten past, the second time. -/
def autumnCall : Call where
  s := py "FREQ=MINUTELY;INTERVAL=5"
  tz := some (py "Europe/London")
  now := 4200 * second
  n := 1
  timezone _ := none
  clock _ := 4200 * second
  free _ := true
  rows := []
  now_ns := 4200 * second * 1000
  limit := 10
  later _ := Int.le_refl _

/-- The next run, at a quarter past, is taken for the first quarter past. -/
theorem repeated_hour : ¬ ∀ (settings : Settings) (call : Call), Advances settings call := by
  intro h
  have hnext := (h autumnSettings autumnCall).next (900 * second * 1000) (by decide)
  exact absurd hnext (by decide)

end Automations
end MaterialOpenWebui
