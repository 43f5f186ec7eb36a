import MaterialOpenWebui.Locks.References

/-!
# `Locks.Attempts` — what concurrent attempts do to the count and the wait

Every wrong answer should be counted, and none graded while a wait is running. Between the check of the wait
and the grading lies an `await`, and two things can go wrong in it. The record may have changed hands: of two
first failures that both found no record each stores its own, and a failure that overlaps a success revives
the record from before it. And another failure may have set a wait that the call never looked at.

A step is `Undisturbed` when neither has happened to the answer it grades. Runs of such steps count every
failure and serve every wait (`limited_of_undisturbed`), however the calls overlap otherwise: calls that share
one record object may interleave freely.
-/

namespace MaterialOpenWebui
namespace Locks
open Js Run

/-! ## The law -/

/-- The wrong answers for a lock since its last right one. -/
def failures (id : JsString) : List Graded → Nat
  | [] => 0
  | g :: gs => if g.id = id then (if g.ok then 0 else failures id gs + 1) else failures id gs

/-- The failures stored for every lock are those graded since its last success, and no answer was graded
    while a stored wait was running. -/
structure Limited (s : State) : Prop where
  counted : ∀ id, s.storedCount id = failures id s.graded
  served : ∀ g ∈ s.graded, g.early = false

section
variable (sha256 : ByteArray → Vector UInt8 32)
  (hmac : Totp.Algorithm → List UInt8 → List UInt8 → List UInt8) (number : JsString → JsNumber)

/-- When an answer is graded, no wait has been set past the moment its call was let through, and the clock
    has not been set back; when it is wrong, the record the call holds has the count that is stored. -/
def Undisturbed (s : State) : Step → Prop
  | .resume i now => ∀ g ok, s.calls[i]? = some (.grading g) → outcome sha256 hmac g now = .graded ok →
      (s.storedWait g.id ≤ g.checkedAt ∧ g.checkedAt ≤ now) ∧
        (ok = false → s.countOf g.record = s.storedCount g.id)
  | _ => True

/-! ## The invariant -/

/-- What an undisturbed run keeps: references are to records that exist, never across locks, and the count
    and the waits are right. -/
structure Tracked (s : State) : Prop where
  bounded : ∀ id r, s.Refers id r → r < s.records.length
  apart : ∀ id id' r, s.Refers id r → s.Refers id' r → id = id'
  limited : Limited s

theorem Tracked.separate {s : State} (h : Tracked s) : Apart s := ⟨h.bounded, h.apart⟩

theorem Apart.tracked {s : State} (h : Apart s) (hlimited : Limited s) : Tracked s :=
  ⟨h.bounded, h.apart, hlimited⟩

theorem countOf_some (s : State) (r : Nat) :
    s.countOf (some r) = ((s.records[r]?).map Record.count).getD 0 := rfl

/-- A step that leaves the map, the counts and the grades alone. -/
theorem Limited.of_eq {s s' : State} (h : Limited s) (hattempts : s'.attempts = s.attempts)
    (hcount : ∀ r, s'.countOf (some r) = s.countOf (some r)) (hgraded : s'.graded = s.graded) : Limited s' := by
  refine ⟨?_, ?_⟩
  · intro id
    rw [hgraded, ← h.counted id, State.storedCount, State.storedCount, hattempts]
    cases s.attempts id with
    | none => rfl
    | some r => exact hcount r
  · rw [hgraded]
    exact h.served

theorem limited_start (stored : JsString → Option Lock) : Limited (start stored) := by
  refine ⟨fun _ => rfl, ?_⟩
  intro g hg
  cases hg

theorem limited_tryUnlock {s : State} (h : Limited s) (id answer : JsString) (now : Int) :
    Limited (tryUnlock s id answer now) := by
  unfold tryUnlock
  split
  · exact h.of_eq rfl (fun _ => rfl) rfl
  · simp only
    split <;> exact h.of_eq rfl (fun _ => rfl) rfl

theorem limited_create {s : State} (h : Limited s) (r : Request) (now : Int) :
    Limited (create sha256 s r now) := by
  unfold create
  split
  · exact h.of_eq rfl (fun _ => rfl) rfl
  · split <;> exact h.of_eq rfl (fun _ => rfl) rfl

/-- Clearing a wait leaves the count. -/
theorem countOf_clearWait (s : State) (id : JsString) (r : Nat) :
    (clearWait s id).1.countOf (some r) = s.countOf (some r) := by
  unfold clearWait
  split
  · rfl
  · rename_i r' hr
    rw [countOf_some, countOf_some, List.getElem?_modify]
    by_cases heq : r' = r
    · simp [heq, Function.comp_def]
    · simp [heq]

theorem clearWait_attempts (s : State) (id : JsString) : (clearWait s id).1.attempts = s.attempts := by
  unfold clearWait
  split <;> rfl

theorem limited_clearWait {s : State} (h : Limited s) (id : JsString) : Limited (clearWait s id).1 := by
  refine h.of_eq (clearWait_attempts s id) (countOf_clearWait s id) ?_
  unfold clearWait
  split <;> rfl

/-! ## Graded answers -/

/-- An answer is graded in time when no wait was set past the moment its call was let through. -/
theorem served_grade {s : State} (h : Limited s) {id : JsString} {ok : Bool} {now : Int}
    (hwait : s.storedWait id ≤ now) : ∀ g ∈ (s.grade id ok now).graded, g.early = false := by
  intro g hg
  rcases List.mem_cons.mp hg with rfl | hg
  · exact decide_eq_false (Int.not_lt.mpr hwait)
  · exact h.served g hg

/-- Storing a failure of one lock leaves the counts of the others alone. -/
theorem storedCount_storeFailure {s : State} (h : Tracked s) {id : JsString} {record : Option Nat} {w : Record}
    (hholds : ∀ r, record = some r → s.Refers id r) (id' : JsString) :
    (s.storeFailure id record w).storedCount id' = if id' = id then w.count else s.storedCount id' := by
  rw [State.storedCount, storeFailure_attempts, Function.update_apply]
  split
  · rw [countOf_some, storeFailure_written (fun r hr => h.bounded id r (hholds r hr))]
    rfl
  · rename_i hid
    rw [State.storedCount]
    cases hmap : s.attempts id' with
    | none => rfl
    | some r =>
      have hne : record ≠ some r := fun heq => hid (h.apart id' id r (Or.inl hmap) (hholds r heq))
      rw [countOf_some, countOf_some, storeFailure_others (h.bounded id' r (Or.inl hmap)) hne]

theorem fail_graded (s : State) (i : Nat) (g : Grading) (now : Int) :
    (fail s i g now).graded = (s.grade g.id false now).graded := by
  unfold fail
  cases g.record <;> rfl

/-- A failure writes one more than the count of the record its call holds. -/
theorem fail_storedCount {s : State} (h : Tracked s) {i : Nat} {g : Grading} {now : Int}
    (hi : s.calls[i]? = some (.grading g)) (id : JsString) : (fail s i g now).storedCount id =
      if id = g.id then s.countOf g.record + 1 else s.storedCount id := by
  have hstored : (fail s i g now).storedCount id =
      (s.storeFailure g.id g.record (s.failure g.record now)).storedCount id := by
    simp only [State.storedCount, State.countOf, fail_attempts, fail_records]
  rw [hstored, storedCount_storeFailure h (fun r hr => refers_record hi hr)]
  rfl

theorem failures_grade (s : State) (id : JsString) (ok : Bool) (now : Int) (id' : JsString) :
    failures id' (s.grade id ok now).graded =
      if id' = id then (if ok = true then 0 else failures id' s.graded + 1) else failures id' s.graded := by
  by_cases hid : id' = id
  · subst hid
    simp only [State.grade, failures, if_true]
  · have hne : id ≠ id' := fun heq => hid heq.symm
    simp only [State.grade, failures, if_neg hne, if_neg hid]

/-- **A failure is counted once**, when the record its call holds has the count that is stored. -/
theorem limited_fail {s : State} (h : Tracked s) {i : Nat} {g : Grading} {now : Int}
    (hi : s.calls[i]? = some (.grading g)) (hwait : s.storedWait g.id ≤ now)
    (hcount : s.countOf g.record = s.storedCount g.id) : Limited (fail s i g now) := by
  refine ⟨?_, ?_⟩
  · intro id
    rw [fail_storedCount h hi, fail_graded, failures_grade]
    split
    · rename_i hid
      rw [hcount, hid, h.limited.counted, if_neg Bool.false_ne_true]
    · exact h.limited.counted id
  · rw [fail_graded]
    exact served_grade h.limited hwait

theorem succeed_graded (s : State) (i : Nat) (g : Grading) (now : Int) :
    (succeed number s i g now).graded = (s.grade g.id true now).graded := by
  unfold succeed
  simp only
  split <;> rfl

/-- **A success starts the count anew.** -/
theorem limited_succeed {s : State} (h : Limited s) {i : Nat} {g : Grading} {now : Int}
    (hwait : s.storedWait g.id ≤ now) : Limited (succeed number s i g now) := by
  refine ⟨?_, ?_⟩
  · intro id
    rw [State.storedCount, succeed_attempts, Function.update_apply, succeed_graded, failures_grade]
    split
    · rfl
    · simp only [State.countOf, succeed_records]
      exact h.counted id
  · rw [succeed_graded]
    exact served_grade h hwait

/-! ## Runs -/

theorem limited_resume {s : State} (h : Tracked s) {i : Nat} {now : Int}
    (hok : Undisturbed sha256 hmac s (.resume i now)) : Limited (resume sha256 hmac number s i now) := by
  unfold resume
  split
  · rename_i g hi
    have hgrade := hok g
    split
    · exact h.limited.of_eq rfl (fun _ => rfl) rfl
    · exact h.limited.of_eq rfl (fun _ => rfl) rfl
    · rename_i houtcome
      obtain ⟨⟨hwait, hclock⟩, -⟩ := hgrade true hi houtcome
      exact limited_succeed number h.limited (Int.le_trans hwait hclock)
    · rename_i houtcome
      obtain ⟨⟨hwait, hclock⟩, hcount⟩ := hgrade false hi houtcome
      exact limited_fail h hi (Int.le_trans hwait hclock) (hcount rfl)
  · exact h.limited.of_eq rfl (fun _ => rfl) rfl
  · exact h.limited

/-- **Step lemma.** -/
theorem tracked_step {s : State} {a : Step} (h : Tracked s) (hok : Undisturbed sha256 hmac s a) :
    Tracked (step sha256 hmac number s a) := by
  refine (apart_step sha256 hmac number h.separate a).tracked ?_
  cases a with
  | tryUnlock id answer now => exact limited_tryUnlock h.limited id answer now
  | create r now => exact limited_create sha256 h.limited r now
  | resume i now => exact limited_resume sha256 hmac number h hok
  | relock id =>
    simp only [step, relock]
    split <;> exact h.limited.of_eq rfl (fun _ => rfl) rfl
  | remove id => exact h.limited.of_eq rfl (fun _ => rfl) rfl
  | spendLadder now =>
    simp only [step, spendLadder]
    split <;> exact h.limited.of_eq rfl (fun _ => rfl) rfl
  | clearWait id => exact limited_clearWait h.limited id

theorem tracked_start (stored : JsString → Option Lock) : Tracked (start stored) :=
  (apart_start stored).tracked (limited_start stored)

/-- **The rate limit holds in every undisturbed run**, of any calls on any locks, from the locks stored. -/
theorem limited_of_undisturbed {stored : JsString → Option Lock} {as : List Step}
    (h : AllSteps (Undisturbed sha256 hmac) (step sha256 hmac number) (start stored) as) :
    Limited (run (step sha256 hmac number) (start stored) as) :=
  (invariant (fun _ _ hI hok => tracked_step sha256 hmac number hI hok) (tracked_start stored) h).limited

end

/-! ## Attempts on one lock -/

/-- SHA-256 of the two answers below, told apart by their lengths. -/
def answerDigest (bytes : ByteArray) : Vector UInt8 32 :=
  if bytes.size = 6 then
    #v[208, 192, 79, 75, 25, 81, 228, 174, 170, 236, 130, 35, 237, 32, 57, 229,
      66, 243, 170, 232, 5, 166, 250, 127, 109, 121, 78, 90, 255, 245, 210, 114]
  else
    #v[35, 72, 249, 152, 116, 66, 18, 87, 93, 133, 149, 150, 116, 249, 96, 122,
      178, 111, 103, 112, 138, 145, 113, 87, 71, 40, 50, 56, 99, 55, 201, 4]

/-- A tab locked with the password `sesame`. -/
def tabLocked (id : JsString) : Option Lock :=
  if id = js "tab" then
    some ⟨js "Tab", js "session", 1772820000000, .closed,
      .password (sha256Hex answerDigest (js "sesame"))⟩
  else none

/-- The module with that tab, where no one-time code and no number of minutes is asked for. -/
def tabStep : State → Step → State := step answerDigest (fun _ _ _ => []) (fun _ => .nan)

/-- One wrong answer, then a wrong and a right one that overlap on the record it left. -/
def sharedRecord : List Step :=
  [.tryUnlock (js "tab") (js "open") 1772820001000, .resume 0 1772820001010,
    .tryUnlock (js "tab") (js "open") 1772820002000, .tryUnlock (js "tab") (js "sesame") 1772820002005,
    .resume 1 1772820002010, .resume 2 1772820002015]

theorem limited_sharedRecord : Limited (run tabStep (start tabLocked) sharedRecord) :=
  limited_of_undisturbed answerDigest (fun _ _ _ => []) (fun _ => .nan) (by
    refine ⟨trivial, ?_, trivial, trivial, ?_, ?_, trivial⟩
    · intro g ok hi _
      cases hi
      exact ⟨⟨by decide, by decide⟩, fun _ => rfl⟩
    · intro g ok hi _
      cases hi
      exact ⟨⟨by decide, by decide⟩, fun _ => rfl⟩
    · intro g ok hi hgraded
      cases hi
      cases hgraded
      exact ⟨⟨by decide, by decide⟩, by decide⟩)

/-- Two first attempts that overlap, one more, and two that overlap after it; every answer is wrong. -/
def overlappingAttempts : List Step :=
  [.tryUnlock (js "tab") (js "open") 1772820001000, .tryUnlock (js "tab") (js "open") 1772820001005,
    .resume 0 1772820001010, .resume 1 1772820001015,
    .tryUnlock (js "tab") (js "open") 1772820002000, .resume 2 1772820002010,
    .tryUnlock (js "tab") (js "open") 1772820003000, .tryUnlock (js "tab") (js "open") 1772820003005,
    .resume 3 1772820003010, .resume 4 1772820003015]

/-- One failure is lost, and the last answer is graded during the wait that the one before it has set. -/
theorem overlapping_attempts_escape :
    (run tabStep (start tabLocked) overlappingAttempts).storedCount (js "tab") = 4 ∧
    failures (js "tab") (run tabStep (start tabLocked) overlappingAttempts).graded = 5 ∧
    (∃ g ∈ (run tabStep (start tabLocked) overlappingAttempts).graded, g.early = true) ∧
    ¬ Limited (run tabStep (start tabLocked) overlappingAttempts) := by
  have hstored : (run tabStep (start tabLocked) overlappingAttempts).storedCount (js "tab") = 4 := by decide
  have hgraded : failures (js "tab") (run tabStep (start tabLocked) overlappingAttempts).graded = 5 := by decide
  refine ⟨hstored, hgraded, ⟨⟨js "tab", false, true⟩, List.mem_cons_self, rfl⟩, ?_⟩
  intro h
  have hcounted := h.counted (js "tab")
  rw [hstored, hgraded] at hcounted
  exact absurd hcounted (by decide)

end Locks
end MaterialOpenWebui
