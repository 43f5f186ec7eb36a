import MaterialOpenWebui.Timers.Model

/-!
# `Timers.Firing` — whether a timer fires once, and not after it is cancelled

An operation decides by what it has read, and commits later. If no commit comes after another that has changed what its
operation had read, a timer moves from pending to running, and from there to completed, in the step in which its prompt is
inserted, or back; completed and cancelled are final. No lock makes this so: a cancellation may be committed between the
check of an execution and its commit, which then inserts the prompt and makes the timer a completed one.
-/

namespace MaterialOpenWebui
namespace Timers
open Py

/-! ## What is to hold -/

def State.status (s : State) (timer : Str) : Option Status := (s.rows.get? timer).map fun row => row.data.status

/-- In every state of a run a timer's prompt was inserted at most once; and once the timer is cancelled, it stays so, and its
prompt is not inserted. -/
def FiresRight (database : Database) (actions : List Action) : Prop :=
  ∀ before after, actions = before ++ after → ∀ timer,
    (Run.run (step database) initial actions).inserted.count timer ≤ 1 ∧
      ((Run.run (step database) initial before).status timer = some .cancelled →
        (Run.run (step database) initial actions).status timer = some .cancelled ∧
          (Run.run (step database) initial actions).inserted.count timer =
            (Run.run (step database) initial before).inserted.count timer)

/-! ## The condition -/

/-- What an operation has read of its timers, their status and claim, is unchanged when it commits. -/
def Undisturbed (s : State) : Action → Prop
  | .commit operation => ∀ phase, s.operations.get? operation = some phase → ∀ w ∈ phase.writes,
      ∃ row, s.rows.get? w.timer = some row ∧ row.data.status = w.read.status ∧
        row.data.timer_claim_id = w.read.timer_claim_id
  | _ => True

/-! ## One step -/

/-- Where a timer may go without its prompt being inserted. -/
inductive Moved : Status → Status → Prop
  | stay (status : Status) : Moved status status
  | claimed : Moved .pending .running
  | cancelled : Moved .pending .cancelled
  | returned : Moved .running .pending
  | failed : Moved .running .error

/-- What a step does to each timer: it moves it, or completes it and inserts its prompt. -/
structure Moves (s s' : State) : Prop where
  present : ∀ timer status, s.status timer = some status → ∃ status', s'.status timer = some status' ∧
    (Moved status status' ∧ s'.inserted.count timer = s.inserted.count timer ∨
      status = .running ∧ status' = .completed ∧ s'.inserted.count timer = s.inserted.count timer + 1)
  absent : ∀ timer, s.status timer = none → s'.inserted.count timer = s.inserted.count timer

/-- What an operation is about to write is one of the moves, from what it has read. -/
def Write.Claims (w : Write) : Prop := w.read.status = .pending ∧ w.data.status = .running

def Write.Cancels (w : Write) : Prop := w.read.status = .pending ∧ w.data.status = .cancelled

def Write.Settles (w : Write) : Outcome → Prop
  | .failed => w.read.status = .running ∧ w.data.status = .error
  | .returned => w.read.status = .running ∧ w.data.status = .pending
  | .inserted => w.read.status = .running ∧ w.data.status = .completed

def Phase.Sound : Phase → Prop
  | .claiming _ writes => ∀ w ∈ writes, w.Claims
  | .cancelling writes => ∀ w ∈ writes, w.Cancels
  | .executing _ _ read => read.status = .running
  | .settling _ w outcome => w.Settles outcome
  | .answering _ _ => True

def AllSound (operations : Dict Nat Phase) : Prop :=
  ∀ operation phase, operations.get? operation = some phase → phase.Sound

/-- The operations under way, and that a prompt was inserted only for a timer that is completed, and once. -/
structure Inv (s : State) : Prop where
  sound : AllSound s.operations
  once : ∀ timer, s.inserted.count timer = 0 ∨ s.inserted.count timer = 1 ∧ s.status timer = some .completed

theorem apply_cons (rows : Dict Str Row) (w : Write) (writes : List Write) :
    apply rows (w :: writes) = apply (apply rows [w]) writes := rfl

theorem get?_apply_of_ne (rows : Dict Str Row) {w : Write} {timer : Str} (h : w.timer ≠ timer) :
    (apply rows [w]).get? timer = rows.get? timer := by
  rw [apply, List.foldl_cons, List.foldl_nil]
  split
  · exact Dict.get?_set_of_ne _ _ (fun heq => h heq.symm)
  · rfl

theorem get?_apply_self {rows : Dict Str Row} {w : Write} {row : Row} (h : rows.get? w.timer = some row) :
    (apply rows [w]).get? w.timer = some { row with data := w.data } := by
  rw [apply, List.foldl_cons, List.foldl_nil, h]
  exact Dict.get?_set_self _ _ _

theorem get?_apply (rows : Dict Str Row) (writes : List Write) {timer : Str} {row : Row}
    (h : rows.get? timer = some row) : ∃ row', (apply rows writes).get? timer = some row' ∧
      ((∀ w ∈ writes, w.timer ≠ timer) ∧ row' = row ∨ ∃ w ∈ writes, w.timer = timer ∧ row'.data = w.data) := by
  induction writes generalizing rows row with
  | nil => exact ⟨row, h, Or.inl ⟨List.forall_mem_nil _, rfl⟩⟩
  | cons w writes ih =>
    rw [apply_cons]
    by_cases hw : w.timer = timer
    · subst hw
      obtain ⟨row', hrow', hcases⟩ := ih (apply rows [w]) (get?_apply_self h)
      refine ⟨row', hrow', Or.inr ?_⟩
      rcases hcases with ⟨-, rfl⟩ | ⟨w', hw', htimer, hdata⟩
      · exact ⟨w, List.mem_cons_self, rfl, rfl⟩
      · exact ⟨w', List.mem_cons_of_mem _ hw', htimer, hdata⟩
    · obtain ⟨row', hrow', hcases⟩ := ih (apply rows [w]) ((get?_apply_of_ne rows hw).trans h)
      refine ⟨row', hrow', ?_⟩
      rcases hcases with ⟨hothers, rfl⟩ | ⟨w', hw', htimer, hdata⟩
      · exact Or.inl ⟨List.forall_mem_cons.mpr ⟨hw, hothers⟩, rfl⟩
      · exact Or.inr ⟨w', List.mem_cons_of_mem _ hw', htimer, hdata⟩

theorem status_of_get? {s : State} {timer : Str} {row : Row} (h : s.rows.get? timer = some row) :
    s.status timer = some row.data.status := by
  rw [State.status, h]
  rfl

theorem moves_of_eq {s s' : State} (hrows : s'.rows = s.rows) (hinserted : s'.inserted = s.inserted) : Moves s s' := by
  refine ⟨?_, fun timer _ => by rw [hinserted]⟩
  intro timer status hstatus
  refine ⟨status, ?_, Or.inl ⟨Moved.stay status, ?_⟩⟩
  · rw [State.status, hrows]
    exact hstatus
  · rw [hinserted]

/-- The writes of an undisturbed commit that inserts nothing. -/
theorem moves_apply {s s' : State} {writes : List Write} (hrows : s'.rows = apply s.rows writes)
    (hinserted : s'.inserted = s.inserted)
    (hread : ∀ w ∈ writes, ∃ row, s.rows.get? w.timer = some row ∧ row.data.status = w.read.status)
    (hwrite : ∀ w ∈ writes, Moved w.read.status w.data.status) : Moves s s' := by
  refine ⟨?_, fun timer _ => by rw [hinserted]⟩
  intro timer status hstatus
  obtain ⟨row, hrow, hdata⟩ := Option.map_eq_some_iff.mp hstatus
  obtain ⟨row', hrow', hcases⟩ := get?_apply s.rows writes hrow
  refine ⟨row'.data.status, status_of_get? (hrows ▸ hrow'), Or.inl ⟨?_, by rw [hinserted]⟩⟩
  rcases hcases with ⟨-, rfl⟩ | ⟨w, hw, rfl, hwritten⟩
  · rw [hdata]
    exact Moved.stay status
  · obtain ⟨row, hread, heq⟩ := hread w hw
    rw [hrow, Option.some.injEq] at hread
    rw [hwritten, ← hdata, hread, heq]
    exact hwrite w hw

theorem moves_create (s : State) (timer user_id parent_chat_id : Str) (timer_at : Int) (cancel_on : List Str) :
    Moves s (create_timer s timer user_id parent_chat_id timer_at cancel_on) := by
  rw [create_timer]
  split
  · exact moves_of_eq rfl rfl
  · rename_i hnew
    refine ⟨?_, fun other _ => rfl⟩
    intro other status hstatus
    refine ⟨status, ?_, Or.inl ⟨Moved.stay status, rfl⟩⟩
    obtain ⟨row, hrow, -⟩ := Option.map_eq_some_iff.mp hstatus
    have hne : other ≠ timer := by
      rintro rfl
      exact hnew (Dict.mem_of_get? hrow)
    rw [State.status, Dict.get?_set_of_ne _ _ hne]
    exact hstatus

/-- The commit that inserts the prompt. -/
theorem moves_insert {s : State} {w : Write} (hsound : w.Settles .inserted)
    (hread : ∃ row, s.rows.get? w.timer = some row ∧ row.data.status = w.read.status) (operations : Dict Nat Phase) :
    Moves s ⟨apply s.rows [w], w.timer :: s.inserted, operations⟩ := by
  refine ⟨?_, ?_⟩
  rotate_left
  · intro timer hnone
    obtain ⟨row, hrow, -⟩ := hread
    have hne : w.timer ≠ timer := by
      rintro rfl
      rw [status_of_get? hrow] at hnone
      cases hnone
    exact List.count_cons_of_ne hne
  intro timer status hstatus
  obtain ⟨row, hrow, hdata⟩ := Option.map_eq_some_iff.mp hstatus
  obtain ⟨row', hrow', hcases⟩ := get?_apply s.rows [w] hrow
  refine ⟨row'.data.status, status_of_get? hrow', ?_⟩
  by_cases htimer : w.timer = timer
  · subst htimer
    right
    obtain ⟨other, hother, heq⟩ := hread
    rw [hrow, Option.some.injEq] at hother
    subst hother
    refine ⟨by rw [← hdata, heq, hsound.1], ?_, List.count_cons_self⟩
    rcases hcases with ⟨hothers, -⟩ | ⟨w', hw', -, hwritten⟩
    · exact absurd rfl (hothers w List.mem_cons_self)
    · rw [hwritten, List.mem_singleton.mp hw']
      exact hsound.2
  · left
    refine ⟨?_, List.count_cons_of_ne htimer⟩
    rcases hcases with ⟨-, rfl⟩ | ⟨w', hw', hw'timer, -⟩
    · rw [hdata]
      exact Moved.stay status
    · rw [List.mem_singleton.mp hw'] at hw'timer
      exact absurd hw'timer htimer

theorem moves_commit {database : Database} {s : State} {operation : Nat} (hinv : Inv s)
    (h : Undisturbed s (.commit operation)) : Moves s (commit database s operation) := by
  rw [commit]
  cases hphase : s.operations.get? operation with
  | none => exact moves_of_eq rfl rfl
  | some phase =>
    have hsound := hinv.sound operation phase hphase
    have hread : ∀ w ∈ phase.writes, ∃ row, s.rows.get? w.timer = some row ∧ row.data.status = w.read.status := by
      intro w hw
      obtain ⟨row, hrow, hstatus, -⟩ := h phase hphase w hw
      exact ⟨row, hrow, hstatus⟩
    dsimp only
    split
    · exact moves_of_eq rfl rfl
    · cases phase with
      | claiming selected writes =>
        refine moves_apply rfl rfl hread ?_
        intro w hw
        obtain ⟨hpending, hrunning⟩ := hsound w hw
        rw [hpending, hrunning]
        exact Moved.claimed
      | cancelling writes =>
        refine moves_apply rfl rfl hread ?_
        intro w hw
        obtain ⟨hpending, hcancelled⟩ := hsound w hw
        rw [hpending, hcancelled]
        exact Moved.cancelled
      | executing server timer read => exact moves_of_eq rfl rfl
      | answering server timer => exact moves_of_eq rfl rfl
      | settling server w outcome =>
        have hwrite : ∀ other ∈ (Phase.settling server w outcome).writes, other = w :=
          fun other hother => List.mem_singleton.mp hother
        cases outcome with
        | failed =>
          refine moves_apply rfl rfl hread ?_
          intro other hother
          rw [hwrite other hother, hsound.1, hsound.2]
          exact Moved.failed
        | returned =>
          refine moves_apply rfl rfl hread ?_
          intro other hother
          rw [hwrite other hother, hsound.1, hsound.2]
          exact Moved.returned
        | inserted => exact moves_insert hsound (hread w List.mem_cons_self) _

theorem moves_step {database : Database} {s : State} {a : Action} (hinv : Inv s) (h : Undisturbed s a) :
    Moves s (step database s a) := by
  cases a with
  | create timer user_id parent_chat_id timer_at cancel_on => exact moves_create s _ _ _ _ _
  | claim operation now_ns limit claim_ids =>
    show Moves s (claim_due_timers database s operation now_ns limit claim_ids)
    unfold claim_due_timers
    dsimp only
    split <;> exact moves_of_eq rfl rfl
  | cancel operation parent_chat_id event user_id =>
    show Moves s (cancel_timers_for_chat s operation parent_chat_id event user_id)
    unfold cancel_timers_for_chat
    dsimp only
    split <;> exact moves_of_eq rfl rfl
  | execute operation server timer claim_id =>
    show Moves s (execute_due_timer s operation server timer claim_id)
    unfold execute_due_timer
    split
    · exact moves_of_eq rfl rfl
    · split
      · exact moves_of_eq rfl rfl
      · split
        · exact moves_of_eq rfl rfl
        · split <;> exact moves_of_eq rfl rfl
  | fail operation =>
    show Moves s (_set_timer_state s operation)
    unfold _set_timer_state
    split
    · split <;> exact moves_of_eq rfl rfl
    · exact moves_of_eq rfl rfl
  | reach operation busy =>
    show Moves s (reach_parent database s operation busy)
    unfold reach_parent
    split
    · split
      · split
        · exact moves_of_eq rfl rfl
        · split <;> exact moves_of_eq rfl rfl
      · exact moves_of_eq rfl rfl
    · exact moves_of_eq rfl rfl
  | commit operation => exact moves_commit hinv h
  | finish operation =>
    show Moves s (finish s operation)
    unfold finish
    split <;> exact moves_of_eq rfl rfl

/-! ## Runs -/

theorem AllSound.set {operations : Dict Nat Phase} (h : AllSound operations) (operation : Nat) {phase : Phase}
    (hphase : phase.Sound) : AllSound (operations.set operation phase) := by
  intro other p hp
  rw [Dict.get?_set] at hp
  split at hp
  · cases hp
    exact hphase
  · exact h other p hp

theorem AllSound.erase {operations : Dict Nat Phase} (h : AllSound operations) (operation : Nat) :
    AllSound (operations.erase operation) := by
  intro other p hp
  rw [Dict.get?_erase] at hp
  split at hp
  · cases hp
  · exact h other p hp

theorem exists_of_mem_zipWith {α β γ : Type} {f : α → β → γ} {as : List α} {bs : List β} {c : γ}
    (h : c ∈ List.zipWith f as bs) : ∃ a ∈ as, ∃ b, c = f a b := by
  induction as generalizing bs with
  | nil => cases h
  | cons a as ih =>
    cases bs with
    | nil => cases h
    | cons b bs =>
      rcases List.mem_cons.mp h with rfl | h
      · exact ⟨a, List.mem_cons_self, b, rfl⟩
      · obtain ⟨a', ha', b', rfl⟩ := ih h
        exact ⟨a', List.mem_cons_of_mem _ ha', b', rfl⟩

theorem sound_claim {database : Database} {s : State} (h : AllSound s.operations) (operation : Nat) (now_ns : Int)
    (limit : Nat) (claim_ids : List Str) :
    AllSound (claim_due_timers database s operation now_ns limit claim_ids).operations := by
  unfold claim_due_timers
  dsimp only
  split
  · exact h
  · apply h.set
    intro w hw
    obtain ⟨p, hp, claim_id, rfl⟩ := exists_of_mem_zipWith hw
    have hdue := List.mem_of_mem_take hp
    rw [StableSort.mem_sortOn, List.mem_filter, List.mem_filter, Bool.and_eq_true] at hdue
    exact ⟨of_decide_eq_true hdue.1.2.1, rfl⟩

theorem sound_cancel {s : State} (h : AllSound s.operations) (operation : Nat) (parent_chat_id event user_id : Str) :
    AllSound (cancel_timers_for_chat s operation parent_chat_id event user_id).operations := by
  unfold cancel_timers_for_chat
  dsimp only
  split
  · exact h
  · apply h.set
    intro w hw
    obtain ⟨p, hp, rfl⟩ := List.mem_map.mp hw
    rw [List.mem_filter, Bool.and_eq_true, Bool.and_eq_true] at hp
    exact ⟨of_decide_eq_true hp.2.1.2, rfl⟩

theorem sound_execute {s : State} (h : AllSound s.operations) (operation server : Nat) (timer : Str)
    (claim_id : Option Str) : AllSound (execute_due_timer s operation server timer claim_id).operations := by
  unfold execute_due_timer
  split
  · exact h
  · split
    · exact h
    · rename_i row _
      by_cases hrunning : row.data.status = .running
      · rw [if_neg (not_not_intro hrunning)]
        split
        · exact h
        · exact h.set operation hrunning
      · rw [if_pos hrunning]
        exact h

theorem sound_fail {s : State} (h : AllSound s.operations) (operation : Nat) :
    AllSound (_set_timer_state s operation).operations := by
  unfold _set_timer_state
  split
  · rename_i server timer read hphase
    split
    · exact h.set operation ⟨h operation _ hphase, rfl⟩
    · exact h
  · exact h

theorem sound_reach {database : Database} {s : State} (h : AllSound s.operations) (operation : Nat) (busy : Bool) :
    AllSound (reach_parent database s operation busy).operations := by
  unfold reach_parent
  split
  · rename_i server timer read hphase
    split
    · split
      · exact h
      · split
        · exact h.set operation ⟨h operation _ hphase, rfl⟩
        · exact h.set operation ⟨h operation _ hphase, rfl⟩
    · exact h
  · exact h

theorem sound_commit {database : Database} {s : State} (h : AllSound s.operations) (operation : Nat) :
    AllSound (commit database s operation).operations := by
  unfold commit
  split
  · exact h
  · split
    · exact h
    · dsimp only
      split
      · exact h.erase operation
      · exact h.erase operation
      · split
        · exact h.set operation trivial
        · exact h.erase operation
      · exact h

theorem sound_step {database : Database} {s : State} (h : AllSound s.operations) (a : Action) :
    AllSound (step database s a).operations := by
  cases a with
  | create timer user_id parent_chat_id timer_at cancel_on =>
    show AllSound (create_timer s timer user_id parent_chat_id timer_at cancel_on).operations
    unfold create_timer
    split <;> exact h
  | claim operation now_ns limit claim_ids => exact sound_claim h operation now_ns limit claim_ids
  | cancel operation parent_chat_id event user_id => exact sound_cancel h operation parent_chat_id event user_id
  | execute operation server timer claim_id => exact sound_execute h operation server timer claim_id
  | fail operation => exact sound_fail h operation
  | reach operation busy => exact sound_reach h operation busy
  | commit operation => exact sound_commit h operation
  | finish operation =>
    show AllSound (finish s operation).operations
    unfold finish
    split
    · exact h.erase operation
    · exact h

theorem Inv.step {database : Database} {s : State} {a : Action} (hinv : Inv s) (h : Undisturbed s a) :
    Inv (step database s a) := by
  have hmoves : Moves s (Timers.step database s a) := moves_step hinv h
  refine ⟨sound_step hinv.sound a, ?_⟩
  intro timer
  cases hstatus : s.status timer with
  | none =>
    rw [hmoves.absent timer hstatus]
    rcases hinv.once timer with hzero | ⟨-, hcompleted⟩
    · exact Or.inl hzero
    · rw [hstatus] at hcompleted
      cases hcompleted
  | some status =>
    obtain ⟨status', hstatus', ⟨hmoved, hcount⟩ | ⟨hrunning, hcompleted, hcount⟩⟩ := hmoves.present timer status hstatus
    · rw [hcount, hstatus']
      rcases hinv.once timer with hzero | ⟨hone, hcompleted⟩
      · exact Or.inl hzero
      · -- a completed timer stays
        rw [hstatus, Option.some.injEq] at hcompleted
        subst hcompleted
        cases hmoved
        exact Or.inr ⟨hone, rfl⟩
    · right
      rw [hcount, hstatus', hcompleted]
      rcases hinv.once timer with hzero | ⟨-, hcompleted⟩
      · exact ⟨by rw [hzero], rfl⟩
      · rw [hstatus, hrunning] at hcompleted
        cases hcompleted

theorem inv_initial : Inv initial := by
  refine ⟨?_, fun timer => Or.inl rfl⟩
  intro operation phase h
  cases h

/-- A cancelled timer stays cancelled, and its prompt is not inserted. -/
theorem cancelled_step {database : Database} {s : State} {a : Action} (hinv : Inv s) (h : Undisturbed s a)
    {timer : Str} (hcancelled : s.status timer = some .cancelled) :
    (step database s a).status timer = some .cancelled ∧
      (step database s a).inserted.count timer = s.inserted.count timer := by
  have hmoves : Moves s (step database s a) := moves_step hinv h
  obtain ⟨status', hstatus', ⟨hmoved, hcount⟩ | ⟨hrunning, -⟩⟩ := hmoves.present timer .cancelled hcancelled
  · cases hmoved
    exact ⟨hstatus', hcount⟩
  · cases hrunning

/-- **Without disturbed commits, timers fire at most once, and not after they are cancelled.** -/
theorem fires_right (database : Database) (actions : List Action)
    (h : Run.AllSteps Undisturbed (step database) initial actions) : FiresRight database actions := by
  intro before after hactions timer
  subst hactions
  obtain ⟨hbefore, hafter⟩ := Run.allSteps_append.mp h
  have hinv : Inv (Run.run (step database) initial before) :=
    Run.invariant (fun s a hs ha => hs.step ha) inv_initial hbefore
  have hall : Inv (Run.run (step database) initial (before ++ after)) :=
    Run.invariant (fun s a hs ha => hs.step ha) inv_initial h
  refine ⟨?_, ?_⟩
  · rcases hall.once timer with hzero | ⟨hone, -⟩
    · rw [hzero]
      exact Nat.zero_le 1
    · exact Nat.le_of_eq hone
  · intro hcancelled
    rw [Run.run_append]
    exact (Run.invariant (I := fun s => Inv s ∧ s.status timer = some .cancelled ∧
      s.inserted.count timer = (Run.run (step database) initial before).inserted.count timer)
      (fun s a hs ha => ⟨hs.1.step ha, (cancelled_step hs.1 ha hs.2.1).1, (cancelled_step hs.1 ha hs.2.1).2.trans hs.2.2⟩)
      ⟨hinv, hcancelled, rfl⟩ hafter).2

/-- A timer that is claimed, executed and answered. -/
def firing : List Action :=
  [.create (py "t") (py "u") (py "c") 5 [], .claim 1 7 10 [py "k"], .commit 1, .execute 2 0 (py "t") (some (py "k")),
    .reach 2 false, .commit 2, .finish 2]

theorem fires_right_firing : FiresRight .other firing := by
  apply fires_right
  refine ⟨trivial, trivial, ?_, trivial, trivial, ?_, trivial, trivial⟩
  · -- the claim finds the timer as it has read it
    intro phase hphase w hw
    cases hphase
    cases List.mem_singleton.mp hw
    exact ⟨_, rfl, rfl, rfl⟩
  · intro phase hphase w hw
    cases hphase
    cases List.mem_singleton.mp hw
    exact ⟨_, rfl, rfl, rfl⟩

/-! ## The exception -/

/-- The cancellation has read the timer before it is claimed, and is committed after the execution has found it running. -/
def untilCancelled : List Action :=
  [.create (py "t") (py "u") (py "c") 5 [py "chat.read"], .cancel 0 (py "c") (py "chat.read") (py "u"),
    .claim 1 7 10 [py "k"], .commit 1, .execute 2 0 (py "t") (some (py "k")), .commit 0]

def afterCancelled : List Action := [.reach 2 false, .commit 2]

/-- The locks of PostgreSQL do not keep a cancelled timer from being executed. -/
theorem executed_after_cancelled : ¬ ∀ database actions, FiresRight database actions := by
  intro h
  have hfires := (h .postgresql (untilCancelled ++ afterCancelled) untilCancelled afterCancelled rfl (py "t")).2
  have hcancelled : (Run.run (step .postgresql) initial untilCancelled).status (py "t") = some .cancelled := by
    decide +kernel
  have hcompleted : (Run.run (step .postgresql) initial (untilCancelled ++ afterCancelled)).status (py "t") =
      some .completed := by
    decide +kernel
  have hstays := (hfires hcancelled).1
  rw [hcompleted] at hstays
  cases hstays

end Timers
end MaterialOpenWebui
