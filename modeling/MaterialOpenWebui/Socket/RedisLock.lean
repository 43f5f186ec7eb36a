import MaterialOpenWebui.Lib.Run
import Mathlib.Data.Set.Subsingleton
import Mathlib.Logic.Function.Basic

/-!
# `Socket.RedisLock` — one node at a time cleans up (`backend/open_webui/socket/utils.py` and `main.py`)

The nodes of a deployment share pools of sessions and of models in use. The node that has the lock removes what is stale: it
renews the lock before each round and gives it back when it leaves, whatever happens. The lock is a key in Redis that expires,
so a node that dies keeps it for a while only; but a round may also outlast it.
-/

namespace MaterialOpenWebui
namespace RedisLock
open Run

variable {ι : Type} [DecidableEq ι]

/-! ## The lock -/

/-- The key with the instant, in milliseconds, at which it expires. A node is known by its `lock_id`. -/
abbrev Key (ι : Type) := Option (ι × Int)

def get (key : Key ι) (now : Int) : Option ι := (key.filter fun k => now < k.2).map Prod.fst

def expiry (timeout_secs : Nat) (now : Int) : Int := now + 1000 * timeout_secs

/-- `SET` with `NX` and `EX`. -/
def aquire_lock (timeout_secs : Nat) (self : ι) (now : Int) (key : Key ι) : Key ι × Bool :=
  if get key now = none then (some (self, expiry timeout_secs now), true) else (key, false)

/-- `_RENEW_SCRIPT`. -/
def renew_lock (timeout_secs : Nat) (self : ι) (now : Int) (key : Key ι) : Key ι × Bool :=
  if get key now = some self then (some (self, expiry timeout_secs now), true) else (key, false)

/-- `_RELEASE_SCRIPT`. -/
def release_lock (self : ι) (now : Int) (key : Key ι) : Key ι := if get key now = some self then none else key

/-! ## The tasks -/

/-- Where a task is. -/
inductive Phase where
  | acquiring (attempt : Nat)
  | renewing
  /-- In a round, since the lock was renewed. -/
  | cleaning (renewed : Int)
  | sleeping
  /-- In the `finally`, and whether the task goes on behind it. -/
  | leaving (again : Bool)
  | ended
deriving DecidableEq

/-- What the two tasks do not have in common: how often they retry, and whether they begin anew without the lock. -/
structure Task where
  max_retries : Option Nat
  again : Bool

def periodic_session_pool_cleanup : Task := ⟨none, true⟩

def periodic_usage_pool_cleanup : Task := ⟨some 2, false⟩

def Task.retry (task : Task) (attempt : Nat) : Phase :=
  match task.max_retries with
  | none => .acquiring attempt
  | some max_retries => if attempt < max_retries then .acquiring (attempt + 1) else .ended

structure State (ι : Type) where
  key : Key ι
  now : Int
  phase : ι → Phase

/-- Time passes, a task goes on, or it does and what comes of it is an exception (the command may have been carried out or
    not), or its node dies. -/
inductive Action (ι : Type) where
  | passes (ms : Nat)
  | goes (i : ι)
  | raises (i : ι) (carried : Bool)
  | dies (i : ι)

def Action.node : Action ι → Option ι
  | .passes _ => none
  | .goes i | .raises i _ | .dies i => some i

/-- The next command of a task, and where it is then. -/
def command (task : Task) (timeout_secs : Nat) (i : ι) (now : Int) (key : Key ι) : Phase → Key ι × Phase
  | .acquiring attempt =>
    let (key, obtained) := aquire_lock timeout_secs i now key
    (key, if obtained then .renewing else task.retry attempt)
  | .renewing =>
    let (key, renewed) := renew_lock timeout_secs i now key
    (key, if renewed then .cleaning now else .leaving task.again)
  | .cleaning _ => (key, .sleeping)
  | .sleeping => (key, .renewing)
  | .leaving again => (release_lock i now key, if again then .acquiring 0 else .ended)
  | .ended => (key, .ended)

/-- Behind an exception: only in the `try` there is something to be done. -/
def Phase.raised : Phase → Phase
  | .renewing | .cleaning _ | .sleeping => .leaving false
  | .acquiring _ | .leaving _ | .ended => .ended

def step (task : Task) (timeout_secs : Nat) (s : State ι) : Action ι → State ι
  | .passes ms => { s with now := s.now + ms }
  | .goes i =>
    let (key, phase) := command task timeout_secs i s.now s.key (s.phase i)
    { s with key := key, phase := Function.update s.phase i phase }
  | .raises i carried =>
    { s with
      key := if carried then (command task timeout_secs i s.now s.key (s.phase i)).1 else s.key
      phase := Function.update s.phase i (s.phase i).raised }
  | .dies i => { s with phase := Function.update s.phase i .ended }

/-- All tasks begin, whatever there is of the key. -/
def start (key : Key ι) (now : Int) : State ι := ⟨key, now, fun _ => .acquiring 0⟩

/-! ## What a step does -/

/-- The key may be free, or the node's own. -/
def Open (key : Key ι) (now : Int) (i : ι) : Prop := get key now = none ∨ get key now = some i

variable {task : Task} {timeout_secs : Nat} {i : ι} {now : Int} {key : Key ι}

/-- **A command writes a key that is open to its node only**, and as its own. -/
theorem command_key (phase : Phase) : (command task timeout_secs i now key phase).1 = key ∨
    Open key now i ∧ ((command task timeout_secs i now key phase).1 = none ∨
      (command task timeout_secs i now key phase).1 = some (i, expiry timeout_secs now)) := by
  cases phase with
  | acquiring attempt =>
    unfold command aquire_lock
    by_cases h : get key now = none
    · simp [h, Open]
    · simp [h]
  | renewing =>
    unfold command renew_lock
    by_cases h : get key now = some i
    · simp [h, Open]
    · simp [h]
  | leaving again =>
    unfold command release_lock
    by_cases h : get key now = some i
    · simp [h, Open]
    · simp [h]
  | _ => exact .inl rfl

theorem command_cleaning {phase : Phase} {renewed : Int}
    (h : (command task timeout_secs i now key phase).2 = .cleaning renewed) :
    renewed = now ∧ (command task timeout_secs i now key phase).1 = some (i, expiry timeout_secs now) := by
  cases phase with
  | acquiring attempt =>
    unfold command Task.retry at h
    split at h <;> grind
  | renewing =>
    unfold command renew_lock at h ⊢
    by_cases hkey : get key now = some i
    · simp [hkey] at h ⊢
      exact h.symm
    · simp [hkey] at h
  | leaving again => cases again <;> cases h
  | _ => cases h

theorem step_key (s : State ι) (a : Action ι) : (step task timeout_secs s a).key = s.key ∨
    ∃ i, a.node = some i ∧ Open s.key s.now i ∧
      ((step task timeout_secs s a).key = none ∨
        (step task timeout_secs s a).key = some (i, expiry timeout_secs s.now)) := by
  cases a with
  | passes ms => exact .inl rfl
  | goes i => exact (command_key (s.phase i)).imp id fun h => ⟨i, rfl, h⟩
  | raises i carried =>
    cases carried with
    | true => exact (command_key (s.phase i)).imp id fun h => ⟨i, rfl, h⟩
    | false => exact .inl rfl
  | dies i => exact .inl rfl

/-- A task is in a round because it was, or because it was put there. -/
theorem cleaning_of_update {phases : ι → Phase} {j : ι} {phase : Phase} {renewed : Int}
    (h : Function.update phases j phase i = .cleaning renewed) :
    (phases i = .cleaning renewed ∧ some j ≠ some i) ∨ j = i ∧ phase = .cleaning renewed := by
  by_cases hij : i = j
  · subst hij
    rw [Function.update_self] at h
    exact .inr ⟨rfl, h⟩
  · rw [Function.update_of_ne hij] at h
    exact .inl ⟨h, fun hj => hij (Option.some.inj hj).symm⟩

/-- **Only the node itself begins a round**, with the key as its own. -/
theorem step_cleaning {s : State ι} {a : Action ι} {renewed : Int}
    (h : (step task timeout_secs s a).phase i = .cleaning renewed) :
    (s.phase i = .cleaning renewed ∧ a.node ≠ some i) ∨
      renewed = s.now ∧ (step task timeout_secs s a).key = some (i, expiry timeout_secs s.now) := by
  cases a with
  | passes ms => exact .inl ⟨h, nofun⟩
  | goes j =>
    rcases cleaning_of_update h with hbefore | ⟨rfl, hphase⟩
    · exact .inl hbefore
    · exact .inr (command_cleaning hphase)
  | raises j carried =>
    rcases cleaning_of_update h with hbefore | ⟨-, hphase⟩
    · exact .inl hbefore
    · -- an exception leads out of a round, never into one
      cases hraised : s.phase j <;> simp [hraised, Phase.raised] at hphase
  | dies j =>
    rcases cleaning_of_update h with hbefore | ⟨-, hphase⟩
    · exact .inl hbefore
    · cases hphase

theorem now_le_step (task : Task) (timeout_secs : Nat) (s : State ι) (a : Action ι) :
    s.now ≤ (step task timeout_secs s a).now := by
  cases a <;> simp only [step] <;> omega

/-! ## Rounds -/

/-- A node in a round, as long as the lock that it renewed before is not past its time. -/
def InTime (timeout_secs : Nat) (s : State ι) (i : ι) : Prop :=
  ∃ renewed, s.phase i = .cleaning renewed ∧ s.now < expiry timeout_secs renewed

/-- Who is in a round in time has the key. -/
def Held (timeout_secs : Nat) (s : State ι) : Prop :=
  ∀ i renewed, s.phase i = .cleaning renewed → s.now < expiry timeout_secs renewed →
    s.key = some (i, expiry timeout_secs renewed)

/-- **Step lemma.** -/
theorem Held.step {s : State ι} (hheld : Held timeout_secs s) (a : Action ι) :
    Held timeout_secs (RedisLock.step task timeout_secs s a) := by
  intro i renewed hphase htime
  rcases step_cleaning hphase with ⟨hbefore, hother⟩ | ⟨rfl, hkey⟩
  · have hin := Int.lt_of_le_of_lt (now_le_step task timeout_secs s a) htime
    have hkey := hheld i renewed hbefore hin
    rcases step_key s a with hsame | ⟨j, hj, hopen, -⟩
    · rw [hsame, hkey]
    · -- the key is there, so it is open to its node only
      simp only [Open, get, hkey, Option.filter_some, hin, decide_true, if_true, Option.map_some] at hopen
      rcases hopen with hnone | hsome
      · cases hnone
      · exact absurd (hj.trans hsome.symm) hother
  · exact hkey

/-- **One node at a time** is in a round in time, in every run of any nodes, with any key left over from before; whatever
    commands fail, whether or not they are carried out, and whichever nodes die. -/
theorem one_cleans (task : Task) (timeout_secs : Nat) (key : Key ι) (now : Int) (actions : List (Action ι)) :
    {i | InTime timeout_secs (run (step task timeout_secs) (start key now) actions) i}.Subsingleton := by
  have hheld : Held timeout_secs (run (step task timeout_secs) (start key now) actions) := by
    refine invariant (fun s a h (_ : True) => h.step a) ?_ (allSteps_of_forall (fun _ _ _ => trivial) _)
    intro i renewed hphase
    cases hphase
  rintro i ⟨renewed, hphase, htime⟩ j ⟨renewed', hphase', htime'⟩
  have hkey := hheld i renewed hphase htime
  rw [hheld j renewed' hphase' htime', Option.some.injEq, Prod.mk.injEq] at hkey
  exact hkey.1.symm

/-! ## Leases -/

/-- The node has the key until it expires, and does not come to it again. -/
def Leased (i : ι) (expires : Int) (s : State ι) : Prop :=
  s.key = some (i, expires) ∨ expires ≤ s.now ∧ ∀ expires', s.key ≠ some (i, expires')

theorem Leased.step {expires : Int} {s : State ι} {a : Action ι} (h : Leased i expires s) (hother : a.node ≠ some i) :
    Leased i expires (RedisLock.step task timeout_secs s a) := by
  have hnow := now_le_step task timeout_secs s a
  rcases step_key s a with hsame | ⟨j, hj, hopen, hkey⟩
  · unfold Leased
    rw [hsame]
    exact h.imp id fun h => ⟨Int.le_trans h.1 hnow, h.2⟩
  · have hij : j ≠ i := by
      rintro rfl
      exact hother hj
    refine .inr ⟨?_, ?_⟩
    · rcases h with hown | ⟨hexpired, -⟩
      · -- it is open to another node only once it has expired
        apply Int.le_trans (Int.not_lt.1 fun hin => ?_) hnow
        simp only [Open, get, hown, Option.filter_some, hin, decide_true, if_true, Option.map_some] at hopen
        exact hopen.elim nofun fun h => hij (Option.some.inj h).symm
      · exact Int.le_trans hexpired hnow
    · intro expires' hown
      rcases hkey with hnone | hsome
      · rw [hnone] at hown
        cases hown
      · rw [hsome, Option.some.injEq, Prod.mk.injEq] at hown
        exact hij hown.1

/-- The key does not expire later than the timeout allows. -/
def Timely (timeout_secs : Nat) (s : State ι) : Prop :=
    ∀ j expires, s.key = some (j, expires) → expires ≤ expiry timeout_secs s.now

theorem Timely.step {s : State ι} (h : Timely timeout_secs s) (a : Action ι) :
    Timely timeout_secs (RedisLock.step task timeout_secs s a) := by
  intro j expires hkey
  have hnow := now_le_step task timeout_secs s a
  have hmono : expiry timeout_secs s.now ≤ expiry timeout_secs (RedisLock.step task timeout_secs s a).now := by
    unfold expiry
    omega
  rcases step_key s a with hsame | ⟨k, -, -, hnone | hsome⟩
  · exact Int.le_trans (h j expires (hsame.symm.trans hkey)) hmono
  · rw [hnone] at hkey
    cases hkey
  · rw [hsome, Option.some.injEq, Prod.mk.injEq] at hkey
    exact hkey.2 ▸ hmono

/-- **A lease lasts exactly as long as it was given**, while its node does nothing: no other node ends it or takes it over
    before it expires, and a node that is gone keeps it no longer, and never longer than the timeout. -/
theorem lease_exact (task : Task) (timeout_secs : Nat) (now : Int) (before after : List (Action ι)) {i : ι} {expires : Int}
    (hkey : (run (step task timeout_secs) (start none now) before).key = some (i, expires))
    (hothers : ∀ a ∈ after, a.node ≠ some i) :
    expires ≤ expiry timeout_secs (run (step task timeout_secs) (start none now) before).now ∧
      let s := run (step task timeout_secs) (start none now) (before ++ after)
      (get s.key s.now = some i ↔ s.now < expires) := by
  refine ⟨?_, ?_⟩
  · have hle : Timely timeout_secs (run (step task timeout_secs) (start none now) before) := by
      refine invariant (fun s a h (_ : True) => h.step a) ?_ (allSteps_of_forall (fun _ _ _ => trivial) _)
      intro j expires hnone
      cases hnone
    exact hle i expires hkey
  · have hleased : Leased i expires
        (run (step task timeout_secs) (run (step task timeout_secs) (start none now) before) after) := by
      refine invariant (fun s a h (hother : a.node ≠ some i) => h.step hother) (.inl hkey) ?_
      exact allSteps_of_forall (fun a ha _ => hothers a ha) _
    rw [run_append]
    generalize run (step task timeout_secs) (run (step task timeout_secs) (start none now) before) after = s at hleased ⊢
    rcases hleased with hown | ⟨hexpired, hnever⟩
    · simp [get, hown, Option.filter_some]
    · refine iff_of_false ?_ (Int.not_lt.2 hexpired)
      intro hget
      obtain ⟨k, hk, rfl⟩ := Option.map_eq_some_iff.1 hget
      exact hnever k.2 (Option.filter_eq_some_iff.1 hk).1

/-- Refused to another node, the lock is still the first one's a millisecond before it expires. -/
theorem lease_exact_refused :
    let s : State Bool :=
      run (step periodic_session_pool_cleanup 60) (start none 0) ([.goes true] ++ [.goes false, .passes 59999])
    get s.key s.now = some true := by
  have hothers : ∀ a ∈ ([.goes false, .passes 59999] : List (Action Bool)), a.node ≠ some true := by simp [Action.node]
  have hkey : (run (step periodic_session_pool_cleanup 60) (start none 0) [Action.goes true]).key = some (true, 60000) := rfl
  exact (lease_exact periodic_session_pool_cleanup 60 0 [.goes true] _ hkey hothers).2.2 (by decide)

end RedisLock
end MaterialOpenWebui
