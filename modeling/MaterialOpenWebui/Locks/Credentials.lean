import MaterialOpenWebui.Locks.Attempts

/-!
# `Locks.Credentials` — which credential a lock answers to

What the user has last said about a lock is a register of its own: a `create` that completes enters its
credential, a `remove` strikes the lock out, and nothing else changes it. The module should follow it: what is
stored is what is entered, and an answer is accepted only against what is entered.

`tryUnlock` reads the lock before its `await` and writes that lock back after a right answer, so it follows
the register only as long as the lock has not been removed or replaced meanwhile (`Fresh`). That is the whole
condition: the register is followed in exactly the runs whose right answers are all fresh (`followed_iff`).
-/

namespace MaterialOpenWebui
namespace Locks
open Js Run

/-! ## The register -/

/-- The credential the user has set for each lock. -/
abbrev Register := JsString → Option Credential

section
variable (sha256 : ByteArray → Vector UInt8 32)

/-- The lock that a `create` puts in place in this step: at once for a secret, after the digest for a
    password. -/
def issued (s : State) : Step → Option (JsString × Lock)
  | .create r now =>
    match newLock sha256 r now with
    | .error _ => none
    | .ok lock =>
      match lock.credential with
      | .password _ => none
      | .totp _ => some (r.id, lock)
  | .resume i _ =>
    match s.calls[i]? with
    | some (.hashing id lock) => some (id, lock)
    | _ => none
  | _ => none

def enter (s : State) (register : Register) : Step → Register
  | .remove id => Function.update register id none
  | a =>
    match issued sha256 s a with
    | some (id, lock) => Function.update register id (some lock.credential)
    | none => register

/-- The module, with the register beside it. -/
structure Watched where
  state : State
  register : Register

variable (hmac : Totp.Algorithm → List UInt8 → List UInt8 → List UInt8) (number : JsString → JsNumber)

def watch (w : Watched) (a : Step) : Watched where
  state := step sha256 hmac number w.state a
  register := enter sha256 w.state w.register a

def Watched.start (stored : JsString → Option Lock) : Watched where
  state := Locks.start stored
  register id := (stored id).map Lock.credential

/-! ## The law -/

/-- What is stored is what is entered. -/
def Watched.Follows (w : Watched) : Prop := ∀ id, (w.state.locks id).map Lock.credential = w.register id

/-- A step accepts an answer only against the credential that is entered, leaves the store as the register
    has it, and changes nothing that is stored for another lock. -/
structure Followed (w : Watched) (a : Step) : Prop where
  accepts : ∀ i now g, a = .resume i now → w.state.calls[i]? = some (.grading g) →
    outcome sha256 hmac g now = .graded true → w.register g.id = some g.lock.credential
  stores : (watch sha256 hmac number w a).Follows
  others : ∀ id, a.about w.state ≠ some id → Untouched w.state (watch sha256 hmac number w a).state id

/-- When an answer is graded right, the lock still has the credential that the call read. -/
def Fresh (w : Watched) : Step → Prop
  | .resume i now => ∀ g, w.state.calls[i]? = some (.grading g) → outcome sha256 hmac g now = .graded true →
      (w.state.locks g.id).map Lock.credential = some g.lock.credential
  | _ => True

/-! ## Steps -/

/-- What a step does to the locks: a lock is issued, one is removed, one that is stored is written back with
    another `openUntil`, or nothing. -/
inductive Rewrites (s : State) (locks : JsString → Option Lock) : Step → Prop
  | issues {a : Step} {id : JsString} {lock : Lock} (h : issued sha256 s a = some (id, lock))
      (hlocks : locks = Function.update s.locks id (some lock)) : Rewrites s locks a
  | removes {id : JsString} (hlocks : locks = Function.update s.locks id none) : Rewrites s locks (.remove id)
  | keeps {a : Step} (ha : ∀ id, a ≠ .remove id) (h : issued sha256 s a = none)
      (hlocks : ∀ id, (locks id).map Lock.credential = (s.locks id).map Lock.credential) : Rewrites s locks a

theorem credential_update {locks : JsString → Option Lock} {id : JsString} {lock lock' : Lock}
    (h : (locks id).map Lock.credential = some lock.credential) (hsame : lock'.credential = lock.credential)
    (id' : JsString) :
    (Function.update locks id (some lock') id').map Lock.credential = (locks id').map Lock.credential := by
  by_cases hid : id' = id
  · subst hid
    rw [Function.update_self, h, Option.map_some, hsame]
  · rw [Function.update_of_ne hid]

theorem rewrites_create (s : State) (r : Request) (now : Int) :
    Rewrites sha256 s (create sha256 s r now).locks (.create r now) := by
  unfold create
  cases hnew : newLock sha256 r now with
  | error message => exact .keeps (fun _ h => by cases h) (by simp only [issued, hnew]) (fun _ => rfl)
  | ok lock =>
    cases hcred : lock.credential with
    | password hash =>
      simp only [hcred]
      exact .keeps (fun _ h => by cases h) (by simp only [issued, hnew, hcred]) (fun _ => rfl)
    | totp secret =>
      simp only [hcred]
      exact .issues (by simp only [issued, hnew, hcred]) rfl

theorem rewrites_resume {s : State} {register : Register} {i : Nat} {now : Int}
    (hfresh : Fresh sha256 hmac ⟨s, register⟩ (.resume i now)) :
    Rewrites sha256 s (resume sha256 hmac number s i now).locks (.resume i now) := by
  have hstep : ∀ id, Step.resume i now ≠ .remove id := fun _ h => by cases h
  unfold resume
  split
  · rename_i g hi
    have hissued : issued sha256 s (.resume i now) = none := by simp only [issued, hi]
    split
    · exact .keeps hstep hissued (fun _ => rfl)
    · exact .keeps hstep hissued (fun _ => rfl)
    · rename_i houtcome
      refine .keeps hstep hissued ?_
      rw [succeed_locks]
      exact credential_update (hfresh g hi houtcome) rfl
    · refine .keeps hstep hissued ?_
      rw [fail_locks]
      exact fun _ => rfl
  · rename_i id lock hi
    exact .issues (by simp only [issued, hi]) rfl
  · rename_i hgrading hhashing
    refine .keeps hstep ?_ (fun _ => rfl)
    simp only [issued]

theorem rewrites_step {s : State} {register : Register} {a : Step}
    (hfresh : Fresh sha256 hmac ⟨s, register⟩ a) :
    Rewrites sha256 s (step sha256 hmac number s a).locks a := by
  cases a with
  | tryUnlock id answer now =>
    refine .keeps (fun _ h => by cases h) rfl (fun _ => ?_)
    simp only [step, tryUnlock]
    split
    · rfl
    · split <;> rfl
  | create r now => exact rewrites_create sha256 s r now
  | resume i now => exact rewrites_resume sha256 hmac number hfresh
  | relock id =>
    refine .keeps (fun _ h => by cases h) rfl ?_
    simp only [step, relock]
    split
    · exact fun _ => rfl
    · rename_i lock hlock
      have hread : (s.locks id).map Lock.credential = some lock.credential := by rw [hlock, Option.map_some]
      have hclosed : ({ lock with openUntil := .closed } : Lock).credential = lock.credential := rfl
      exact credential_update hread hclosed
  | remove id => exact .removes rfl
  | spendLadder now =>
    refine .keeps (fun _ h => by cases h) rfl (fun _ => ?_)
    simp only [step, spendLadder]
    split <;> rfl
  | clearWait id =>
    refine .keeps (fun _ h => by cases h) rfl (fun _ => ?_)
    simp only [step, clearWait]
    split <;> rfl

/-- **Step lemma**: a fresh step leaves the store as the register has it. -/
theorem follows_step {w : Watched} {a : Step} (h : w.Follows) (hfresh : Fresh sha256 hmac w a) :
    (watch sha256 hmac number w a).Follows := by
  intro id'
  show ((step sha256 hmac number w.state a).locks id').map Lock.credential = enter sha256 w.state w.register a id'
  cases rewrites_step sha256 hmac number hfresh with
  | issues hissued hlocks =>
    rename_i id lock
    have henter : enter sha256 w.state w.register a = Function.update w.register id (some lock.credential) := by
      cases a with
      | remove id => cases hissued
      | _ => simp only [enter, hissued]
    rw [hlocks, henter]
    by_cases hid : id' = id
    · rw [hid, Function.update_self, Function.update_self, Option.map_some]
    · rw [Function.update_of_ne hid, Function.update_of_ne hid, h id']
  | removes hlocks =>
    rename_i id
    rw [hlocks]
    show _ = Function.update w.register id none id'
    by_cases hid : id' = id
    · rw [hid, Function.update_self, Function.update_self, Option.map_none]
    · rw [Function.update_of_ne hid, Function.update_of_ne hid, h id']
  | keeps ha hissued hlocks =>
    have henter : enter sha256 w.state w.register a = w.register := by
      cases a with
      | remove id => exact absurd rfl (ha id)
      | _ => simp only [enter, hissued]
    rw [hlocks, henter, h id']

/-! ## Runs -/

/-- What every run with fresh answers keeps. -/
structure Watched.Sound (w : Watched) : Prop where
  follows : w.Follows
  apart : Apart w.state

theorem sound_watch {w : Watched} {a : Step} (h : w.Sound) (hfresh : Fresh sha256 hmac w a) :
    (watch sha256 hmac number w a).Sound :=
  ⟨follows_step sha256 hmac number h.follows hfresh, apart_step sha256 hmac number h.apart a⟩

theorem followed_of_fresh {w : Watched} {a : Step} (h : w.Sound) (hfresh : Fresh sha256 hmac w a) :
    Followed sha256 hmac number w a where
  accepts := by
    rintro i now g rfl hi houtcome
    rw [← h.follows g.id]
    exact hfresh g hi houtcome
  stores := follows_step sha256 hmac number h.follows hfresh
  others id hother := others_unchanged sha256 hmac number h.apart hother

theorem fresh_of_followed {w : Watched} {a : Step} (h : w.Sound) (hfollowed : Followed sha256 hmac number w a) :
    Fresh sha256 hmac w a := by
  cases a with
  | resume i now =>
    intro g hi houtcome
    rw [h.follows g.id]
    exact hfollowed.accepts i now g rfl hi houtcome
  | _ => trivial

/-- **A run follows the register if and only if its right answers are fresh**, whatever calls on whatever
    locks it interleaves. -/
theorem followed_iff (stored : JsString → Option Lock) (as : List Step) :
    AllSteps (Followed sha256 hmac number) (watch sha256 hmac number) (.start stored) as ↔
      AllSteps (Fresh sha256 hmac) (watch sha256 hmac number) (.start stored) as :=
  (allSteps_congr (fun _ _ h hfresh => sound_watch sha256 hmac number h hfresh)
    (fun _ _ h => ⟨followed_of_fresh sha256 hmac number h, fresh_of_followed sha256 hmac number h⟩)
    ⟨fun _ => rfl, apart_start stored⟩).symm

end

/-! ## A removed lock that comes back -/

/-- The tab is unlocked and, before the answer is graded, its lock removed. -/
def removedMeanwhile : List Step :=
  [.tryUnlock (js "tab") (js "sesame") 1772820001000, .remove (js "tab"), .resume 0 1772820001010]

/-- The right answer stores the removed lock again, with its password. -/
theorem removed_lock_returns :
    (((run tabStep (start tabLocked) removedMeanwhile).locks (js "tab")).map Lock.credential =
      some (.password (sha256Hex answerDigest (js "sesame")))) ∧
    ¬ AllSteps (Followed answerDigest (fun _ _ _ => []) (fun _ => .nan))
      (watch answerDigest (fun _ _ _ => []) (fun _ => .nan)) (.start tabLocked) removedMeanwhile := by
  refine ⟨by decide, ?_⟩
  rintro ⟨-, -, hresume, -⟩
  have hright : Outcome.graded (sha256Hex answerDigest (js "sesame") == sha256Hex answerDigest (js "sesame")) =
      .graded true := congrArg Outcome.graded (beq_self_eq_true _)
  have haccepts := hresume.accepts 0 1772820001010 _ rfl rfl hright
  exact absurd haccepts (by decide)

end Locks
end MaterialOpenWebui
