import MaterialOpenWebui.Lib.Run
import MaterialOpenWebui.Locks.Model

/-!
# `Locks.References` — who refers to which record of failed attempts

The map entry of a lock and the calls in flight on it refer to record objects. Whatever the order of the
steps, two locks never come to share a record (`apart_step`), so a step on one lock leaves the lock and the
failures of every other as they are (`others_unchanged`).
-/

namespace MaterialOpenWebui
namespace Locks
open Js Run

/-! ## References -/

/-- The lock and the record a call refers to. -/
def Call.holds : Call → Option (JsString × Nat)
  | .grading g => g.record.map (g.id, ·)
  | _ => none

/-- The map entry of the lock, or a call on it, refers to the record. -/
def State.Refers (s : State) (id : JsString) (r : Nat) : Prop :=
  s.attempts id = some r ∨ ∃ c ∈ s.calls, c.holds = some (id, r)

theorem refers_record {s : State} {g : Grading} {r : Nat} {i : Nat} (hi : s.calls[i]? = some (.grading g))
    (hr : g.record = some r) : s.Refers g.id r :=
  Or.inr ⟨_, List.mem_of_getElem? hi, by simp only [Call.holds, hr, Option.map_some]⟩

/-- References are to records that exist, and never across locks. -/
structure Apart (s : State) : Prop where
  bounded : ∀ id r, s.Refers id r → r < s.records.length
  apart : ∀ id id' r, s.Refers id r → s.Refers id' r → id = id'

/-- A step that makes no new references. -/
theorem Apart.of_refers {s s' : State} (h : Apart s) (hlength : s'.records.length = s.records.length)
    (hrefers : ∀ id r, s'.Refers id r → s.Refers id r) : Apart s' where
  bounded id r hr := hlength ▸ h.bounded id r (hrefers id r hr)
  apart id id' r hr hr' := h.apart id id' r (hrefers id r hr) (hrefers id' r hr')

/-- A new call, which refers to what the map refers to, or to nothing. -/
theorem Apart.call {s s' : State} (h : Apart s) {c : Call} (hattempts : s'.attempts = s.attempts)
    (hrecords : s'.records = s.records) (hcalls : s'.calls = s.calls ++ [c])
    (hholds : ∀ id r, c.holds = some (id, r) → s.attempts id = some r) : Apart s' := by
  refine h.of_refers (by rw [hrecords]) ?_
  rintro id r (hmap | ⟨c', hc', hr⟩)
  · rw [hattempts] at hmap
    exact Or.inl hmap
  · rw [hcalls] at hc'
    rcases List.mem_append.mp hc' with hold | hnew
    · exact Or.inr ⟨c', hold, hr⟩
    · rw [List.mem_singleton.mp hnew] at hr
      exact Or.inl (hholds id r hr)

/-- A call that moves on refers to what it referred to, or to nothing. -/
theorem refers_of_set {s s' : State} {i : Nat} {c : Call} (hattempts : s'.attempts = s.attempts)
    (hcalls : s'.calls = s.calls.set i c) (hholds : ∀ id r, c.holds = some (id, r) → s.Refers id r)
    {id : JsString} {r : Nat} (h : s'.Refers id r) : s.Refers id r := by
  rcases h with hmap | ⟨c', hc', hr⟩
  · rw [hattempts] at hmap
    exact Or.inl hmap
  · rw [hcalls] at hc'
    rcases List.mem_or_eq_of_mem_set hc' with hold | rfl
    · exact Or.inr ⟨c', hold, hr⟩
    · exact hholds id r hr

theorem Apart.set {s s' : State} (h : Apart s) {i : Nat} {c : Call} (hattempts : s'.attempts = s.attempts)
    (hrecords : s'.records = s.records) (hcalls : s'.calls = s.calls.set i c)
    (hholds : ∀ id r, c.holds = some (id, r) → s.Refers id r) : Apart s' :=
  h.of_refers (by rw [hrecords]) (fun _ _ hr => refers_of_set hattempts hcalls hholds hr)

theorem holds_settled {P : JsString → Nat → Prop} (result : Result) (id : JsString) (r : Nat)
    (h : (Call.settled result).holds = some (id, r)) : P id r := by
  cases h

theorem holds_hashing {P : JsString → Nat → Prop} {of : JsString} {lock : Lock} (id : JsString) (r : Nat)
    (h : (Call.hashing of lock).holds = some (id, r)) : P id r := by
  cases h

/-! ## Storing a failure -/

/-- The record a failure is stored in: the one the call holds, or a new one. -/
def State.written (s : State) (record : Option Nat) : Nat := record.getD s.records.length

@[simp] theorem storeFailure_calls (s : State) (id : JsString) (record : Option Nat) (w : Record) :
    (s.storeFailure id record w).calls = s.calls := by
  cases record <;> rfl

@[simp] theorem storeFailure_locks (s : State) (id : JsString) (record : Option Nat) (w : Record) :
    (s.storeFailure id record w).locks = s.locks := by
  cases record <;> rfl

theorem storeFailure_attempts (s : State) (id : JsString) (record : Option Nat) (w : Record) :
    (s.storeFailure id record w).attempts = Function.update s.attempts id (some (s.written record)) := by
  cases record <;> rfl

theorem storeFailure_length (s : State) (id : JsString) (record : Option Nat) (w : Record) :
    (s.storeFailure id record w).records.length =
      if record = none then s.records.length + 1 else s.records.length := by
  cases record <;> simp [State.storeFailure]

theorem storeFailure_written {s : State} {id : JsString} {record : Option Nat} {w : Record}
    (hbounded : ∀ r, record = some r → r < s.records.length) :
    (s.storeFailure id record w).records[s.written record]? = some w := by
  cases record with
  | none => simp [State.storeFailure, State.written]
  | some r => simp [State.storeFailure, State.written, hbounded r rfl]

theorem storeFailure_others {s : State} {id : JsString} {record : Option Nat} {w : Record} {r : Nat}
    (hr : r < s.records.length) (hne : record ≠ some r) :
    (s.storeFailure id record w).records[r]? = s.records[r]? := by
  cases record with
  | none => simp only [State.storeFailure, List.getElem?_append_left hr]
  | some r' =>
    have hne : r' ≠ r := fun heq => hne (by rw [heq])
    simp only [State.storeFailure, List.getElem?_set_ne hne]

/-- Storing a failure makes one new reference at most: of its lock, to a new record. -/
theorem refers_storeFailure {s : State} {id : JsString} {record : Option Nat} {w : Record}
    (hholds : ∀ r, record = some r → s.Refers id r) {id' : JsString} {r : Nat}
    (h : (s.storeFailure id record w).Refers id' r) :
    s.Refers id' r ∨ id' = id ∧ record = none ∧ r = s.records.length := by
  rcases h with hmap | ⟨c, hc, hr⟩
  · rw [storeFailure_attempts, Function.update_apply] at hmap
    split at hmap
    · rename_i hid
      cases record with
      | none => exact Or.inr ⟨hid, rfl, (Option.some.inj hmap).symm⟩
      | some r' =>
        rw [hid, ← Option.some.inj hmap]
        exact Or.inl (hholds r' rfl)
    · exact Or.inl (Or.inl hmap)
  · rw [storeFailure_calls] at hc
    exact Or.inl (Or.inr ⟨c, hc, hr⟩)

theorem fail_attempts (s : State) (i : Nat) (g : Grading) (now : Int) : (fail s i g now).attempts =
    (s.storeFailure g.id g.record (s.failure g.record now)).attempts := by
  unfold fail
  cases g.record <;> rfl

theorem fail_records (s : State) (i : Nat) (g : Grading) (now : Int) : (fail s i g now).records =
    (s.storeFailure g.id g.record (s.failure g.record now)).records := by
  unfold fail
  cases g.record <;> rfl

theorem fail_calls (s : State) (i : Nat) (g : Grading) (now : Int) : (fail s i g now).calls =
    (s.storeFailure g.id g.record (s.failure g.record now)).calls.set i
      (.settled (.reply (wrongReply (s.failure g.record now) now))) := by
  unfold fail
  cases g.record <;> rfl

theorem fail_locks (s : State) (i : Nat) (g : Grading) (now : Int) : (fail s i g now).locks = s.locks := by
  unfold fail
  cases g.record <;> rfl

section
variable (sha256 : ByteArray → Vector UInt8 32)
  (hmac : Totp.Algorithm → List UInt8 → List UInt8 → List UInt8) (number : JsString → JsNumber)

theorem succeed_attempts (s : State) (i : Nat) (g : Grading) (now : Int) :
    (succeed number s i g now).attempts = Function.update s.attempts g.id none := by
  unfold succeed
  simp only
  split <;> rfl

theorem succeed_records (s : State) (i : Nat) (g : Grading) (now : Int) :
    (succeed number s i g now).records = s.records := by
  unfold succeed
  simp only
  split <;> rfl

theorem succeed_calls (s : State) (i : Nat) (g : Grading) (now : Int) :
    (succeed number s i g now).calls = s.calls.set i (.settled (.reply ⟨true, none, none, none⟩)) := by
  unfold succeed
  simp only
  split <;> rfl

/-- A right answer writes back the lock the call read. -/
theorem succeed_locks (s : State) (i : Nat) (g : Grading) (now : Int) : (succeed number s i g now).locks =
    Function.update s.locks g.id (some { g.lock with openUntil := openFor number g.lock.duration now }) := by
  unfold succeed
  simp only
  split <;> rfl

/-! ## Runs -/

theorem apart_start (stored : JsString → Option Lock) : Apart (start stored) := by
  have hnone : ∀ id r, ¬ (start stored).Refers id r := by
    rintro id r (hmap | ⟨c, hc, -⟩)
    · cases hmap
    · cases hc
  exact ⟨fun id r hr => absurd hr (hnone id r), fun id _ r hr => absurd hr (hnone id r)⟩

theorem apart_tryUnlock {s : State} (h : Apart s) (id answer : JsString) (now : Int) :
    Apart (tryUnlock s id answer now) := by
  unfold tryUnlock
  split
  · exact h.call rfl rfl rfl (holds_settled _)
  · simp only
    split
    · exact h.call rfl rfl rfl (holds_settled _)
    · refine h.call rfl rfl rfl ?_
      intro id' r hr
      simp only [Call.holds, Option.map_eq_some_iff, Prod.mk.injEq] at hr
      obtain ⟨r', hr', rfl, rfl⟩ := hr
      exact hr'

theorem apart_create {s : State} (h : Apart s) (r : Request) (now : Int) : Apart (create sha256 s r now) := by
  unfold create
  split
  · exact h.call rfl rfl rfl (holds_settled _)
  · split
    · exact h.call rfl rfl rfl holds_hashing
    · exact h.call rfl rfl rfl (holds_settled _)

theorem refers_fail {s : State} {i : Nat} {g : Grading} {now : Int} (hi : s.calls[i]? = some (.grading g))
    {id : JsString} {r : Nat} (h : (fail s i g now).Refers id r) :
    s.Refers id r ∨ id = g.id ∧ g.record = none ∧ r = s.records.length :=
  refers_storeFailure (fun _ hr => refers_record hi hr)
    (refers_of_set (fail_attempts s i g now) (fail_calls s i g now) (holds_settled _) h)

theorem apart_fail {s : State} (h : Apart s) {i : Nat} {g : Grading} {now : Int}
    (hi : s.calls[i]? = some (.grading g)) : Apart (fail s i g now) := by
  refine ⟨?_, ?_⟩
  · intro id r hr
    rw [fail_records, storeFailure_length]
    rcases refers_fail hi hr with hold | ⟨-, hnone, hnew⟩
    · have hlt := h.bounded id r hold
      split <;> omega
    · rw [if_pos hnone]
      omega
  · intro id id' r hr hr'
    rcases refers_fail hi hr with hold | ⟨hid, -, hnew⟩
    · rcases refers_fail hi hr' with hold' | ⟨-, -, hnew'⟩
      · exact h.apart id id' r hold hold'
      · exact absurd (h.bounded id r hold) (by omega)
    · rcases refers_fail hi hr' with hold' | ⟨hid', -, -⟩
      · exact absurd (h.bounded id' r hold') (by omega)
      · rw [hid, hid']

theorem apart_succeed {s : State} (h : Apart s) (i : Nat) (g : Grading) (now : Int) :
    Apart (succeed number s i g now) := by
  refine h.of_refers (by rw [succeed_records]) ?_
  rintro id r (hmap | ⟨c, hc, hr⟩)
  · rw [succeed_attempts, Function.update_apply] at hmap
    split at hmap
    · cases hmap
    · exact Or.inl hmap
  · rw [succeed_calls] at hc
    rcases List.mem_or_eq_of_mem_set hc with hold | rfl
    · exact Or.inr ⟨c, hold, hr⟩
    · cases hr

theorem apart_resume {s : State} (h : Apart s) (i : Nat) (now : Int) :
    Apart (resume sha256 hmac number s i now) := by
  unfold resume
  split
  · rename_i g hi
    split
    · -- another code is to be compared: the call holds what it held
      exact h.set rfl rfl rfl (fun id r hr => Or.inr ⟨_, List.mem_of_getElem? hi, hr⟩)
    · exact h.set rfl rfl rfl (holds_settled _)
    · exact apart_succeed number h i g now
    · exact apart_fail h hi
  · exact h.set rfl rfl rfl (holds_settled _)
  · exact h

/-- **Step lemma**: whatever the step, no two locks come to share a record. -/
theorem apart_step {s : State} (h : Apart s) (a : Step) : Apart (step sha256 hmac number s a) := by
  cases a with
  | tryUnlock id answer now => exact apart_tryUnlock h id answer now
  | create r now => exact apart_create sha256 h r now
  | resume i now => exact apart_resume sha256 hmac number h i now
  | relock id =>
    simp only [step, relock]
    split
    · exact h
    · exact h.of_refers rfl (fun _ _ hr => hr)
  | remove id => exact h.of_refers rfl (fun _ _ hr => hr)
  | spendLadder now =>
    simp only [step, spendLadder]
    split <;> exact h.of_refers rfl (fun _ _ hr => hr)
  | clearWait id =>
    simp only [step, clearWait]
    split
    · exact h
    · exact h.of_refers (List.length_modify _ _ _) (fun _ _ hr => hr)

/-! ## Frame -/

/-- The lock a call works on. -/
def Call.about : Call → Option JsString
  | .grading g => some g.id
  | .hashing id _ => some id
  | .settled _ => none

/-- The lock a step works on. -/
def Step.about (s : State) : Step → Option JsString
  | .tryUnlock id _ _ => some id
  | .create r _ => some r.id
  | .resume i _ => (s.calls[i]?).bind Call.about
  | .relock id => some id
  | .remove id => some id
  | .spendLadder _ => none
  | .clearWait id => some id

/-- The failures and the wait stored for a lock. -/
def State.recordOf (s : State) (id : JsString) : Option Record := (s.attempts id).bind (s.records[·]?)

/-- What is stored for a lock is the same in both states. -/
structure Untouched (s s' : State) (id : JsString) : Prop where
  lock : s'.locks id = s.locks id
  record : s'.recordOf id = s.recordOf id

theorem Untouched.of_eq {s s' : State} {id : JsString} (hlock : s'.locks id = s.locks id)
    (hattempts : s'.attempts id = s.attempts id) (hrecords : s'.records = s.records) : Untouched s s' id :=
  ⟨hlock, by rw [State.recordOf, State.recordOf, hattempts, hrecords]⟩

theorem recordOf_storeFailure {s : State} (h : Apart s) {id id' : JsString} {record : Option Nat} {w : Record}
    (hholds : ∀ r, record = some r → s.Refers id r) (hne : id' ≠ id) :
    (s.storeFailure id record w).recordOf id' = s.recordOf id' := by
  rw [State.recordOf, State.recordOf, storeFailure_attempts, Function.update_of_ne hne]
  cases hmap : s.attempts id' with
  | none => rfl
  | some r =>
    have hother : record ≠ some r := fun heq => hne (h.apart id' id r (Or.inl hmap) (hholds r heq))
    exact storeFailure_others (h.bounded id' r (Or.inl hmap)) hother

theorem untouched_fail {s : State} (h : Apart s) {i : Nat} {g : Grading} {now : Int}
    (hi : s.calls[i]? = some (.grading g)) {id : JsString} (hne : id ≠ g.id) :
    Untouched s (fail s i g now) id := by
  refine ⟨by rw [fail_locks], ?_⟩
  rw [← recordOf_storeFailure h (fun r hr => refers_record hi hr) hne (w := s.failure g.record now),
    State.recordOf, State.recordOf, fail_attempts, fail_records]

theorem untouched_succeed {s : State} {i : Nat} {g : Grading} {now : Int} {id : JsString} (hne : id ≠ g.id) :
    Untouched s (succeed number s i g now) id := by
  refine .of_eq ?_ ?_ (succeed_records number s i g now)
  · rw [succeed_locks, Function.update_of_ne hne]
  · rw [succeed_attempts, Function.update_of_ne hne]

theorem untouched_resume {s : State} (h : Apart s) {i : Nat} {now : Int} {id : JsString}
    (hother : (Step.resume i now).about s ≠ some id) : Untouched s (resume sha256 hmac number s i now) id := by
  simp only [Step.about] at hother
  unfold resume
  split
  · rename_i g hi
    have hne : id ≠ g.id := fun heq => hother (by rw [hi, heq]; rfl)
    split
    · exact ⟨rfl, rfl⟩
    · exact ⟨rfl, rfl⟩
    · exact untouched_succeed number hne
    · exact untouched_fail h hi hne
  · rename_i of lock hi
    have hne : id ≠ of := fun heq => hother (by rw [hi, heq]; rfl)
    exact .of_eq (Function.update_of_ne hne _ _) rfl rfl
  · exact ⟨rfl, rfl⟩

/-- **Frame.** A step on one lock leaves what is stored for the others. -/
theorem others_unchanged {s : State} (h : Apart s) {a : Step} {id : JsString} (hother : a.about s ≠ some id) :
    Untouched s (step sha256 hmac number s a) id := by
  cases a with
  | tryUnlock of answer now =>
    simp only [step, tryUnlock]
    split
    · exact ⟨rfl, rfl⟩
    · split <;> exact ⟨rfl, rfl⟩
  | create r now =>
    have hne : id ≠ r.id := fun heq => hother (by rw [heq]; rfl)
    simp only [step, create]
    split
    · exact ⟨rfl, rfl⟩
    · split
      · exact ⟨rfl, rfl⟩
      · exact .of_eq (Function.update_of_ne hne _ _) rfl rfl
  | resume i now => exact untouched_resume sha256 hmac number h hother
  | relock of =>
    have hne : id ≠ of := fun heq => hother (by rw [heq]; rfl)
    simp only [step, relock]
    split
    · exact ⟨rfl, rfl⟩
    · exact .of_eq (Function.update_of_ne hne _ _) rfl rfl
  | remove of =>
    have hne : id ≠ of := fun heq => hother (by rw [heq]; rfl)
    exact .of_eq (Function.update_of_ne hne _ _) rfl rfl
  | spendLadder now =>
    simp only [step, spendLadder]
    split <;> exact ⟨rfl, rfl⟩
  | clearWait of =>
    have hne : id ≠ of := fun heq => hother (by rw [heq]; rfl)
    simp only [step, clearWait]
    split
    · exact ⟨rfl, rfl⟩
    · rename_i r hr
      refine ⟨rfl, ?_⟩
      cases hmap : s.attempts id with
      | none => simp only [State.recordOf, hmap, Option.bind_none]
      | some r' =>
        have hapart : r ≠ r' := by
          rintro rfl
          exact hne (h.apart id of r (Or.inl hmap) (Or.inl hr))
        simp only [State.recordOf, hmap, Option.bind_some, List.getElem?_modify_ne _ _ hapart]

end

end Locks
end MaterialOpenWebui
