import MaterialOpenWebui.History.Chain
import MaterialOpenWebui.Lib.Run

/-!
# `History.RecordChange` — concurrent recording into the application state (`app/js/state.js`)

`recordChange` is fire-and-forget: it imports the history module, reads the stored log, calls `record` on
it, and writes the log that comes back. Between the read and the write lies the `await` of the hash, so any
number of calls can be past their read at once. A run is a list of steps of the calls, in any order.

The model keeps one cell (`state.history`) and one record per call. A write replaces the cell by the log
computed from what *that call* read. It loses whatever was written in between, and nothing else is lost: a
run whose writes all find the log they read has every completed call in it, once (`nothing_lost`).
-/

namespace MaterialOpenWebui
namespace History
open Js HashChain Run

/-! ## Calls and steps -/

/-- How far one `recordChange` has come. -/
inductive Call where
  /-- `import('./core/history.js')` has not settled yet. -/
  | importing (c : Change)
  /-- The log has been read and `record` awaits the digest. -/
  | hashing (current : Log) (now : JsString) (c : Change)
  /-- The log with this entry has been written. -/
  | done (entry : Entry)
  /-- `record` threw; the call has reported it and is over. -/
  | failed

/-- The entry of a completed call. -/
def Call.entry? : Call → Option Entry
  | .done e => some e
  | _ => none

/-- `state.history`, and every call made so far. -/
structure AppState where
  history : Option Log
  calls : List Call

/-- `get('history') || h.empty()`. -/
def AppState.log (s : AppState) : Log := s.history.getD empty

/-- The entries of the calls that have completed. -/
def AppState.completed (s : AppState) : List Entry := s.calls.filterMap Call.entry?

inductive CallStep where
  | call (action target : JsString) (before after : JsValue)
  | read (i : Nat) (now : JsString)
  | write (i : Nat)

variable (sha256 : ByteArray → Vector UInt8 32)

/-- One step of one call; a step that is not the call's next one does nothing. -/
def recordChange (s : AppState) : CallStep → AppState
  | .call action target before after =>
    { s with calls := s.calls ++ [.importing ⟨action, some target, before, after, none, none⟩] }
  | .read i now =>
    match s.calls[i]? with
    | some (.importing c) => { s with calls := s.calls.set i (.hashing s.log now c) }
    | _ => s
  | .write i =>
    match s.calls[i]? with
    | some (.hashing current now c) =>
      -- `current` is what this call read; what was stored since is not looked at
      match record sha256 now current c with
      | .ok r => { history := some r.log, calls := s.calls.set i (.done r.entry) }
      | .error _ => { s with calls := s.calls.set i .failed }
    | _ => s

/-- An application that starts from a stored log, or from none, with no call made. -/
def start (stored : Option Log) : AppState := ⟨stored, []⟩

/-- The stored log holds what was there before and one entry for each completed call, numbered apart, and
    `verify` accepts it. -/
structure NothingLost (stored : Option Log) (s : AppState) : Prop where
  onePerCall : s.log.entries.Perm ((stored.getD empty).entries ++ s.completed)
  distinct : (s.log.entries.map Entry.seq).Nodup
  verified : Accepted sha256 s.log.toJs

/-! ## Undisturbed writes -/

/-- A write finds the log its call read, with room for one more entry. -/
def Undisturbed (s : AppState) : CallStep → Prop
  | .write i => ∀ current now c, s.calls[i]? = some (.hashing current now c) → c.action ≠ [] →
      s.log = current ∧ current.entries.length < maxEntries ∧ Countable current.entries
  | _ => True

/-- Replacing a call that had no entry by one that has adds exactly that entry. -/
theorem filterMap_set_some {α β : Type} {f : α → Option β} {l : List α} {i : Nat} {a b : α} {y : β}
    (hi : l[i]? = some a) (ha : f a = none) (hb : f b = some y) :
    ((l.set i b).filterMap f).Perm (l.filterMap f ++ [y]) := by
  induction l generalizing i with
  | nil => simp at hi
  | cons x l ih =>
    cases i with
    | zero =>
      simp only [List.getElem?_cons_zero, Option.some.injEq] at hi
      subst hi
      simp only [List.set_cons_zero, List.filterMap_cons, ha, hb]
      exact (List.perm_append_singleton y _).symm
    | succ i =>
      simp only [List.getElem?_cons_succ] at hi
      simp only [List.set_cons_succ, List.filterMap_cons]
      cases f x with
      | none => exact ih hi
      | some z => exact (ih hi).cons z

/-- Replacing a call by another without an entry changes nothing. -/
theorem filterMap_set_none {α β : Type} {f : α → Option β} {l : List α} {i : Nat} {a b : α}
    (hi : l[i]? = some a) (ha : f a = none) (hb : f b = none) :
    (l.set i b).filterMap f = l.filterMap f := by
  induction l generalizing i with
  | nil => simp at hi
  | cons x l ih =>
    cases i with
    | zero =>
      simp only [List.getElem?_cons_zero, Option.some.injEq] at hi
      subst hi
      simp only [List.set_cons_zero, List.filterMap_cons, ha, hb]
    | succ i =>
      simp only [List.getElem?_cons_succ] at hi
      simp only [List.set_cons_succ, List.filterMap_cons, ih hi]

/-- What an undisturbed run keeps: a sound log that accounts for every completed call. -/
structure Accounted (stored : Option Log) (s : AppState) : Prop where
  sound : Sound sha256 s.log
  perm : s.log.entries.Perm ((stored.getD empty).entries ++ s.completed)

/-- A step that leaves the cell and the completed calls alone. -/
theorem Accounted.of_eq {stored : Option Log} {s s' : AppState} (h : Accounted sha256 stored s)
    (hh : s'.history = s.history) (hc : s'.completed = s.completed) : Accounted sha256 stored s' := by
  have hlog : s'.log = s.log := by rw [AppState.log, hh, AppState.log]
  exact ⟨hlog ▸ h.sound, by rw [hlog, hc]; exact h.perm⟩

/-- An undisturbed write appends its entry and completes its call. -/
theorem accounted_write {stored : Option Log} {s : AppState} {i : Nat} (h : Accounted sha256 stored s)
    (hok : Undisturbed s (.write i)) : Accounted sha256 stored (recordChange sha256 s (.write i)) := by
  simp only [recordChange]
  split
  · rename_i current now c hi
    by_cases hc : c.action = []
    · -- `record` throws before it reads anything
      have herr : record sha256 now current c = .error (js "Every history entry has to say what happened.") := by
        simp only [record, if_pos hc]
      simp only [herr]
      exact h.of_eq sha256 rfl (filterMap_set_none hi rfl rfl)
    · obtain ⟨hcur, hroom, hcount⟩ := hok current now c hi hc
      subst hcur
      simp only [record_of_room sha256 hc hroom]
      refine ⟨h.sound.concat sha256 hroom hcount now c _, ?_⟩
      have hcompleted := filterMap_set_some (f := Call.entry?)
        (b := .done (newEntry sha256 now s.log.entries c)) hi rfl rfl
      refine (h.perm.append_right _).trans ?_
      rw [List.append_assoc]
      exact hcompleted.symm.append_left _
  · exact h

/-- **Step lemma.** -/
theorem accounted_step {stored : Option Log} {s : AppState} {a : CallStep}
    (h : Accounted sha256 stored s) (hok : Undisturbed s a) :
    Accounted sha256 stored (recordChange sha256 s a) := by
  cases a with
  | call action target before after =>
    refine h.of_eq sha256 rfl ?_
    simp [recordChange, AppState.completed, Call.entry?]
  | read i now =>
    simp only [recordChange]
    split
    · rename_i c hi
      exact h.of_eq sha256 rfl (filterMap_set_none hi rfl rfl)
    · exact h
  | write i => exact accounted_write sha256 h hok

/-- **No change is lost** in a run whose writes are undisturbed, from any sound stored log. -/
theorem nothing_lost {stored : Option Log} {as : List CallStep}
    (hstored : Sound sha256 (stored.getD empty))
    (h : AllSteps Undisturbed (recordChange sha256) (start stored) as) :
    NothingLost sha256 stored (run (recordChange sha256) (start stored) as) := by
  have hstart : Accounted sha256 stored (start stored) := by
    refine ⟨hstored, ?_⟩
    simp [AppState.completed, start, AppState.log]
  have hend := invariant (fun _ _ hI hok => accounted_step sha256 hI hok) hstart h
  exact ⟨hend.perm, hend.sound.increasing.imp Nat.ne_of_lt,
    (accepted_toJs sha256 _).mpr hend.sound.linked⟩

/-- Two toggles of the theme, one recorded after the other. -/
def oneAfterTheOther : List CallStep :=
  [.call (js "setting") (js "theme") (.str (js "light")) (.str (js "dark")), .read 0 (js "2026-01-01"),
    .write 0, .call (js "setting") (js "theme") (.str (js "dark")) (.str (js "light")),
    .read 1 (js "2026-01-01"), .write 1]

/-- SHA-256 on the two texts of `oneAfterTheOther`, told apart by their lengths. -/
def toggleDigest (bytes : ByteArray) : Vector UInt8 32 :=
  if bytes.size = 118 then
    #v[8, 218, 116, 159, 39, 3, 156, 240, 65, 32, 174, 70, 38, 253, 196, 216,
      121, 206, 39, 141, 163, 90, 8, 184, 10, 245, 39, 152, 35, 39, 220, 30]
  else
    #v[185, 38, 213, 223, 144, 27, 221, 157, 152, 61, 158, 98, 207, 234, 72, 136,
      208, 124, 69, 183, 134, 155, 128, 108, 168, 51, 58, 124, 99, 26, 136, 114]

theorem nothing_lost_oneAfterTheOther : NothingLost toggleDigest none
    (run (recordChange toggleDigest) (start none) oneAfterTheOther) :=
  nothing_lost _ (sound_empty _) (by
    refine ⟨trivial, trivial, ?_, trivial, trivial, ?_, trivial⟩
    · intro current now c hi _
      cases hi
      exact ⟨rfl, by decide, by unfold Countable; decide⟩
    · intro current now c hi _
      cases hi
      exact ⟨rfl, by decide, by unfold Countable; decide⟩)

/-- The same two toggles, the second read before the first was written. -/
def overlapping : List CallStep :=
  [.call (js "setting") (js "theme") (.str (js "light")) (.str (js "dark")),
    .call (js "setting") (js "theme") (.str (js "dark")) (.str (js "light")),
    .read 0 (js "2026-01-01"), .read 1 (js "2026-01-01"), .write 0, .write 1]

/-- Both calls complete, and the log holds one entry: the other change is lost, for any digest. -/
theorem overlapping_loses_one : ¬ ∃ sha256 : ByteArray → Vector UInt8 32,
    NothingLost sha256 none (run (recordChange sha256) (start none) overlapping) := by
  rintro ⟨sha256, h⟩
  have hlen := h.onePerCall.length_eq
  have hentries : (run (recordChange sha256) (start none) overlapping).log.entries.length = 1 := rfl
  have hcompleted : (run (recordChange sha256) (start none) overlapping).completed.length = 2 := rfl
  rw [List.length_append, hentries, hcompleted] at hlen
  exact absurd hlen (by decide)

end History
end MaterialOpenWebui
