import MaterialOpenWebui.Chats.History
import MaterialOpenWebui.Py.Instant
import MaterialOpenWebui.Py.Numeral
import MaterialOpenWebui.Timers.Model

/-!
# `Timers.Creation` — setting a timer (`backend/open_webui/utils/timers.py`)

`create_timer` checks its arguments, reads when the timer is due, inserts its row, and at last writes that time as a date for
the reply. What it refuses it refuses before the insert. The date it writes after it, and a date has a year up to 9999, while
an offset may be as long as one likes, and a time may be of the year 9999 in a zone behind UTC: then the row is there, and the
reply is not (`unanswered_farOff`).

Rounding to a float (`round`), lower case (`lower`), the digits that Unicode has beside those of ASCII (`decimal`), what
`UserModel` makes of the user's data, and whether the database takes a row are parameters.
-/

namespace MaterialOpenWebui
namespace Timers
namespace Creation
open Py

/-! ## Times as texts -/

/-- The names of units that `_RELATIVE_TIME` knows. -/
def unitNames : List Str :=
  [py "s", py "sec", py "second", py "seconds", py "m", py "min", py "minute", py "minutes", py "h", py "hour", py "hours",
    py "d", py "day", py "days"]

/-- `_TIME_UNITS_NS`, by the first letter of a name. -/
def _TIME_UNITS_NS (name : Str) : Int :=
  let letter := name.take 1
  if letter = py "s" then 1000000000
  else if letter = py "m" then 60 * 1000000000
  else if letter = py "h" then 60 * 60 * 1000000000
  else 24 * 60 * 60 * 1000000000

/-- What follows a `+`, or an `in` and spaces. -/
def afterLead (text : Str) : Str :=
  if text.take 1 = py "+" then text.drop 1
  else if text.take 2 = py "in" ∧ ((text.drop 2).takeWhile CodePoint.isSpace) ≠ [] then
    (text.drop 2).dropWhile CodePoint.isSpace
  else text

section
variable (decimal : CodePoint → Option Nat)

/-- `_RELATIVE_TIME`: the digits and the unit of a text that matches. -/
def relative (text : Str) : Option (Str × Str) :=
  let rest := afterLead text
  let digits := rest.takeWhile fun c => (decimal c).isSome
  let unit := (rest.dropWhile fun c => (decimal c).isSome).dropWhile CodePoint.isSpace
  if digits ≠ [] ∧ unit ∈ unitNames then some (digits, unit) else none

/-- The number that digits are. -/
def number (digits : Str) : Nat := digits.foldl (fun n c => 10 * n + (decimal c).getD 0) 0

end

/-- A number of so many digits, and what follows it. -/
def fixed (width : Nat) (s : Str) : Option (Nat × Str) :=
  let digits := s.take width
  if digits.length = width ∧ digits.all CodePoint.isDigit = true then some (natOf digits, s.drop width) else none

def expect (c : Char) : Str → Option Str
  | d :: rest => if d = ofChar c then some rest else none
  | [] => none

/-- Microseconds, if any are given; further digits are dropped. -/
def fraction (s : Str) : Option (Nat × Str) :=
  if s.take 1 = py "." then
    let digits := (s.drop 1).takeWhile CodePoint.isDigit
    if digits = [] then none
    else some (natOf ((digits ++ py "000000").take 6), (s.drop 1).dropWhile CodePoint.isDigit)
  else some (0, s)

/-- The minutes that a zone is ahead of UTC, at the end of a text. -/
def offset (s : Str) : Option Int :=
  if s = py "Z" then some 0
  else do
    let ahead ← if s.take 1 = py "+" then some 1 else if s.take 1 = py "-" then some (-1) else none
    let (hours, s) ← fixed 2 (s.drop 1)
    let (minutes, s) ← fixed 2 (← expect ':' s)
    if s = [] then some (ahead * (60 * hours + minutes)) else none

/-- The days of a month. -/
def daysIn (year : Int) (month : Nat) : Nat :=
  if month = 12 then 31
  else Calendar.daysBeforeMonth (Calendar.isLeap year) (month + 1) - Calendar.daysBeforeMonth (Calendar.isLeap year) month

/-- `datetime.fromisoformat` on what matches `_RFC3339_TIME`: the instant, in microseconds since 1970. A text that does not
match gets the same answer as one that is no date, and `fromisoformat` reads the digits of ASCII only. -/
def fromisoformat (raw : Str) : Option Int := do
  let (year, s) ← fixed 4 raw
  let (month, s) ← fixed 2 (← expect '-' s)
  let (day, s) ← fixed 2 (← expect '-' s)
  let (hour, s) ← fixed 2 (← expect 'T' s)
  let (minute, s) ← fixed 2 (← expect ':' s)
  let (second, s) ← fixed 2 (← expect ':' s)
  let (micro, s) ← fraction s
  let ahead ← offset s
  if 1 ≤ year ∧ 1 ≤ month ∧ month ≤ 12 ∧ 1 ≤ day ∧ day ≤ daysIn year month ∧ hour < 24 ∧ minute < 60 ∧ second < 60 ∧
      ahead.natAbs < 24 * 60 then
    some ((Calendar.dayNumber year month day * 86400 + hour * 3600 + minute * 60 + second - ahead * 60) * 1000000 + micro)
  else none

/-- The text of a whole number that `int` refuses to read. -/
def tooLong (digits : Str) : Str :=
  py "Exceeds the limit (4300 digits) for integer string conversion: value has " ++ natText digits.length ++
    py " digits; use sys.set_int_max_str_digits() to increase the limit"

def noFuture : Str := py "at must be in the future."

def noTime : Str :=
  py "at must be a relative time such as 10s or in 10 seconds, or an RFC 3339 timestamp with a timezone."

section
variable (round : Rat → Rat) (lower : Str → Str) (decimal : CodePoint → Option Nat)

def parse_timer_at (value : Str) (now : Int) : Except Str Int :=
  let raw := strip value
  match relative decimal (lower raw) with
  | some (digits, unit) =>
    if 4300 < digits.length then .error (tooLong digits)
    else if number decimal digits = 0 then .error noFuture
    else .ok (now + number decimal digits * _TIME_UNITS_NS unit)
  | none =>
    match fromisoformat raw with
    | none => .error noTime
    | some instant => if timestamp_ns round instant ≤ now then .error noFuture else .ok (timestamp_ns round instant)

/-! ## Times as dates -/

/-- `datetime.fromtimestamp`: it raises where a date has no year for it. -/
def fromtimestamp (ns : Int) : Option Int :=
  if InYears (microseconds round ns) then some (microseconds round ns) else none

end

def pad (width n : Nat) : Str := List.replicate (width - (natText n).length) (ofChar '0') ++ natText n

/-- `isoformat`, with a `Z`. -/
def isoformat (instant : Int) : Str :=
  let days := instant / 86400000000
  let micros := (instant % 86400000000).toNat
  let seconds := micros / 1000000
  pad 4 (Calendar.year days).toNat ++ py "-" ++ pad 2 (Calendar.month days) ++ py "-" ++
    pad 2 (Calendar.day days) ++ py "T" ++
    pad 2 (seconds / 3600) ++ py ":" ++ pad 2 (seconds / 60 % 60) ++ py ":" ++ pad 2 (seconds % 60) ++
    (if micros % 1000000 = 0 then [] else py "." ++ pad 6 (micros % 1000000)) ++ py "Z"

/-! ## Setting a timer -/

/-- The arguments of a call, as far as they decide what becomes of it. -/
structure Call where
  prompt : Str
  at_ : Str
  cancel_on : Option (List Str)
  user_data : Obj
  metadata : Obj
  parent_chat_id : Str

inductive Reply where
  | error (text : Str)
  | set (at_ : Str) (cancel_on : List Str)

def allowed_events : List Str := [py "chat.read", py "chat.user_message"]

/-- `metadata.get('model_id') or (metadata.get('model') or {}).get('id')`: it raises where the model is no map. -/
def model_id (metadata : Obj) : Option Val :=
  let given := Chats.field metadata (py "model_id")
  let model := Chats.field metadata (py "model")
  if given.truthy then some given
  else if model.truthy then model.obj?.map fun model => Chats.field model (py "id")
  else some .none

section
variable (round : Rat → Rat) (lower : Str → Str) (decimal : CodePoint → Option Nat) (UserModel : Obj → Option Str)
  (accepts : Str → Row → Bool)

/-- `create_timer` up to the insert: the row that is to be inserted, or the text of an error. `none` where it raises. -/
def checked (call : Call) (now : Int) : Option (Except Str Row) :=
  if strip call.prompt = [] then some (.error (py "Error: prompt must not be empty."))
  else if call.parent_chat_id = [] ∨ (Chats.field call.user_data (py "id")).truthy = false then
    some (.error (py "Error: chat and user context are required."))
  else
    match parse_timer_at round lower decimal call.at_ now with
    | .error text => some (.error (py "Error: " ++ text))
    | .ok due_at =>
      let selected_events := call.cancel_on.getD []
      if selected_events.any (fun event => event ∉ allowed_events) = true then
        some (.error (py "Error: cancel_on accepts only chat.read and chat.user_message."))
      else (model_id call.metadata).bind fun model_id =>
        if model_id.truthy = false then some (.error (py "Error: model context is required."))
        else if (Chats.field call.metadata (py "direct")).truthy then
          some (.error (py "Error: timers are unavailable for direct connections."))
        else (UserModel call.user_data).map fun user_id =>
          .ok ⟨user_id, ⟨.pending, none, none, due_at, call.parent_chat_id, selected_events.eraseDups⟩⟩

/-- `create_timer`, with the id that is made for its chat: the reply, if it does not raise, and what is stored then. -/
def create_timer (call : Call) (now : Int) (timer : Str) (s : State) : Option Reply × State :=
  match checked round lower decimal UserModel call now with
  | none => (none, s)
  | some (.error text) => (some (.error text), s)
  | some (.ok row) =>
    if timer ∈ s.rows ∨ accepts timer row = false then (none, s)
    else
      -- the row is committed before the date is written
      ((fromtimestamp round row.data.timer_at).map fun instant => .set (isoformat instant) row.data.cancel_on,
        Timers.create_timer s timer row.user_id row.data.parent_chat_id row.data.timer_at row.data.cancel_on)

/-! ## All or nothing -/

theorem _TIME_UNITS_NS_pos (name : Str) : 0 < _TIME_UNITS_NS name := by
  unfold _TIME_UNITS_NS
  simp only
  split
  · decide
  · split
    · decide
    · split <;> decide

/-- A date can be written for the time. -/
def Dated (ns : Int) : Prop := InYears (microseconds round ns)

instance (ns : Int) : Decidable (Dated round ns) := inferInstanceAs (Decidable (InYears _))

theorem fromtimestamp_of_dated {ns : Int} (h : Dated round ns) :
    fromtimestamp round ns = some (microseconds round ns) := if_pos h

/-- The time that a text names, be it an offset or a date of its own, is one that a date can be written for. -/
def InCalendar (at_ : Str) (now : Int) : Prop :=
  (∀ digits unit, relative decimal (lower (strip at_)) = some (digits, unit) →
    Dated round (now + number decimal digits * _TIME_UNITS_NS unit)) ∧
  (relative decimal (lower (strip at_)) = none → ∀ instant, fromisoformat (strip at_) = some instant →
    Dated round (timestamp_ns round instant))

/-- **What is accepted lies ahead**, and is in the calendar if the text is. -/
theorem parse_timer_at_ok {at_ : Str} {now due_at : Int} (h : parse_timer_at round lower decimal at_ now = .ok due_at) :
    now < due_at ∧ (InCalendar round lower decimal at_ now ↔ Dated round due_at) := by
  unfold parse_timer_at at h
  unfold InCalendar
  cases hrelative : relative decimal (lower (strip at_)) with
  | some p =>
    -- an offset, of at least one unit
    obtain ⟨digits, unit⟩ := p
    simp only [hrelative] at h
    by_cases hlong : 4300 < digits.length
    · rw [if_pos hlong] at h
      cases h
    rw [if_neg hlong] at h
    by_cases hzero : number decimal digits = 0
    · rw [if_pos hzero] at h
      cases h
    rw [if_neg hzero] at h
    cases h
    have hpos : 0 < (number decimal digits : Int) * _TIME_UNITS_NS unit :=
      Int.mul_pos (by omega) (_TIME_UNITS_NS_pos unit)
    refine ⟨by omega, fun hin => hin.1 _ _ rfl, fun hdated => ⟨fun _ _ heq => ?_, nofun⟩⟩
    cases heq
    exact hdated
  | none =>
    simp only [hrelative] at h
    cases hdate : fromisoformat (strip at_) with
    | none =>
      simp only [hdate] at h
      cases h
    | some instant =>
      -- a date, which is compared with the clock
      simp only [hdate] at h
      by_cases hpast : timestamp_ns round instant ≤ now
      · rw [if_pos hpast] at h
        cases h
      rw [if_neg hpast] at h
      cases h
      refine ⟨Int.not_le.mp hpast, fun hin => hin.2 rfl _ rfl, fun hdated => ⟨nofun, fun _ _ heq => ?_⟩⟩
      cases heq
      exact hdated

/-- The row that passes the checks is that of a pending timer, at the time that the text names. -/
theorem checked_ok {call : Call} {now : Int} {row : Row}
    (h : checked round lower decimal UserModel call now = some (.ok row)) :
    row.data.status = .pending ∧ parse_timer_at round lower decimal call.at_ now = .ok row.data.timer_at ∧
      row = ⟨row.user_id, ⟨.pending, none, none, row.data.timer_at, row.data.parent_chat_id, row.data.cancel_on⟩⟩ := by
  unfold checked at h
  split at h
  · cases h
  split at h
  · cases h
  cases hparse : parse_timer_at round lower decimal call.at_ now with
  | error text =>
    simp only [hparse] at h
    cases h
  | ok due_at =>
    simp only [hparse] at h
    split at h
    · cases h
    obtain ⟨model_id, -, h⟩ := Option.bind_eq_some_iff.mp h
    split at h
    · cases h
    split at h
    · cases h
    obtain ⟨user_id, -, hrow⟩ := Option.map_eq_some_iff.mp h
    cases hrow
    exact ⟨rfl, rfl, rfl⟩

/-- The call gets as far as its insert, and the insert is made. -/
def Inserted (call : Call) (now : Int) (timer : Str) (s : State) : Prop :=
  ∃ row, checked round lower decimal UserModel call now = some (.ok row) ∧ timer ∉ s.rows ∧ accepts timer row = true

/-- Either the timer is set, or nothing has changed; and a time that is stored lies ahead, and a date can be written for it. -/
structure AllOrNothing (now : Int) (timer : Str) (s : State) (r : Option Reply × State) : Prop where
  /-- The one row that is new is that of the pending timer, as it is told. -/
  set : ∀ at_ cancel_on, r.1 = some (.set at_ cancel_on) → timer ∉ s.rows ∧ ∃ row, row.data.status = .pending ∧
    row.data.cancel_on = cancel_on ∧ fromtimestamp round row.data.timer_at = some (microseconds round row.data.timer_at) ∧
    at_ = isoformat (microseconds round row.data.timer_at) ∧ r.2 = { s with rows := s.rows.set timer row }
  nothing : (∀ at_ cancel_on, r.1 ≠ some (.set at_ cancel_on)) → r.2 = s
  due : ∀ row, timer ∉ s.rows → r.2.rows.get? timer = some row → now < row.data.timer_at ∧ Dated round row.data.timer_at

/-- A call that makes no insert changes nothing. -/
theorem create_timer_of_not {call : Call} {now : Int} {timer : Str} {s : State}
    (h : ¬ Inserted round lower decimal UserModel accepts call now timer s) :
    (create_timer round lower decimal UserModel accepts call now timer s).2 = s ∧ ∀ at_ cancel_on,
      (create_timer round lower decimal UserModel accepts call now timer s).1 ≠ some (.set at_ cancel_on) := by
  unfold create_timer
  cases hchecked : checked round lower decimal UserModel call now with
  | none => exact ⟨rfl, nofun⟩
  | some outcome =>
    cases outcome with
    | error text => exact ⟨rfl, fun _ _ heq => nomatch heq⟩
    | ok row =>
      have hrefused : timer ∈ s.rows ∨ accepts timer row = false := by
        by_contra hnot
        obtain ⟨hnew, haccepts⟩ := not_or.mp hnot
        exact h ⟨row, hchecked, hnew, eq_true_of_ne_false haccepts⟩
      simp only [if_pos hrefused]
      exact ⟨trivial, nofun⟩

/-- What a call does that makes its insert. -/
theorem create_timer_inserted {call : Call} {now : Int} {timer : Str} {s : State} {row : Row}
    (hchecked : checked round lower decimal UserModel call now = some (.ok row)) (hnew : timer ∉ s.rows)
    (haccepts : accepts timer row = true) :
    create_timer round lower decimal UserModel accepts call now timer s =
      ((fromtimestamp round row.data.timer_at).map fun instant => .set (isoformat instant) row.data.cancel_on,
        { s with rows := s.rows.set timer row }) := by
  have hrefused : ¬ (timer ∈ s.rows ∨ accepts timer row = false) := by
    rw [haccepts]
    exact not_or.mpr ⟨hnew, nofun⟩
  have hrow : Timers.create_timer s timer row.user_id row.data.parent_chat_id row.data.timer_at row.data.cancel_on =
      { s with rows := s.rows.set timer row } := by
    rw [Timers.create_timer, if_neg hnew, (checked_ok round lower decimal UserModel hchecked).2.2]
  unfold create_timer
  simp only [hchecked, if_neg hrefused, hrow]

/-- **Setting a timer is all or nothing**, as long as a call that inserts its row does so for a time that a date can be
written for. -/
theorem allOrNothing_iff (call : Call) (now : Int) (timer : Str) (s : State) :
    AllOrNothing round now timer s (create_timer round lower decimal UserModel accepts call now timer s) ↔
      (Inserted round lower decimal UserModel accepts call now timer s → InCalendar round lower decimal call.at_ now) := by
  by_cases hinserted : Inserted round lower decimal UserModel accepts call now timer s
  · obtain ⟨row, hchecked, hnew, haccepts⟩ := id hinserted
    obtain ⟨hpending, hparse, -⟩ := checked_ok round lower decimal UserModel hchecked
    obtain ⟨hahead, hcalendar⟩ := parse_timer_at_ok round lower decimal hparse
    rw [create_timer_inserted round lower decimal UserModel accepts hchecked hnew haccepts]
    constructor
    · intro h _
      exact hcalendar.mpr (h.due row hnew (Dict.get?_set_self _ _ _)).2
    · intro h
      have hdated := hcalendar.mp (h hinserted)
      have hdate := fromtimestamp_of_dated round hdated
      rw [hdate]
      refine ⟨fun at_ cancel_on hset => ?_, fun hnot => ?_, fun stored _ hget => ?_⟩
      · simp only [Option.map_some, Option.some.injEq, Reply.set.injEq] at hset
        obtain ⟨rfl, rfl⟩ := hset
        exact ⟨hnew, row, hpending, rfl, hdate, rfl, rfl⟩
      · exact absurd (Option.map_some ..) (hnot (isoformat (microseconds round row.data.timer_at)) row.data.cancel_on)
      · simp only [Dict.get?_set_self, Option.some.injEq] at hget
        subst hget
        exact ⟨hahead, hdated⟩
  · obtain ⟨hsame, hunset⟩ := create_timer_of_not round lower decimal UserModel accepts hinserted
    refine ⟨fun _ h => absurd h hinserted, fun _ => ⟨fun at_ cancel_on hset => absurd hset (hunset at_ cancel_on),
      fun _ => hsame, fun row hnew hget => ?_⟩⟩
    rw [hsame, Dict.get?_eq_none_iff.mpr hnew] at hget
    cases hget

end

/-! ## A timer without a reply -/

/-- ASCII. -/
def asciiLower (s : Str) : Str := s.map fun c => if 65 ≤ c.val ∧ c.val ≤ 90 then ofChar (Char.ofNat (c.val.toNat + 32)) else c
def asciiDigit (c : CodePoint) : Option Nat := if c.isDigit = true then some (c.val.toNat - 48) else none

/-- A timer in ten million days. -/
def farOff : Call where
  prompt := py "Water the plants."
  at_ := py "9999999d"
  cancel_on := none
  user_data := Dict.empty.set (py "id") (.str (py "u1"))
  metadata := Dict.empty.set (py "model_id") (.str (py "m1"))
  parent_chat_id := py "c1"

def ownId (user_data : Obj) : Option Str := (Chats.field user_data (py "id")).text?

/-- **The timer is set, and the call raises.** -/
theorem unanswered_farOff :
    ¬ AllOrNothing id 1772820000000000000 (py "t1") initial
      (create_timer id asciiLower asciiDigit ownId (fun _ _ => true) farOff 1772820000000000000 (py "t1") initial) := by
  intro h
  have hreply : (create_timer id asciiLower asciiDigit ownId (fun _ _ => true) farOff 1772820000000000000 (py "t1")
      initial).1 = none := by decide
  have hrow : py "t1" ∈ (create_timer id asciiLower asciiDigit ownId (fun _ _ => true) farOff 1772820000000000000 (py "t1")
      initial).2.rows := by decide
  have hsame := h.nothing fun at_ cancel_on hset => by
    rw [hreply] at hset
    cases hset
  rw [hsame] at hrow
  exact Dict.not_mem_empty _ hrow

end Creation
end Timers
end MaterialOpenWebui
