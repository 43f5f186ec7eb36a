import MaterialOpenWebui.Js.Digits
import MaterialOpenWebui.Js.Value
import MaterialOpenWebui.Lib.AllSome
import MaterialOpenWebui.Lib.Run
import Mathlib.Data.List.Dedup

/-!
# `Schedule.Rule` — the rules of a schedule and their validator (`app/js/core/schedule.js`)

`validateRule` normalises one rule or refuses it with a reason; every refusal is an `Except` error with the
text the source throws. `Number(s)` of a text is the parameter `number`.

`Valid` is what evaluation relies on, and `valid_of_validateRule` that the validator ensures it: both times
parse, both dates are `YYYY-MM-DD` and every weekday is one of the seven.
-/

namespace MaterialOpenWebui
namespace Schedule
open Js JsValue

/-! ## Limits -/

def maxIdLength : Nat := 64
def maxNameLength : Nat := 80
def maxPatchKeys : Nat := 12

/-- Settings a rule is allowed to change. -/
def schedulable : List JsString :=
  [js "theme", js "language", js "funnyEn", js "funnyZh", js "narratorOn", js "appearanceProfile"]

def weekdays : List JsString :=
  [js "Sunday", js "Monday", js "Tuesday", js "Wednesday", js "Thursday", js "Friday", js "Saturday"]

/-! ## Texts -/

/-- The error that converting an object to a primitive throws. -/
def typeError : JsString := js "Cannot convert object to primitive value"

/-- `String(v)`, which may throw. -/
def toStrOrThrow (v : JsValue) : Except JsString JsString :=
  match v.toStr with
  | some s => .ok s
  | none => .error typeError

/-- `/[a-zA-Z0-9._-]/`. -/
def isIdUnit (u : UInt16) : Bool :=
  0x61 ≤ u && u ≤ 0x7a || 0x41 ≤ u && u ≤ 0x5a || 0x30 ≤ u && u ≤ 0x39 ||
    u == 0x2e || u == 0x5f || u == 0x2d

def colon : UInt16 := 0x3a
def hyphen : UInt16 := 0x2d

def twoDigits (a b : UInt16) : Option Nat := do
  let x ← digitValue a
  let y ← digitValue b
  return x * 10 + y

/-- `/^(\d{1,2}):(\d{2})$/`, with the two numbers. -/
def matchTime : JsString → Option (Nat × Nat)
  | [a, c, x, y] => do
    let hour ← digitValue a
    let minute ← twoDigits x y
    if c = colon then return (hour, minute) else none
  | [a, b, c, x, y] => do
    let hour ← twoDigits a b
    let minute ← twoDigits x y
    if c = colon then return (hour, minute) else none
  | _ => none

def parseTime (text : JsString) : Except JsString Nat :=
  match matchTime text with
  | none => .error (js "A time must be written as HH:MM, and \"" ++ text ++ js "\" is not.")
  | some (hour, minute) =>
    if hour > 23 ∨ minute > 59 then .error (js "\"" ++ text ++ js "\" is not a time that exists.")
    else .ok (hour * 60 + minute)

/-- `/^(\d{4})-(\d{2})-(\d{2})$/`, with the three numbers. -/
def matchDate : JsString → Option (Nat × Nat × Nat)
  | [a, b, c, d, h, m, n, i, x, y] => do
    let century ← twoDigits a b
    let rest ← twoDigits c d
    let month ← twoDigits m n
    let day ← twoDigits x y
    if h = hyphen ∧ i = hyphen then return (century * 100 + rest, month, day) else none
  | _ => none

/-- The text is checked as `String(text || '')` and returned as it came. -/
def parseDate (text : JsValue) : Except JsString JsValue := do
  let s ← toStrOrThrow (text.or (.str []))
  match matchDate s with
  | some _ => return text
  | none =>
    let shown ← toStrOrThrow text
    .error (js "A date must be written as YYYY-MM-DD, and \"" ++ shown ++ js "\" is not.")

/-! ## Rules -/

structure Rule where
  id : JsString
  name : JsString
  startTime : JsString
  endTime : JsString
  startDate : Option JsValue
  endDate : Option JsValue
  days : List Nat
  patch : List (JsString × JsValue)
  enabled : Bool

/-- `Number.isInteger(d) && 0 <= d && d <= 6`, with the number. -/
def weekdayOf : JsNumber → Option Nat
  | .finite d => if d.exp = 0 ∧ d.digits ≤ 6 ∧ (d.neg = true → d.digits = 0) then some d.digits else none
  | _ => none

/-- `[...new Set(days)].sort((a, b) => a - b)` of weekdays. -/
def sortedSet (days : List Nat) : List Nat := days.dedup.insertionSort (· ≤ ·)

/-- `Object.entries(v)`; the entries of an array are named by their positions. -/
def entriesOf : JsValue → List (JsString × JsValue)
  | .obj ps => ps
  | .arr vs => vs.zipIdx.map (fun v => (natText v.2, v.1))
  | _ => []

/-- `a < b` of two values that are texts, or convert to them. -/
def textBefore (a b : JsValue) : Except JsString Bool := do
  let s ← toStrOrThrow a
  let t ← toStrOrThrow b
  return decide (s < t)

section
variable (number : JsString → JsNumber)

/-- `startDate` or `endDate` of the input: `input.d ? parseDate(input.d) : null`. -/
def readDate (v : JsValue) : Except JsString (Option JsValue) :=
  if v.truthy then do
    let d ← parseDate v
    return some d
  else .ok none

/-- The weekdays of the input. -/
def readDays (id : JsString) (v : JsValue) : Except JsString (List Nat) :=
  let everyDay : List JsValue := (List.range 7).map (fun d => .num (.ofNat d))
  let list : Option (List JsValue) :=
    match v with
    | .undefined => some everyDay
    | .null => some everyDay
    | .arr vs => some vs
    | _ => none
  match list with
  | none => .error (js "Rule \"" ++ id ++ js "\" has days that are not a list.")
  | some vs =>
    match vs.mapM (toNumber number) with
    | none => .error typeError
    | some days =>
      if days = [] then
        .error (js "Rule \"" ++ id ++ js "\" applies to no days at all, so it could never run.")
      else
        match days.mapM weekdayOf with
        | none => .error (js "Rule \"" ++ id ++ js "\" has a weekday outside 0 (Sunday) to 6 (Saturday).")
        | some days => .ok (sortedSet days)

/-- The first setting named that a schedule may not change. -/
def refusedKey (patch : List (JsString × JsValue)) : Option JsString :=
  (patch.map Prod.fst).find? (fun k => k ∉ schedulable)

/-- The settings the rule changes. -/
def readPatch (id : JsString) (v : JsValue) : Except JsString (List (JsString × JsValue)) :=
  let given := if v.isObject then entriesOf v else []
  if given.length > maxPatchKeys then
    .error (js "Rule \"" ++ id ++ js "\" changes " ++ natText given.length ++
      js " settings, and the limit is 12.")
  else
    match refusedKey given with
    | some key => .error (js "Rule \"" ++ id ++ js "\" tries to change \"" ++ key ++
        js "\", which is not a setting a schedule may change.")
    | none =>
      if given = [] then .error (js "Rule \"" ++ id ++ js "\" changes nothing.") else .ok given

/-- The identifier of the input, or the reason it cannot be one. -/
def readId (index : Nat) (input : JsValue) : Except JsString JsString := do
  let text ← toStrOrThrow ((input.get (js "id")).or (.str []))
  let id := trim text
  if id = [] then
    .error (js "Rule " ++ natText index ++
      js " has no identifier. Identifiers are stable and are what history refers to.")
  else if id.length > maxIdLength then
    .error (js "Rule \"" ++ id ++ js "\" has an identifier longer than 64 characters.")
  else if id.all isIdUnit then return id
  else
    .error (js "Rule \"" ++ id ++
      js "\" has an identifier with characters outside letters, digits, dot, dash and underscore.")

/-- `input.t === undefined ? '00:00' : String(input.t)`. -/
def readTime (v : JsValue) : Except JsString JsString :=
  if v.isUndefined then .ok (js "00:00") else toStrOrThrow v

/-- `startDate && endDate && endDate < startDate`. -/
def endsBeforeStart (startDate endDate : Option JsValue) : Except JsString Bool :=
  match startDate, endDate with
  | some s, some e => textBefore e s
  | _, _ => .ok false

/-- Normalises one rule, or refuses it with a reason. -/
def validateRule (index : Nat) (input : JsValue) : Except JsString Rule :=
  if ¬ input.isObject then .error (js "Rule " ++ natText index ++ js " is not an object.")
  else do
    let id ← readId index input
    let name ← toStrOrThrow ((input.get (js "name")).or (.str id))
    let startTime ← readTime (input.get (js "startTime"))
    let endTime ← readTime (input.get (js "endTime"))
    let _ ← parseTime startTime
    let _ ← parseTime endTime
    let startDate ← readDate (input.get (js "startDate"))
    let endDate ← readDate (input.get (js "endDate"))
    let backwards ← endsBeforeStart startDate endDate
    if backwards then .error (js "Rule \"" ++ id ++ js "\" ends before it starts.")
    else do
      let days ← readDays number id (input.get (js "days"))
      let patch ← readPatch id (input.get (js "patch"))
      return { id := id
               name := name.take maxNameLength
               startTime := startTime
               endTime := endTime
               startDate := startDate
               endDate := endDate
               days := days
               patch := patch
               enabled := !(input.get (js "enabled")).isFalse }

end

/-! ## What the validator ensures -/

/-- The minute of the day a time names. -/
def timeOf (text : JsString) : Nat :=
  match parseTime text with
  | .ok n => n
  | .error _ => 0

/-- A text of the form `YYYY-MM-DD`. -/
def IsDate (d : JsValue) : Prop := ∃ s, d.toStr = some s ∧ ∃ p, matchDate s = some p

/-- What evaluating a rule relies on. -/
structure Valid (rule : Rule) : Prop where
  startTime : parseTime rule.startTime = .ok (timeOf rule.startTime)
  endTime : parseTime rule.endTime = .ok (timeOf rule.endTime)
  startDate : ∀ d, rule.startDate = some d → IsDate d
  endDate : ∀ d, rule.endDate = some d → IsDate d
  days : ∀ n ∈ rule.days, n < 7

theorem parseTime_timeOf {text : JsString} {n : Nat} (h : parseTime text = .ok n) :
    parseTime text = .ok (timeOf text) := by
  rw [timeOf, h]

/-- A time is a minute of the day. -/
theorem parseTime_lt {text : JsString} {n : Nat} (h : parseTime text = .ok n) : n < 1440 := by
  unfold parseTime at h
  split at h
  · cases h
  · split_ifs at h
    cases h
    omega

theorem isDate_of_readDate {v : JsValue} {r : Option JsValue} (h : readDate v = .ok r) :
    ∀ d, r = some d → IsDate d := by
  intro d hd
  subst hd
  unfold readDate at h
  by_cases htruthy : v.truthy = true
  swap
  · rw [if_neg htruthy] at h
    cases h
  rw [if_pos htruthy] at h
  obtain ⟨d', hd', h⟩ := Run.bind_ok h
  cases h
  unfold parseDate at hd'
  obtain ⟨s, hs, hd'⟩ := Run.bind_ok hd'
  split at hd'
  · rename_i p hp
    cases hd'
    -- the date is truthy, so it is its own text that matched
    rw [JsValue.or, if_pos htruthy] at hs
    unfold toStrOrThrow at hs
    split at hs
    · rename_i t ht
      cases hs
      exact ⟨s, ht, p, hp⟩
    · cases hs
  · obtain ⟨shown, -, hd'⟩ := Run.bind_ok hd'
    cases hd'

theorem weekdayOf_lt {n : JsNumber} {d : Nat} (h : weekdayOf n = some d) : d < 7 := by
  unfold weekdayOf at h
  split at h
  · split_ifs at h with hd
    cases h
    omega
  · cases h

theorem readDays_lt {number : JsString → JsNumber} {id : JsString} {v : JsValue} {days : List Nat}
    (h : readDays number id v = .ok days) : ∀ n ∈ days, n < 7 := by
  unfold readDays at h
  simp only at h
  split at h
  · cases h
  · split at h
    · cases h
    · split_ifs at h
      split at h
      · cases h
      · rename_i ns hns
        cases h
        intro n hn
        have hmem : n ∈ ns := List.mem_dedup.mp ((List.mem_insertionSort _).mp hn)
        obtain ⟨x, -, hx⟩ := (AllSome.mem_of_mapM hns).2 n hmem
        exact weekdayOf_lt hx

/-- What an accepted value and the rule made of it have to do with each other. -/
structure Normalises (number : JsString → JsNumber) (index : Nat) (input : JsValue) (rule : Rule) : Prop where
  object : input.isObject = true
  id : readId index input = .ok rule.id
  name : ∃ name, toStrOrThrow ((input.get (js "name")).or (.str rule.id)) = .ok name ∧ rule.name = name.take maxNameLength
  startTime : readTime (input.get (js "startTime")) = .ok rule.startTime
  endTime : readTime (input.get (js "endTime")) = .ok rule.endTime
  start : parseTime rule.startTime = .ok (timeOf rule.startTime)
  finish : parseTime rule.endTime = .ok (timeOf rule.endTime)
  startDate : readDate (input.get (js "startDate")) = .ok rule.startDate
  endDate : readDate (input.get (js "endDate")) = .ok rule.endDate
  forwards : endsBeforeStart rule.startDate rule.endDate = .ok false
  days : readDays number rule.id (input.get (js "days")) = .ok rule.days
  patch : readPatch rule.id (input.get (js "patch")) = .ok rule.patch
  enabled : rule.enabled = !(input.get (js "enabled")).isFalse

theorem normalises_of_validateRule {number : JsString → JsNumber} {index : Nat} {input : JsValue} {rule : Rule}
    (h : validateRule number index input = .ok rule) : Normalises number index input rule := by
  unfold validateRule at h
  split_ifs at h with hobject
  obtain ⟨id, hid, h⟩ := Run.bind_ok h
  obtain ⟨name, hname, h⟩ := Run.bind_ok h
  obtain ⟨startTime, hstartTime, h⟩ := Run.bind_ok h
  obtain ⟨endTime, hendTime, h⟩ := Run.bind_ok h
  obtain ⟨start, hstart, h⟩ := Run.bind_ok h
  obtain ⟨finish, hfinish, h⟩ := Run.bind_ok h
  obtain ⟨startDate, hstartDate, h⟩ := Run.bind_ok h
  obtain ⟨endDate, hendDate, h⟩ := Run.bind_ok h
  obtain ⟨backwards, hbackwards, h⟩ := Run.bind_ok h
  split_ifs at h with hforwards
  obtain ⟨days, hdays, h⟩ := Run.bind_ok h
  obtain ⟨patch, hpatch, h⟩ := Run.bind_ok h
  cases h
  rw [Bool.not_eq_true] at hforwards
  subst hforwards
  exact ⟨hobject, hid, ⟨name, hname, rfl⟩, hstartTime, hendTime, parseTime_timeOf hstart, parseTime_timeOf hfinish,
    hstartDate, hendDate, hbackwards, hdays, hpatch, rfl⟩

/-- What an identifier is. The position of the rule matters only to what is said of one that is refused. -/
theorem readId_eq_ok_iff {index : Nat} {input : JsValue} {id : JsString} : readId index input = .ok id ↔
    ∃ text, toStrOrThrow ((input.get (js "id")).or (.str [])) = .ok text ∧ trim text = id ∧
      id ≠ [] ∧ id.length ≤ maxIdLength ∧ id.all isIdUnit = true := by
  unfold readId
  cases htext : toStrOrThrow ((input.get (js "id")).or (.str [])) with
  | error e =>
    constructor
    · intro h
      cases h
    · rintro ⟨text, h, -⟩
      cases h
  | ok text =>
    simp only [bind, Except.bind]
    constructor
    · intro h
      split_ifs at h with hempty hlength hunits
      cases h
      exact ⟨text, rfl, rfl, hempty, Nat.le_of_not_lt hlength, hunits⟩
    · rintro ⟨_, heq, rfl, hempty, hlength, hunits⟩
      cases heq
      rw [if_neg hempty, if_neg (Nat.not_lt.mpr hlength), if_pos hunits]
      rfl

theorem validateRule_of_normalises {number : JsString → JsNumber} {i j : Nat} {input : JsValue} {rule : Rule}
    (h : Normalises number i input rule) : validateRule number j input = .ok rule := by
  obtain ⟨name, hname, htake⟩ := h.name
  unfold validateRule
  rw [if_neg (not_not.mpr h.object), readId_eq_ok_iff.mpr (readId_eq_ok_iff.mp h.id)]
  show (toStrOrThrow ((input.get (js "name")).or (.str rule.id)) >>= _) = _
  rw [hname, h.startTime, h.endTime]
  show (parseTime rule.startTime >>= _) = _
  rw [h.start, h.finish, h.startDate, h.endDate]
  show (endsBeforeStart rule.startDate rule.endDate >>= _) = _
  rw [h.forwards]
  show (readDays number rule.id (input.get (js "days")) >>= _) = _
  rw [h.days, h.patch]
  show Except.ok _ = _
  rw [← htake, ← h.enabled]

/-- **An accepted rule is valid.** -/
theorem valid_of_validateRule {number : JsString → JsNumber} {index : Nat} {input : JsValue}
    {rule : Rule} (h : validateRule number index input = .ok rule) : Valid rule := by
  have hn := normalises_of_validateRule h
  exact ⟨hn.start, hn.finish, isDate_of_readDate hn.startDate, isDate_of_readDate hn.endDate, readDays_lt hn.days⟩

/-- The settings of an accepted rule are those that were given. -/
theorem patch_of_readPatch {id : JsString} {v : JsValue} {patch : List (JsString × JsValue)}
    (h : readPatch id v = .ok patch) :
    v = .obj patch ∧ patch ≠ [] ∧ patch.length ≤ maxPatchKeys ∧ refusedKey patch = none := by
  obtain ⟨given, hgiven⟩ : ∃ given, given = if v.isObject then entriesOf v else [] := ⟨_, rfl⟩
  unfold readPatch at h
  simp only [← hgiven] at h
  split at h
  · cases h
  rename_i hlength
  split at h
  · cases h
  · rename_i hrefused
    split_ifs at h with hempty
    cases h
    refine ⟨?_, hempty, Nat.le_of_not_lt hlength, hrefused⟩
    cases v with
    | obj ps =>
      rw [hgiven]
      rfl
    | arr vs =>
      -- the positions of a list are no settings
      cases vs with
      | nil => exact absurd hgiven hempty
      | cons v vs =>
        have hzero : js "0" ∈ patch.map Prod.fst := by
          have htext : js "0" = natText 0 := by decide
          rw [hgiven, htext]
          simp [entriesOf, JsValue.isObject]
        exact absurd (decide_eq_true (by decide : js "0" ∉ schedulable)) (List.find?_eq_none.mp hrefused _ hzero)
    | _ => exact absurd hgiven hempty

end Schedule
end MaterialOpenWebui
