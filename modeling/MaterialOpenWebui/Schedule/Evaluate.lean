import MaterialOpenWebui.Lib.Calendar
import MaterialOpenWebui.Schedule.Rule

/-!
# `Schedule.Evaluate` — whether a rule is in force (`app/js/core/schedule.js`)

`evaluate` reads the wall clock of a zone at an instant and decides from the reading alone. A zone is its
offset from UTC at each instant, in milliseconds: what `Intl.DateTimeFormat` computes the reading from. An
instant is a time value; one outside the range of `Date` throws.
-/

namespace MaterialOpenWebui
namespace Schedule
open Js JsValue

/-! ## Dates as text -/

/-- The year `Intl` shows: before year 1 it is counted backwards from 1 BC. -/
def intlYear (y : Int) : Nat := (if y ≤ 0 then 1 - y else y).toNat

def intlDate (d : Int) : JsString :=
  natText (intlYear (Calendar.year d)) ++ js "-" ++ padded 2 (Calendar.month d) ++ js "-" ++
    padded 2 (Calendar.day d)

/-- The year of `toISOString`: four digits, or a sign and six. -/
def isoYear (y : Int) : JsString :=
  if 0 ≤ y ∧ y ≤ 9999 then padded 4 y.toNat
  else if y < 0 then js "-" ++ padded 6 y.natAbs
  else js "+" ++ padded 6 y.natAbs

/-- `d.toISOString().slice(0, 10)`. -/
def isoDate (d : Int) : JsString :=
  (isoYear (Calendar.year d) ++ js "-" ++ padded 2 (Calendar.month d) ++ js "-" ++
    padded 2 (Calendar.day d)).take 10

/-! ## The clock -/

def minuteMs : Int := 60000
def dayMs : Int := 86400000

/-- The largest time value of a `Date`. -/
def maxTime : Int := 8640000000000000

/-- The error that an invalid date throws. -/
def invalidTime : JsString := js "Invalid time value"

structure Reading where
  year : Nat
  month : Nat
  day : Nat
  hour : Nat
  minute : Nat
  weekday : Nat
  minutes : Nat
  date : JsString

/-- What the clock of the zone shows, as milliseconds of a day count. -/
def wall (offset : Int → Int) (instant : Int) : Int := instant + offset instant

/-- The number of the local day. -/
def localDay (offset : Int → Int) (instant : Int) : Int := wall offset instant / dayMs

/-- The reading of a wall clock. -/
def reading (w : Int) : Reading :=
  let d := w / dayMs
  let minutes := (w % dayMs / minuteMs).toNat
  { year := intlYear (Calendar.year d)
    month := Calendar.month d
    day := Calendar.day d
    hour := minutes / 60
    minute := minutes % 60
    weekday := Calendar.weekday d
    minutes := minutes / 60 * 60 + minutes % 60
    date := intlDate d }

/-- The wall-clock reading in a zone at a given instant. -/
def wallClock (offset : Int → Int) (instant : Int) : Except JsString Reading :=
  if instant < -maxTime ∨ maxTime < instant then .error invalidTime
  else .ok (reading (wall offset instant))

structure CalendarDay where
  year : Int
  month : Nat
  day : Nat
  weekday : Nat
  date : JsString

/-- `Date.UTC(year, month - 1, day)`: years 0 to 99 are taken as 1900 to 1999. -/
def dateUTC (year month day : Nat) : Int :=
  Calendar.dayNumber (if year ≤ 99 then 1900 + year else year) month day * dayMs

/-- Calendar arithmetic on a Y-M-D, with no zone involved. -/
def shiftDate (year month day : Nat) (byDays : Int) : Except JsString CalendarDay :=
  let t := dateUTC year month day + byDays * dayMs
  if dateUTC year month day < -maxTime ∨ maxTime < dateUTC year month day ∨ t < -maxTime ∨ maxTime < t then
    .error invalidTime
  else
    let d := t / dayMs
    .ok { year := Calendar.year d
          month := Calendar.month d
          day := Calendar.day d
          weekday := Calendar.weekday d
          date := isoDate d }

/-! ## The decision -/

inductive Verdict where
  | active (startedOn : JsString)
  | inactive (reason : JsString)

/-- The day of the reading, as the day a window began. -/
def Reading.today (now : Reading) : CalendarDay :=
  { year := now.year, month := now.month, day := now.day, weekday := now.weekday, date := now.date }

/-- The day that the window the reading is in began on; `none` outside the window. Equal times mean the
    whole day, and a window that crosses midnight belongs to the day it started on. -/
def startDay (start finish : Nat) (now : Reading) : Except JsString (Option CalendarDay) :=
  if start = finish then .ok (some now.today)
  else if ¬ finish < start then
    if now.minutes < start ∨ finish ≤ now.minutes then .ok none else .ok (some now.today)
  else if start ≤ now.minutes then .ok (some now.today)
  -- the morning half: the window began yesterday
  else if now.minutes < finish then (shiftDate now.year now.month now.day (-1)).map some
  else .ok none

/-- `rule.startDate && date < rule.startDate`. -/
def beforeStart (rule : Rule) (date : JsString) : Except JsString Bool :=
  match rule.startDate with
  | none => .ok false
  | some d => textBefore (.str date) d

/-- `rule.endDate && date > rule.endDate`. -/
def afterEnd (rule : Rule) (date : JsString) : Except JsString Bool :=
  match rule.endDate with
  | none => .ok false
  | some d => textBefore d (.str date)

/-- The weekday and date checks, which apply to the day the window began. -/
def judge (rule : Rule) (startedOn : CalendarDay) : Except JsString Verdict :=
  if startedOn.weekday ∉ rule.days then
    .ok (.inactive (js "the window would have begun on " ++ weekdays.getD startedOn.weekday [] ++
      js ", which this rule does not cover"))
  else do
    let early ← beforeStart rule startedOn.date
    if early then return .inactive (js "before the start date")
    else do
      let late ← afterEnd rule startedOn.date
      if late then return .inactive (js "after the end date")
      else return .active startedOn.date

/-- Whether a rule is in force at an instant, and which local day its window started on. -/
def evaluate (rule : Rule) (offset : Int → Int) (instant : Int) : Except JsString Verdict :=
  if rule.enabled = false then .ok (.inactive (js "disabled"))
  else do
    -- from here on only the reading counts, not the instant
    let now ← wallClock offset instant
    let start ← parseTime rule.startTime
    let finish ← parseTime rule.endTime
    let began ← startDay start finish now
    match began with
    | none => return .inactive (js "outside the window")
    | some startedOn => judge rule startedOn

end Schedule
end MaterialOpenWebui
