import MaterialOpenWebui.Automations.Recurrence
import MaterialOpenWebui.Lib.TwoClocks
import MaterialOpenWebui.Py.Instant
import MaterialOpenWebui.Py.Numeral
import MaterialOpenWebui.Py.Value

/-!
# `CalendarEvents.Recurring` — the instances of a recurring event (`backend/open_webui/utils/calendar.py`)

`expand_recurring_event` reads the bounds of the range and the start of the event from the clock of the server, to the
microsecond, and goes through the readings that the rule yields from a day before the first bound up to the second one. Each
reading it then takes for an instant of the user's clock, and leaves out what comes before the range.

So an instance is told to be before the end by the clock of the server, and to be in the range by that of the user. Where the
two agree on each bound the ranges split (`expands_iff`); five hours apart, an instance is returned for a range that ends
before it (`expanded_twice`).
-/

namespace MaterialOpenWebui
namespace CalendarEvents
open Py

/-! ## The code -/

/-- An event as `model_dump` gives it, or an instance of it. -/
structure EventDict where
  id : Str
  rrule : Option Str
  start_at : Int
  end_at : Option Int
  instance_id : Option Str
  /-- The other items, which an instance takes over. -/
  others : Obj

/-- `timedelta(days=1)`. -/
def oneDay : Int := 86400000000

/-- The instance of an event at a start. -/
def instanceAt (event_dict : EventDict) (instance_start_ns : Int) : EventDict :=
  let duration_ns := (event_dict.end_at.filter (· ≠ 0)).map (· - event_dict.start_at)
  { event_dict with
    start_at := instance_start_ns
    end_at := (duration_ns.filter (· ≠ 0)).map (instance_start_ns + ·)
    instance_id := some (event_dict.id ++ py "_" ++ (intNumeral instance_start_ns).text) }

section
variable (settings : Automations.Settings) (round : Rat → Rat)

/-- What the clock of the server shows, as `datetime.fromtimestamp` reads it. -/
def reading (ns : Int) : Int := settings.server.wall (microseconds round ns)

/-- `datetime.fromtimestamp`: it raises where a `datetime` has no year for it. -/
def fromtimestamp (ns : Int) : Option Int :=
  if InYears (reading settings round ns) then some (reading settings round ns) else none

/-- The start of the instance for a reading, in the zone of the user or else of the server. -/
def instance_start_ns (tz : Option Str) (dt : Int) : Int := timestamp_ns round ((settings.zone tz).instantOf dt)

/-- The loop over the occurrences. Each is later than the one before, so there are no more of them than microseconds. -/
def scan (rule : settings.dateutil.Rule) (event_dict : EventDict) (tz : Option Str) (range_start_ns range_end_dt : Int)
    (max_instances : Nat) : Nat → List EventDict → Option Int → List EventDict
  | 0, instances, _ => instances
  | _ + 1, instances, none => instances
  | fuel + 1, instances, some dt =>
    if dt < range_end_dt ∧ instances.length < max_instances then
      let start := instance_start_ns settings round tz dt
      let instances := if range_start_ns ≤ start then instances ++ [instanceAt event_dict start] else instances
      scan rule event_dict tz range_start_ns range_end_dt max_instances fuel instances (settings.dateutil.after rule dt)
    else instances

variable {settings round} (rule : settings.dateutil.Rule)

/-- The occurrences before a reading, one after the other. -/
def readings (range_end_dt : Int) : Nat → Option Int → List Int
  | 0, _ => []
  | _ + 1, none => []
  | fuel + 1, some dt =>
    if dt < range_end_dt then dt :: readings range_end_dt fuel (settings.dateutil.after rule dt) else []

variable (settings round)

/-- The readings whose instances are returned for a range, the cap apart. -/
def returned (tz : Option Str) (a c : Int) : List Int :=
  (readings rule (reading settings round c) (reading settings round c - (reading settings round a - oneDay) + 1).toNat
    (settings.dateutil.after rule (reading settings round a - oneDay - 1))).filter fun dt =>
      a ≤ instance_start_ns settings round tz dt

variable {settings round rule}

/-- The clock of the server and that of the user agree on the bounds, for each reading that the rule yields; and the start of
the event, where it is to be returned, is what the user's clock makes of one of them. -/
structure Consistent (settings : Automations.Settings) (round : Rat → Rat) (event_dict : EventDict)
    (rule : settings.dateutil.Rule) (tz : Option Str) (a b c : Int) : Prop where
  bounds : TwoClocks.Agree (settings.dateutil.occurs rule) (fun t => reading settings round t - oneDay)
    (reading settings round) (instance_start_ns settings round tz) a b c
  own : settings.dateutil.occurs rule (reading settings round event_dict.start_at) → a ≤ event_dict.start_at →
    event_dict.start_at < c → ∃ dt, settings.dateutil.occurs rule dt ∧ reading settings round a - oneDay ≤ dt ∧
      dt < reading settings round c ∧ instance_start_ns settings round tz dt = event_dict.start_at

end

end CalendarEvents
end MaterialOpenWebui
