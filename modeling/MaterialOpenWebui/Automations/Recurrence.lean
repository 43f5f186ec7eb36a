import MaterialOpenWebui.Lib.Dict
import MaterialOpenWebui.Lib.Pieces
import MaterialOpenWebui.Lib.StableSort
import MaterialOpenWebui.Lib.WallClock
import MaterialOpenWebui.Py.Lines
import Mathlib.Order.Bounds.Basic

/-!
# `Automations.Recurrence` — when an automation runs next (`backend/open_webui/utils/automations.py`)

An automation has a recurrence rule, and runs at the instants at which the clock of its user's time zone shows what the rule
yields. A poll claims those that are due and gives each its next run (`claim_due` in `models/automations.py`).

Instants are microseconds since 1970, and readings of a clock are too. What `int(dt.timestamp() * 1_000_000_000)` rounds
is left out: rules yield whole seconds, for which the product is exact until the year 2116.
-/

namespace MaterialOpenWebui
namespace Automations
open Py

/-! ## Rules -/

/-- What `dateutil` does: it reads a rule, with the reading that it starts at, and dates; and `after` is the least
occurrence of a rule strictly after a reading. -/
structure Dateutil where
  Rule : Type
  rrulestr : Str → Option Int → Option Rule
  parse : Str → Option Int
  occurs : Rule → Int → Prop
  after : Rule → Int → Option Int
  after_least : ∀ rule dt d, after rule dt = some d → IsLeast {x | occurs rule x ∧ dt < x} d
  after_none : ∀ rule dt, after rule dt = none → ∀ x, occurs rule x → x ≤ dt

/-- Where the program runs: its libraries, the zones it knows, the zone of the server, and what Unicode and the language
have as upper case and as integers. -/
structure Settings where
  dateutil : Dateutil
  zoneInfo : Str → Option WallClock.Zone
  server : WallClock.Zone
  upper : Str → Str
  parseInt : Str → Option Int

namespace Settings
variable (settings : Settings)

/-- The zone that a name resolves to, or that of the server. -/
def zone (tz : Option Str) : WallClock.Zone :=
  match tz with
  | none => settings.server
  | some name => if name = [] then settings.server else (settings.zoneInfo name).getD settings.server

end Settings

def second : Int := 1000000

/-- The longest `timedelta`, in days. -/
def maxDays : Int := 999999999

/-- The reading `2000-01-01 00:00`. -/
def epoch2000 : Int := 946684800 * second

section
variable (settings : Settings)

/-- The parts `KEY=VALUE` of a rule. -/
def ruleParts (raw : Str) : Dict Str Str :=
  Dict.ofList ((raw.splitOn (ofChar ';')).filterMap fun part =>
    (splitFirst (ofChar '=') part).map fun p => (settings.upper p.1, p.2))

/-- The step of a frequency below a day; it raises when it is longer than a `timedelta` can be. -/
def stepOf (freq : Str) (interval : Int) : Option Int :=
  let step := interval * (if freq = py "SECONDLY" then 1 else if freq = py "MINUTELY" then 60 else 3600) * second
  if step / (86400 * second) ≤ maxDays then some step else none

/-- The occurrences that a rule has gone through since it started. -/
def emitted (parts : Dict Str Str) (start step anchor : Int) : Int :=
  let passed := if start < anchor then (anchor - start) / step else 0
  let each (key : Str) : Int :=
    match parts.get? key with
    | some v => (v.splitOn (ofChar ',')).length
    | none => 1
  passed * each (py "BYMINUTE") * each (py "BYSECOND")

/-- A rule of a frequency below a day. -/
def _parse_subdaily (s : Str) (lines : List Str) (parts : Dict Str Str) (freq : Str) (anchor : Int) :
    Option settings.dateutil.Rule :=
  let isStart (line : Str) : Bool := startsWith (py "DTSTART") (settings.upper line)
  let kept := join (py "\n") (lines.filter fun line => !isStart line)
  let rule := if kept = [] then s else kept
  let dtstart := (lines.find? isStart).map (afterLast (ofChar ':'))
  (settings.parseInt ((parts.get? (py "INTERVAL")).getD (py "1"))).bind fun interval =>
    if interval < 1 then none
    else
      (stepOf freq interval).bind fun step =>
        let aligned := settings.dateutil.rrulestr rule (some (epoch2000 + (anchor - epoch2000) / step * step))
        match dtstart with
        | none => aligned
        | some dtstart =>
          if dtstart = [] then aligned
          else
            (settings.dateutil.parse dtstart).bind fun start =>
              if emitted parts start step anchor ≤ 100000 then settings.dateutil.rrulestr s none else aligned

def _parse_rule (s : Str) (now : Int) : Option settings.dateutil.Rule :=
  let lines := splitlines s
  let isRule (line : Str) : Bool := startsWith (py "RRULE:") (settings.upper line)
  if contains (py "EXRULE") (settings.upper s) then none
  else if 1 < lines.countP isRule then none
  else
    let rrule_line := (lines.find? isRule).getD s
    let raw := if isRule rrule_line then (splitFirst (ofChar ':') rrule_line).map Prod.snd else some rrule_line
    raw.bind fun raw =>
      let parts := ruleParts settings raw
      let freq := (parts.get? (py "FREQ")).getD []
      if freq = py "SECONDLY" ∨ freq = py "MINUTELY" ∨ freq = py "HOURLY" then
        _parse_subdaily settings s lines parts freq now
      else settings.dateutil.rrulestr s none

/-! ## Next runs -/

/-- The instant that a reading in a zone stands for, in nanoseconds. -/
def timestamp_ns (zone : WallClock.Zone) (dt : Int) : Int := zone.instantOf dt * 1000

/-- The next run after an instant, if the rule has one; it raises when the rule is not accepted. -/
def next_run_ns (s : Str) (tz : Option Str) (now : Int) : Option (Option Int) :=
  let zone := settings.zone tz
  (_parse_rule settings s (zone.wall now)).map fun rule =>
    (settings.dateutil.after rule (zone.wall now)).map (timestamp_ns zone)

/-- Occurrence after occurrence, from a reading on. -/
def occurrences (rule : settings.dateutil.Rule) : Nat → Int → List Int
  | 0, _ => []
  | n + 1, dt =>
    match settings.dateutil.after rule dt with
    | none => []
    | some d => d :: occurrences rule n d

def next_n_runs_ns (s : Str) (n : Nat) (tz : Option Str) (now : Int) : Option (List Int) :=
  let zone := settings.zone tz
  (_parse_rule settings s (zone.wall now)).map fun rule =>
    (occurrences settings rule n (zone.wall now)).map (timestamp_ns zone)

/-! ## Claiming -/

structure Automation where
  id : Str
  user_id : Str
  rrule : Str
  is_active : Bool
  next_run_at : Option Int
  last_run_at : Option Int

def Automation.due (now_ns : Int) (row : Automation) : Bool :=
  row.is_active && row.next_run_at.any fun ns => ns ≤ now_ns

/-- The rows that are claimed: those that are due and that no other claim holds, the earliest first. -/
def claimed (rows : List Automation) (free : Automation → Bool) (now_ns : Int) (limit : Nat) : List Automation :=
  (StableSort.sortOn (fun row : Automation => row.next_run_at.getD 0)
    (rows.filter fun row => row.due now_ns && free row)).take limit

/-- A claimed row, with the run after the instant at which it is computed. -/
def reschedule (timezone : Str → Option Str) (clock : Automation → Int) (now_ns : Int) (row : Automation) :
    Option Automation :=
  (next_run_ns settings row.rrule (timezone row.user_id) (clock row)).map fun next_run_at =>
    { row with last_run_at := some now_ns, next_run_at }

/-- The rows that a claim leaves: nothing is written when a rule is not accepted. -/
def claim_due (timezone : Str → Option Str) (clock : Automation → Int) (free : Automation → Bool)
    (rows : List Automation) (now_ns : Int) (limit : Nat) : Option (List Automation) :=
  (claimed rows free now_ns limit).mapM (reschedule settings timezone clock now_ns)

end

end Automations
end MaterialOpenWebui
