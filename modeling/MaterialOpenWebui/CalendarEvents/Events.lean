import MaterialOpenWebui.Lib.Dict
import MaterialOpenWebui.Lib.Run
import MaterialOpenWebui.Py.Value

/-!
# `CalendarEvents.Events` — events and their alerts (`backend/open_webui/models/calendar.py`, `utils/automations.py`)

A poll selects the events of a window of time from the database, keeps those that are within their own alert window, and
alerts each that has no `alerted_at` in its metadata, which it then writes there. The metadata is what the requests send: an
update adds its items to those that are there.

The attendees, and the times of creation and update, are left out: nothing here reads them. The products of a float are taken
exactly.
-/

namespace MaterialOpenWebui
namespace CalendarEvents
open Py

/-! ## Events -/

structure CalendarEvent where
  calendar_id : Str
  user_id : Str
  title : Str
  description : Option Str
  start_at : Int
  end_at : Option Int
  all_day : Bool
  rrule : Option Str
  color : Option Str
  location : Option Str
  data : Option Obj
  meta_ : Option Obj
  is_cancelled : Bool

structure CalendarEventForm where
  calendar_id : Str
  title : Str
  description : Option Str
  start_at : Int
  end_at : Option Int
  all_day : Bool
  rrule : Option Str
  color : Option Str
  location : Option Str
  data : Option Obj
  meta_ : Option Obj

/-- A field of an update: it may not be set, or be null. -/
abbrev Field (α : Type) := Option (Option α)

structure CalendarEventUpdateForm where
  calendar_id : Field Str
  title : Field Str
  description : Field Str
  start_at : Field Int
  end_at : Field Int
  all_day : Field Bool
  rrule : Field Str
  color : Field Str
  location : Field Str
  data : Field Obj
  meta_ : Field Obj
  is_cancelled : Field Bool

/-- The events by their ids. -/
abbrev Events := Dict Str CalendarEvent

def insert_new_event (user_id : Str) (form_data : CalendarEventForm) : CalendarEvent where
  calendar_id := form_data.calendar_id
  user_id := user_id
  title := form_data.title
  description := form_data.description
  start_at := form_data.start_at
  end_at := form_data.end_at
  all_day := form_data.all_day
  rrule := form_data.rrule
  color := form_data.color
  location := form_data.location
  data := form_data.data
  meta_ := form_data.meta_
  is_cancelled := false

/-- A column that may not be null: the commit of a null fails. -/
def column {α : Type} (field : Field α) (old : α) : Option α :=
  match field with
  | none => some old
  | some value => value

/-- `{**(old or {}), **new}`, if there is a new one. -/
def merge (field : Field Obj) (old : Option Obj) : Option Obj :=
  match field with
  | some (some new) => some ((old.getD Dict.empty).update new)
  | _ => old

/-- What an update makes of an event, unless its commit fails. -/
def update_event (form_data : CalendarEventUpdateForm) (event : CalendarEvent) : Option CalendarEvent :=
  (column form_data.calendar_id event.calendar_id).bind fun calendar_id =>
  (column form_data.title event.title).bind fun title =>
  (column form_data.start_at event.start_at).bind fun start_at =>
  (column form_data.all_day event.all_day).bind fun all_day =>
  (column form_data.is_cancelled event.is_cancelled).bind fun is_cancelled =>
  some
    { event with
      calendar_id := calendar_id
      title := title
      description := form_data.description.getD event.description
      start_at := start_at
      end_at := form_data.end_at.getD event.end_at
      all_day := all_day
      rrule := form_data.rrule.getD event.rrule
      color := form_data.color.getD event.color
      location := form_data.location.getD event.location
      is_cancelled := is_cancelled
      data := merge form_data.data event.data
      meta_ := merge form_data.meta_ event.meta_ }

/-- The table after an update, which is as it was if there is no event or the commit fails. -/
def update_event_by_id (events : Events) (id : Str) (form_data : CalendarEventUpdateForm) : Events :=
  match (events.get? id).bind (update_event form_data) with
  | some event => events.set id event
  | none => events

/-! ## Alert windows -/

structure Config where
  CALENDAR_ALERT_LOOKAHEAD_MINUTES : Int
  SCHEDULER_POLL_INTERVAL : Int

def Config.default_lookahead_ns (config : Config) : Int := config.CALENDAR_ALERT_LOOKAHEAD_MINUTES * 60 * 1000000000

def Config.grace_ns (config : Config) : Int := (config.SCHEDULER_POLL_INTERVAL + 5) * 1000000000

/-- What the metadata has under a key. -/
def metaGet (meta_ : Option Obj) (key : Str) : Val := ((meta_.bind fun m => m.get? key)).getD .none

def alert_minutes (event : CalendarEvent) : Val := metaGet event.meta_ (py "alert_minutes")

/-- `event.meta and event.meta.get('alerted_at')`. -/
def alerted (event : CalendarEvent) : Bool := (metaGet event.meta_ (py "alerted_at")).truthy

/-- How long before its start an event is alerted, if it is. What is neither null nor a number cannot be compared with `0`. -/
def lookahead (default_lookahead_ns : Int) (minutes : Val) : Option (Option Rat) :=
  if minutes.isNone then some (some default_lookahead_ns)
  else minutes.number?.map fun m => if m < 0 then none else some (m * 60 * 1000000000)

/-- The rows that the database selects. -/
def selected (now_ns default_lookahead_ns grace_ns : Int) (event : CalendarEvent) : Bool :=
  event.is_cancelled = false ∧ now_ns - grace_ns ≤ event.start_at ∧
    event.start_at ≤ now_ns + max default_lookahead_ns (60 * 60 * 1000000000)

/-- Whether an event is within its own window. -/
def within (now_ns : Int) (event : CalendarEvent) : Option Rat → Bool
  | some event_lookahead_ns => (event.start_at : Rat) ≤ now_ns + event_lookahead_ns
  | none => false

/-- The events that are to be alerted, or an exception. -/
def get_upcoming_events (events : Events) (now_ns default_lookahead_ns grace_ns : Int) :
    Option (List (Str × CalendarEvent)) :=
  let rows := events.items.filter fun row => selected now_ns default_lookahead_ns grace_ns row.2
  if ∀ row ∈ rows, (lookahead default_lookahead_ns (alert_minutes row.2)).isSome then
    some (rows.filter fun row => within now_ns row.2 (lookahead default_lookahead_ns (alert_minutes row.2)).join)
  else none

/-! ## Polls -/

/-- What is sent to the room of the user. -/
structure Alert where
  user_id : Str
  event_id : Str
  title : Str
  description : Str
  start_at : Int
  minutes_until : Int
  calendar_id : Str
  location : Str

def alertOf (now_ns : Int) (id : Str) (event : CalendarEvent) : Alert where
  user_id := event.user_id
  event_id := id
  title := event.title
  description := event.description.getD []
  start_at := event.start_at
  minutes_until := max 0 ((event.start_at - now_ns).tdiv (60 * 1000000000))
  calendar_id := event.calendar_id
  location := event.location.getD []

/-- `CalendarEventUpdateForm(meta={'alerted_at': now_ns})`. -/
def markForm (now_ns : Int) : CalendarEventUpdateForm :=
  ⟨none, none, none, none, none, none, none, none, none, none,
    some (some (Dict.ofList [(py "alerted_at", .int now_ns)])), none⟩

/-- One event: it is alerted and marked, unless it has been. -/
def alertEvent (now_ns : Int) (acc : Events × List Alert) (row : Str × CalendarEvent) : Events × List Alert :=
  if alerted row.2 then acc
  else (update_event_by_id acc.1 row.1 (markForm now_ns), acc.2 ++ [alertOf now_ns row.1 row.2])

def _check_calendar_alerts (config : Config) (events : Events) (now_ns : Int) : Option (Events × List Alert) :=
  (get_upcoming_events events now_ns config.default_lookahead_ns config.grace_ns).map fun upcoming =>
    upcoming.foldl (alertEvent now_ns) (events, [])

/-! ## The system -/

/-- What `time.time_ns()` returns. -/
structure Clock where
  ns : Int
  pos : 0 < ns

structure State where
  events : Events
  /-- the events that polls have alerted, with the start time that they had -/
  alerts : List (Str × Int)

/-- A cancellation is an update. -/
inductive Action where
  | create (id user_id : Str) (form_data : CalendarEventForm)
  | update (id : Str) (form_data : CalendarEventUpdateForm)
  | poll (now : Clock)

/-- What a poll alerts, in a state. -/
def polled (config : Config) (s : State) (now : Clock) : List Alert :=
  ((_check_calendar_alerts config s.events now.ns).map Prod.snd).getD []

/-- Ids are drawn by `uuid4`: a creation with an old one is none. -/
def step (config : Config) (s : State) : Action → State
  | .create id user_id form_data =>
    if id ∈ s.events then s else { s with events := s.events.set id (insert_new_event user_id form_data) }
  | .update id form_data => { s with events := update_event_by_id s.events id form_data }
  | .poll now =>
    -- where the poll raises, nothing is written
    ⟨((_check_calendar_alerts config s.events now.ns).map Prod.fst).getD s.events,
      s.alerts ++ (polled config s now).map fun a => (a.event_id, a.start_at)⟩

end CalendarEvents
end MaterialOpenWebui
