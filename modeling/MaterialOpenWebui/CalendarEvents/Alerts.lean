import MaterialOpenWebui.CalendarEvents.Events
import Mathlib.Tactic.NormNum
import Mathlib.Tactic.Tauto

/-!
# `CalendarEvents.Alerts` — which events a poll alerts

An event is due within its own alert window, and is to be alerted once for each start time (`Due`). What a poll looks at is
`alerted_at`, which does not tell the start time it was written for, and a window of the database that is no longer than an
hour or the default. The marker is right (`Marked`) as long as no request leaves an event with another marker than its start
time asks for: an event that has been alerted may be moved only by a request that takes its marker away.
-/

namespace MaterialOpenWebui
namespace CalendarEvents
open Py

/-! ## What is due -/

/-- How long before its start an event is alerted: what its `alert_minutes` says if it is a number that is not negative, and
the default if it has none. -/
def Window (config : Config) (event : CalendarEvent) (w : Rat) : Prop :=
  (alert_minutes event).isNone = true ∧ w = config.default_lookahead_ns ∨
    ∃ m, (alert_minutes event).number? = some m ∧ 0 ≤ m ∧ w = m * 60 * 1000000000

/-- An event that is to be alerted at a time, unless it has been for its start time. -/
def Due (config : Config) (now : Clock) (event : CalendarEvent) : Prop :=
  event.is_cancelled = false ∧ now.ns - config.grace_ns ≤ event.start_at ∧
    ∃ w, Window config event w ∧ (event.start_at : Rat) ≤ now.ns + w

theorem lookahead_iff (config : Config) (event : CalendarEvent) (w : Rat) :
    lookahead config.default_lookahead_ns (alert_minutes event) = some (some w) ↔ Window config event w := by
  rw [Window, lookahead]
  generalize alert_minutes event = minutes
  by_cases hnone : minutes.isNone = true
  · rw [if_pos hnone, Option.some_inj, Option.some_inj]
    -- what is null is no number, so only the default is left
    have hnumber : minutes.number? = none := by
      cases minutes with
      | none => rfl
      | _ => cases hnone
    refine ⟨fun h => Or.inl ⟨hnone, h.symm⟩, ?_⟩
    rintro (⟨-, h⟩ | ⟨m, h, -⟩)
    · exact h.symm
    · rw [hnumber] at h
      cases h
  · rw [if_neg hnone, Option.map_eq_some_iff, or_iff_right fun h => hnone h.1]
    refine exists_congr fun m => and_congr_right fun _ => ?_
    by_cases hm : m < 0
    · rw [if_pos hm]
      exact iff_of_false nofun fun h => absurd h.1 (not_le.mpr hm)
    · rw [if_neg hm, Option.some_inj]
      exact ⟨fun h => ⟨not_lt.mp hm, h.symm⟩, fun h => h.2.symm⟩

/-! ## One poll -/

/-- A row that the database selects and whose alert window cannot be read: the poll raises. -/
def Unreadable (config : Config) (now : Clock) (event : CalendarEvent) : Prop :=
  selected now.ns config.default_lookahead_ns config.grace_ns event = true ∧
    lookahead config.default_lookahead_ns (alert_minutes event) = none

theorem selected_iff (config : Config) (now : Clock) (event : CalendarEvent) :
    selected now.ns config.default_lookahead_ns config.grace_ns event = true ↔
      event.is_cancelled = false ∧ now.ns - config.grace_ns ≤ event.start_at ∧
        event.start_at ≤ now.ns + max config.default_lookahead_ns (60 * 60 * 1000000000) := by
  rw [selected, decide_eq_true_eq]

theorem within_iff (config : Config) (now : Clock) (event : CalendarEvent) :
    within now.ns event (lookahead config.default_lookahead_ns (alert_minutes event)).join = true ↔
      ∃ w, Window config event w ∧ (event.start_at : Rat) ≤ now.ns + w := by
  simp only [← lookahead_iff]
  rcases lookahead config.default_lookahead_ns (alert_minutes event) with _ | _ | w
  · exact iff_of_false nofun nofun
  · exact iff_of_false nofun nofun
  · show decide ((event.start_at : Rat) ≤ now.ns + w) = true ↔ _
    rw [decide_eq_true_eq]
    exact ⟨fun h => ⟨w, rfl, h⟩, fun ⟨w', heq, h⟩ => by cases heq; exact h⟩

/-- What a poll keeps: the due events that the database selects, unless it raises. -/
theorem upcoming_spec (config : Config) (events : Events) (now : Clock) :
    (∃ row ∈ events.items, Unreadable config now row.2) ∧
        get_upcoming_events events now.ns config.default_lookahead_ns config.grace_ns = none ∨
      (∀ row ∈ events.items, ¬Unreadable config now row.2) ∧
        ∃ upcoming, get_upcoming_events events now.ns config.default_lookahead_ns config.grace_ns = some upcoming ∧
          (upcoming.map Prod.fst).Nodup ∧ ∀ row, row ∈ upcoming ↔ row ∈ events.items ∧ Due config now row.2 ∧
            row.2.start_at ≤ now.ns + max config.default_lookahead_ns (60 * 60 * 1000000000) := by
  have hreadable : (∀ row ∈ events.items.filter fun row => selected now.ns config.default_lookahead_ns config.grace_ns row.2,
      (lookahead config.default_lookahead_ns (alert_minutes row.2)).isSome = true) ↔
        ∀ row ∈ events.items, ¬Unreadable config now row.2 := by
    simp only [List.mem_filter, Unreadable, not_and, and_imp, ← ne_eq, Option.isSome_iff_ne_none]
  rw [get_upcoming_events]
  by_cases hall : ∀ row ∈ events.items, ¬Unreadable config now row.2
  · refine Or.inr ⟨hall, _, if_pos (hreadable.mpr hall), ?_, fun row => ?_⟩
    · exact events.nodup.sublist ((List.filter_sublist.trans List.filter_sublist).map _)
    · rw [List.mem_filter, List.mem_filter, selected_iff, within_iff, Due]
      tauto
  · refine Or.inl ⟨?_, if_neg fun h => hall (hreadable.mp h)⟩
    obtain ⟨row, h⟩ := not_forall.mp hall
    obtain ⟨hmem, h⟩ := Classical.not_imp.mp h
    exact ⟨row, hmem, not_not.mp h⟩

/-- An event with a marker. -/
def marked (now : Clock) (event : CalendarEvent) : CalendarEvent :=
  { event with meta_ := some ((event.meta_.getD Dict.empty).update (Dict.ofList [(py "alerted_at", .int now.ns)])) }

theorem alerted_marked (now : Clock) (event : CalendarEvent) : alerted (marked now event) = true := by
  have hpos := now.pos
  have hget : ((event.meta_.getD Dict.empty).update (Dict.ofList [(py "alerted_at", .int now.ns)])).get? (py "alerted_at") =
      some (.int now.ns) := by
    rw [Dict.get?_update]
    rfl
  rw [alerted, metaGet, marked]
  show Val.truthy ((((event.meta_.getD Dict.empty).update _).get? _).getD .none) = true
  rw [hget]
  exact decide_eq_true (by omega)

theorem get?_update_mark (now : Clock) (events : Events) (id id' : Str) :
    (update_event_by_id events id (markForm now.ns)).get? id' =
      if id' = id then (events.get? id').map (marked now) else events.get? id' := by
  rw [update_event_by_id]
  cases hget : events.get? id with
  | none =>
    show events.get? id' = _
    split
    · rename_i heq
      rw [heq, hget]
      rfl
    · rfl
  | some event =>
    show (events.set id (marked now event)).get? id' = _
    rw [Dict.get?_set]
    split
    · rename_i heq
      rw [heq, hget]
      rfl
    · rfl

/-- The events of a list that a poll alerts. -/
def unalerted (upcoming : List (Str × CalendarEvent)) : List (Str × CalendarEvent) :=
  upcoming.filter fun row => !alerted row.2

theorem foldl_alertEvent (now : Clock) {upcoming : List (Str × CalendarEvent)} (hnodup : (upcoming.map Prod.fst).Nodup)
    (events : Events) (alerts : List Alert) :
    (∀ id, (upcoming.foldl (alertEvent now.ns) (events, alerts)).1.get? id =
      if id ∈ (unalerted upcoming).map Prod.fst then (events.get? id).map (marked now) else events.get? id) ∧
    (upcoming.foldl (alertEvent now.ns) (events, alerts)).2 =
      alerts ++ (unalerted upcoming).map fun row => alertOf now.ns row.1 row.2 := by
  induction upcoming generalizing events alerts with
  | nil => exact ⟨fun _ => rfl, (List.append_nil _).symm⟩
  | cons row upcoming ih =>
    obtain ⟨hnot, hnodup⟩ := List.nodup_cons.mp hnodup
    rw [List.foldl_cons, alertEvent]
    by_cases halerted : alerted row.2 = true
    · have hskip : unalerted (row :: upcoming) = unalerted upcoming := List.filter_cons_of_neg (by simp [halerted])
      rw [if_pos halerted, hskip]
      exact ih hnodup events alerts
    · have hkeep : unalerted (row :: upcoming) = row :: unalerted upcoming :=
        List.filter_cons_of_pos (by simp [halerted])
      rw [if_neg halerted, hkeep]
      obtain ⟨hget, hlist⟩ := ih hnodup (update_event_by_id events row.1 (markForm now.ns))
        (alerts ++ [alertOf now.ns row.1 row.2])
      refine ⟨fun id => ?_, hlist.trans (by rw [List.append_assoc]; rfl)⟩
      -- the ids are distinct: what comes later in the list leaves this event as it is marked now
      have hlater : ∀ id, id ∈ (unalerted upcoming).map Prod.fst → id ≠ row.1 := by
        rintro id hid rfl
        exact hnot ((List.filter_sublist.map Prod.fst).subset hid)
      rw [hget, get?_update_mark, List.map_cons]
      by_cases hid : id = row.1
      · rw [if_neg fun hmem => hlater id hmem hid, if_pos hid, if_pos (List.mem_cons.mpr (Or.inl hid))]
      · rw [if_neg hid]
        exact if_congr (by rw [List.mem_cons, or_iff_right hid]) rfl rfl

theorem polled_of_upcoming {config : Config} {s : State} {now : Clock} {upcoming : List (Str × CalendarEvent)}
    (hsome : get_upcoming_events s.events now.ns config.default_lookahead_ns config.grace_ns = some upcoming)
    (hnodup : (upcoming.map Prod.fst).Nodup) :
    polled config s now = (unalerted upcoming).map fun row => alertOf now.ns row.1 row.2 := by
  rw [polled, _check_calendar_alerts, hsome]
  exact ((foldl_alertEvent now hnodup s.events []).2).trans (List.nil_append _)

theorem polled_of_none {config : Config} {s : State} {now : Clock}
    (hnone : get_upcoming_events s.events now.ns config.default_lookahead_ns config.grace_ns = none) :
    polled config s now = [] := by
  rw [polled, _check_calendar_alerts, hnone]
  rfl

theorem ids_alertOf (now : Clock) (rows : List (Str × CalendarEvent)) :
    (rows.map fun row => alertOf now.ns row.1 row.2).map Alert.event_id = rows.map Prod.fst := by
  rw [List.map_map]
  rfl

/-- **What a poll alerts**: every due event that the database selects and that has no marker, unless it raises. -/
theorem mem_polled_iff (config : Config) (s : State) (now : Clock) {id : Str} {event : CalendarEvent}
    (hget : s.events.get? id = some event) :
    id ∈ (polled config s now).map Alert.event_id ↔ Due config now event ∧ alerted event = false ∧
      event.start_at ≤ now.ns + max config.default_lookahead_ns (60 * 60 * 1000000000) ∧
        ∀ row ∈ s.events.items, ¬Unreadable config now row.2 := by
  rcases upcoming_spec config s.events now with ⟨hraise, hnone⟩ | ⟨hreadable, upcoming, hsome, hnodup, hmem⟩
  · obtain ⟨row, hrow, hbad⟩ := hraise
    rw [polled_of_none hnone]
    exact iff_of_false List.not_mem_nil fun h => h.2.2.2 row hrow hbad
  · rw [polled_of_upcoming hsome hnodup, ids_alertOf, List.mem_map]
    constructor
    · rintro ⟨row, hrow, rfl⟩
      obtain ⟨hin, halerted⟩ := List.mem_filter.mp hrow
      obtain ⟨hitem, hdue, hwindow⟩ := (hmem row).mp hin
      have hsame : row.2 = event := Option.some.inj ((Dict.get?_eq_some_iff.mpr hitem).symm.trans hget)
      rw [hsame] at hdue hwindow halerted
      exact ⟨hdue, by simpa using halerted, hwindow, hreadable⟩
    · rintro ⟨hdue, halerted, hwindow, -⟩
      refine ⟨(id, event), List.mem_filter.mpr ⟨?_, by simp [halerted]⟩, rfl⟩
      exact (hmem (id, event)).mpr ⟨Dict.get?_eq_some_iff.mp hget, hdue, hwindow⟩

/-- What a poll leaves: the events that it alerts have a marker, the others are as they were. -/
theorem get?_poll (config : Config) (s : State) (now : Clock) (id : Str) :
    (step config s (.poll now)).events.get? id =
      if id ∈ (polled config s now).map Alert.event_id then (s.events.get? id).map (marked now) else s.events.get? id := by
  rcases upcoming_spec config s.events now with ⟨-, hnone⟩ | ⟨-, upcoming, hsome, hnodup, -⟩
  · rw [polled_of_none hnone, step, _check_calendar_alerts, hnone]
    exact (if_neg List.not_mem_nil).symm
  · rw [polled_of_upcoming hsome hnodup, ids_alertOf, ← (foldl_alertEvent now hnodup s.events []).1 id, step,
      _check_calendar_alerts, hsome]
    rfl

/-- An alert tells the start time of a stored event. -/
theorem get?_of_mem_polled {config : Config} {s : State} {now : Clock} {a : Alert} (ha : a ∈ polled config s now) :
    ∃ event, s.events.get? a.event_id = some event ∧ a.start_at = event.start_at := by
  rcases upcoming_spec config s.events now with ⟨-, hnone⟩ | ⟨-, upcoming, hsome, hnodup, hmem⟩
  · rw [polled_of_none hnone] at ha
    cases ha
  · rw [polled_of_upcoming hsome hnodup] at ha
    obtain ⟨row, hrow, rfl⟩ := List.mem_map.mp ha
    exact ⟨row.2, Dict.get?_eq_some_iff.mpr ((hmem row).mp (List.mem_filter.mp hrow).1).1, rfl⟩

/-! ## One update -/

/-- Whether an update leaves an event with a marker. -/
def markerAfter (form_data : CalendarEventUpdateForm) (event : CalendarEvent) : Bool :=
  ((form_data.meta_.join.bind fun m => m.get? (py "alerted_at")).map Val.truthy).getD (alerted event)

/-- The start time that an update leaves an event with. -/
def startAfter (form_data : CalendarEventUpdateForm) (event : CalendarEvent) : Int :=
  form_data.start_at.join.getD event.start_at

/-- A null is sent for a column that may not be null: the commit fails. -/
def Refused (form_data : CalendarEventUpdateForm) : Prop :=
  form_data.calendar_id = some none ∨ form_data.title = some none ∨ form_data.start_at = some none ∨
    form_data.all_day = some none ∨ form_data.is_cancelled = some none

theorem column_spec {α : Type} (field : Field α) (old : α) :
    field = some none ∧ column field old = none ∨ field ≠ some none ∧ column field old = some (field.join.getD old) := by
  rcases field with _ | _ | value
  · exact Or.inr ⟨nofun, rfl⟩
  · exact Or.inl ⟨rfl, rfl⟩
  · exact Or.inr ⟨nofun, rfl⟩

theorem alerted_merge (form_data : CalendarEventUpdateForm) (event : CalendarEvent) :
    (metaGet (merge form_data.meta_ event.meta_) (py "alerted_at")).truthy = markerAfter form_data event := by
  rw [markerAfter, alerted]
  rcases form_data.meta_ with _ | _ | new
  · rfl
  · rfl
  · show Val.truthy ((((event.meta_.getD Dict.empty).update new).get? (py "alerted_at")).getD .none) = _
    rw [Dict.get?_update]
    show _ = ((new.get? (py "alerted_at")).map Val.truthy).getD _
    cases new.get? (py "alerted_at") with
    | some v => rfl
    | none =>
      show Val.truthy (((event.meta_.getD Dict.empty).get? (py "alerted_at")).getD .none) = _
      cases event.meta_ <;> rfl

/-- What an update does to the start time and the marker, unless its commit fails. -/
theorem update_event_spec (form_data : CalendarEventUpdateForm) (event : CalendarEvent) :
    Refused form_data ∧ update_event form_data event = none ∨
      ¬Refused form_data ∧ ∃ event', update_event form_data event = some event' ∧
        event'.start_at = startAfter form_data event ∧ alerted event' = markerAfter form_data event := by
  rw [Refused, update_event]
  rcases column_spec form_data.calendar_id event.calendar_id with ⟨hnull, h⟩ | ⟨hid, h⟩
  · exact Or.inl ⟨Or.inl hnull, by rw [h]; rfl⟩
  rw [h, Option.bind_some]
  rcases column_spec form_data.title event.title with ⟨hnull, h⟩ | ⟨htitle, h⟩
  · exact Or.inl ⟨Or.inr (Or.inl hnull), by rw [h]; rfl⟩
  rw [h, Option.bind_some]
  rcases column_spec form_data.start_at event.start_at with ⟨hnull, h⟩ | ⟨hstart, h⟩
  · exact Or.inl ⟨Or.inr (Or.inr (Or.inl hnull)), by rw [h]; rfl⟩
  rw [h, Option.bind_some]
  rcases column_spec form_data.all_day event.all_day with ⟨hnull, h⟩ | ⟨hday, h⟩
  · exact Or.inl ⟨Or.inr (Or.inr (Or.inr (Or.inl hnull))), by rw [h]; rfl⟩
  rw [h, Option.bind_some]
  rcases column_spec form_data.is_cancelled event.is_cancelled with ⟨hnull, h⟩ | ⟨hcancelled, h⟩
  · exact Or.inl ⟨Or.inr (Or.inr (Or.inr (Or.inr hnull))), by rw [h]; rfl⟩
  rw [h, Option.bind_some]
  refine Or.inr ⟨?_, _, rfl, rfl, alerted_merge form_data event⟩
  rintro (h | h | h | h | h)
  · exact hid h
  · exact htitle h
  · exact hstart h
  · exact hday h
  · exact hcancelled h

/-! ## The marker -/

/-- The marker of an event tells whether it has been alerted for its start time. -/
structure Marked (s : State) : Prop where
  marker : ∀ id event, s.events.get? id = some event → (alerted event = true ↔ (id, event.start_at) ∈ s.alerts)
  stored : ∀ a ∈ s.alerts, a.1 ∈ s.events

/-- What the requests and the polls of a run have to keep. A request leaves an event with a marker exactly if the event has
been alerted for the start time that the request leaves it with. At a poll, every due event without a marker starts within
the window of the database, and no alert window that the poll reads is neither null nor a number. -/
def Timely (config : Config) (s : State) : Action → Prop
  | .create id _ form_data => id ∉ s.events → (metaGet form_data.meta_ (py "alerted_at")).truthy = false
  | .update id form_data => ¬Refused form_data → ∀ event, s.events.get? id = some event →
      (markerAfter form_data event = true ↔ (id, startAfter form_data event) ∈ s.alerts)
  | .poll now => ∀ id event, s.events.get? id = some event → Due config now event → alerted event = false →
      event.start_at ≤ now.ns + max config.default_lookahead_ns (60 * 60 * 1000000000) ∧
        ∀ row ∈ s.events.items, ¬Unreadable config now row.2

theorem marked_create {s : State} (hs : Marked s) {id : Str} {event : CalendarEvent} (hid : id ∉ s.events)
    (hmarker : alerted event = false) : Marked { s with events := s.events.set id event } := by
  refine ⟨fun id' event' hget => ?_, fun a ha => Dict.mem_set.mpr (Or.inr (hs.stored a ha))⟩
  change (s.events.set id event).get? id' = some event' at hget
  rw [Dict.get?_set] at hget
  split at hget
  · rename_i heq
    cases hget
    rw [heq, hmarker]
    exact iff_of_false Bool.false_ne_true fun h => hid (hs.stored _ h)
  · exact hs.marker id' event' hget

theorem marked_update {s : State} (hs : Marked s) {id : Str} {event : CalendarEvent}
    (hmarker : alerted event = true ↔ (id, event.start_at) ∈ s.alerts) :
    Marked { s with events := s.events.set id event } := by
  refine ⟨fun id' event' hget => ?_, fun a ha => Dict.mem_set.mpr (Or.inr (hs.stored a ha))⟩
  change (s.events.set id event).get? id' = some event' at hget
  rw [Dict.get?_set] at hget
  split at hget
  · rename_i heq
    cases hget
    rw [heq]
    exact hmarker
  · exact hs.marker id' event' hget

/-- A poll marks what it alerts, whatever there is. -/
theorem marked_poll (config : Config) {s : State} (hs : Marked s) (now : Clock) : Marked (step config s (.poll now)) := by
  refine ⟨fun id event' hget => ?_, fun a ha => ?_⟩
  · rw [get?_poll] at hget
    show _ ↔ (id, event'.start_at) ∈ s.alerts ++ (polled config s now).map fun a => (a.event_id, a.start_at)
    rw [List.mem_append]
    split at hget
    · rename_i hpolled
      obtain ⟨event, hold, rfl⟩ := Option.map_eq_some_iff.mp hget
      obtain ⟨a, ha, rfl⟩ := List.mem_map.mp hpolled
      obtain ⟨event₁, hget₁, hstart⟩ := get?_of_mem_polled ha
      cases hget₁.symm.trans hold
      refine iff_of_true (alerted_marked now event) (Or.inr (List.mem_map.mpr ⟨a, ha, ?_⟩))
      rw [hstart]
      rfl
    · rename_i hpolled
      -- an event that is not polled has no new alert
      rw [hs.marker id event' hget, or_iff_left]
      intro hmem
      obtain ⟨a, ha, heq⟩ := List.mem_map.mp hmem
      exact hpolled (List.mem_map.mpr ⟨a, ha, congrArg Prod.fst heq⟩)
  · have hkept : ∀ id ∈ s.events, id ∈ (step config s (.poll now)).events := by
      intro id hid
      obtain ⟨event, hget⟩ := Dict.mem_iff.mp hid
      refine Dict.mem_iff.mpr ?_
      rw [get?_poll, hget]
      split
      · exact ⟨_, rfl⟩
      · exact ⟨_, rfl⟩
    rcases List.mem_append.mp ha with ha | ha
    · exact hkept a.1 (hs.stored a ha)
    · obtain ⟨alert, halert, rfl⟩ := List.mem_map.mp ha
      obtain ⟨event, hget, -⟩ := get?_of_mem_polled halert
      exact hkept _ (Dict.mem_of_get? hget)

theorem marked_step (config : Config) (s : State) (action : Action) (hs : Marked s) (hok : Timely config s action) :
    Marked (step config s action) := by
  cases action with
  | create id user_id form_data =>
    rw [step]
    split
    · exact hs
    · rename_i hid
      exact marked_create hs hid (hok hid)
  | update id form_data =>
    rw [step, update_event_by_id]
    cases hget : s.events.get? id with
    | none => exact hs
    | some event =>
      rcases update_event_spec form_data event with ⟨-, hnone⟩ | ⟨hcommit, event', hsome, hstart, hmarker⟩
      · -- the commit fails
        rw [Option.bind_some, hnone]
        exact hs
      · rw [Option.bind_some, hsome]
        refine marked_update hs ?_
        rw [hstart, hmarker]
        exact hok hcommit event hget
  | poll now => exact marked_poll config hs now

/-! ## Runs -/

def start : State := ⟨Dict.empty, []⟩

theorem marked_start : Marked start :=
  ⟨fun _ _ hget => (nomatch hget), fun _ ha => absurd ha List.not_mem_nil⟩

/-- **The polls of a run alert exactly the due events that have not been alerted for their start time**, if every step of the
run is timely. -/
theorem alerts_exactly (config : Config) (actions : List Action) (now : Clock)
    (hok : Run.AllSteps (Timely config) (step config) start (actions ++ [.poll now])) :
    ∀ id event, (Run.run (step config) start actions).events.get? id = some event →
      (id ∈ (polled config (Run.run (step config) start actions) now).map Alert.event_id ↔
        Due config now event ∧ (id, event.start_at) ∉ (Run.run (step config) start actions).alerts) := by
  obtain ⟨hrun, hpoll, -⟩ := Run.allSteps_append.mp hok
  have hmarked := Run.invariant (marked_step config) marked_start hrun
  intro id event hget
  rw [mem_polled_iff config _ now hget, ← hmarked.marker id event hget, Bool.not_eq_true]
  constructor
  · rintro ⟨hdue, hmarker, -⟩
    exact ⟨hdue, hmarker⟩
  · rintro ⟨hdue, hmarker⟩
    exact ⟨hdue, hmarker, hpoll id event hget hdue hmarker⟩

/-- Ten minutes before the start, and a poll every ten seconds: the defaults. -/
def defaults : Config := ⟨10, 10⟩

/-- An event that starts in an hour, by a clock that starts at zero. -/
def meeting : CalendarEventForm :=
  ⟨py "calendar", py "Meeting", none, 3600000000000, none, false, none, none, none, none, none⟩

/-- The event is moved. -/
def moveTo (start_at : Int) : CalendarEventUpdateForm :=
  ⟨none, none, none, some (some start_at), none, none, none, none, none, none, none, none⟩

def atMinute (minutes : Nat) : Clock := ⟨(minutes + 1) * 60000000000, by omega⟩

/-- What decides whether an event without `alert_minutes` is due. -/
def facts (events : Events) (id : Str) : Option (Int × Bool × Bool × Bool) :=
  (events.get? id).map fun event =>
    (event.start_at, event.is_cancelled, (alert_minutes event).isNone, alerted event)

theorem due_of_facts {config : Config} {now : Clock} {event : CalendarEvent} (hcancelled : event.is_cancelled = false)
    (hminutes : (alert_minutes event).isNone = true) (hgrace : now.ns - config.grace_ns ≤ event.start_at)
    (hwindow : event.start_at ≤ now.ns + config.default_lookahead_ns) : Due config now event := by
  refine ⟨hcancelled, hgrace, config.default_lookahead_ns, Or.inl ⟨hminutes, rfl⟩, ?_⟩
  exact_mod_cast hwindow

/-- An event that is moved before it is alerted. -/
def movedFirst : List Action := [.create (py "1") (py "user") meeting, .update (py "1") (moveTo 7200000000000)]

/-- An event that is moved after it has been alerted. -/
def movedLast : List Action :=
  [.create (py "1") (py "user") meeting, .poll (atMinute 55), .update (py "1") (moveTo 7200000000000)]

theorem of_facts {events : Events} {id : Str} {start_at : Int} {cancelled absent marker : Bool}
    (h : facts events id = some (start_at, cancelled, absent, marker)) :
    ∃ event, events.get? id = some event ∧ event.start_at = start_at ∧ event.is_cancelled = cancelled ∧
      (alert_minutes event).isNone = absent ∧ alerted event = marker := by
  obtain ⟨event, hget, heq⟩ := Option.map_eq_some_iff.mp h
  cases heq
  exact ⟨event, hget, rfl, rfl, rfl, rfl⟩

theorem facts_movedFirst :
    facts (Run.run (step defaults) start movedFirst).events (py "1") = some (7200000000000, false, true, false) := by
  decide

theorem facts_movedLast :
    facts (Run.run (step defaults) start movedLast).events (py "1") = some (7200000000000, false, true, true) := by
  decide +kernel

/-- The only event of a table of one. -/
theorem eq_of_get?_movedFirst {id : Str} {event : CalendarEvent}
    (hget : (Run.run (step defaults) start movedFirst).events.get? id = some event) :
    id = py "1" ∧ event.start_at = 7200000000000 ∧ alert_minutes event = .none := by
  have hitem := List.mem_singleton.mp (Dict.get?_eq_some_iff.mp hget)
  cases hitem
  exact ⟨rfl, rfl, rfl⟩

theorem timely_movedFirst :
    Run.AllSteps (Timely defaults) (step defaults) start (movedFirst ++ [.poll (atMinute 115)]) := by
  refine Run.allSteps_append.mpr ⟨⟨fun _ => rfl, fun _ event hget => ?_, trivial⟩, ?_, trivial⟩
  · have hitem := List.mem_singleton.mp (Dict.get?_eq_some_iff.mp hget)
    cases hitem
    exact iff_of_false nofun List.not_mem_nil
  · intro id event hget _ _
    obtain ⟨-, hstart, -⟩ := eq_of_get?_movedFirst hget
    refine ⟨by rw [hstart]; decide, fun row hrow hbad => ?_⟩
    obtain ⟨-, -, hminutes⟩ := eq_of_get?_movedFirst (Dict.get?_eq_some_iff.mpr hrow)
    have hnone := hbad.2
    rw [hminutes] at hnone
    cases hnone

theorem alerts_exactly_movedFirst :
    py "1" ∈ (polled defaults (Run.run (step defaults) start movedFirst) (atMinute 115)).map Alert.event_id := by
  obtain ⟨event, hget, hstart, hcancelled, hminutes, -⟩ := of_facts facts_movedFirst
  refine (alerts_exactly defaults movedFirst (atMinute 115) timely_movedFirst (py "1") event hget).mpr
    ⟨due_of_facts hcancelled hminutes ?_ ?_, List.not_mem_nil⟩
  · rw [hstart]
    decide
  · rw [hstart]
    decide

/-- An event that has been alerted is moved: it is due again, and no poll alerts it. -/
theorem moved_not_alerted :
    ¬∀ (config : Config) (actions : List Action) (now : Clock) (id : Str) (event : CalendarEvent),
      (Run.run (step config) start actions).events.get? id = some event →
        (id ∈ (polled config (Run.run (step config) start actions) now).map Alert.event_id ↔
          Due config now event ∧ (id, event.start_at) ∉ (Run.run (step config) start actions).alerts) := by
  intro h
  obtain ⟨event, hget, hstart, hcancelled, hminutes, hmarker⟩ := of_facts facts_movedLast
  have hdue : Due defaults (atMinute 115) event := by
    refine due_of_facts hcancelled hminutes ?_ ?_
    · rw [hstart]
      decide
    · rw [hstart]
      decide
  have hnew : (py "1", event.start_at) ∉ (Run.run (step defaults) start movedLast).alerts := by
    rw [hstart]
    decide +kernel
  have hpolled := (h defaults movedLast (atMinute 115) (py "1") event hget).mpr ⟨hdue, hnew⟩
  rw [mem_polled_iff defaults _ _ hget, hmarker] at hpolled
  cases hpolled.2.1

end CalendarEvents
end MaterialOpenWebui
