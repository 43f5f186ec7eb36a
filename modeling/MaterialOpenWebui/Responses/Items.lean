import MaterialOpenWebui.Responses.Stray

/-!
# `Responses.Items` — what a stream of events makes of its items

A stream adds items in the order of their indices, changes them, and closes each with an event that has the final item.
The handler passes the closing event over: its name ends as those of other events do, and the branch for these comes
first. So what the output holds of an item is what the events before made of it.
-/

namespace MaterialOpenWebui
namespace Responses
open Py

/-! ## Streams -/

def IsAdded (e : Event) : Prop := e.type = py "response.output_item.added"

def IsDone (e : Event) : Prop := e.type = py "response.output_item.done"

instance (e : Event) : Decidable (IsAdded e) := inferInstanceAs (Decidable (e.type = py "response.output_item.added"))

/-- An event of a text, of arguments, of reasoning or of a part, or one that closes an item. -/
def IsChange (e : Event) : Prop :=
  e.type = py "response.content_part.added" ∨ e.type = py "response.reasoning_summary_part.added" ∨
    isResponse (py ".delta") e.type ∨ isResponse (py ".done") e.type

/-- The event gives an index, as a number. -/
def HasIndex (e : Event) (i : Nat) : Prop := e.data.get? (py "output_index") = some (.int i)

/-- Items are added in the order of their indices, and closed only after. -/
def InOrder : Nat → List Event → Prop
  | _, [] => True
  | n, e :: events =>
    if IsAdded e then HasIndex e n ∧ (∃ item, e.item = some item ∧ item.items ≠ []) ∧ InOrder (n + 1) events
    else IsChange e ∧ (IsDone e → ∃ i < n, HasIndex e i) ∧ InOrder n events

structure ItemStream (events : List Event) : Prop where
  inOrder : InOrder 0 events
  closed : ∀ i, (∃ e ∈ events, IsAdded e ∧ HasIndex e i) → ∃ e ∈ events, IsDone e ∧ HasIndex e i

/-- The output after the events. -/
def outputs (str_ : Val → Str) (output : List Obj) : List Event → Option (List Obj)
  | [] => some output
  | e :: events =>
    (handle_responses_streaming_event str_ e output).reply.bind fun reply => outputs str_ reply.1 events

/-- After each event that closes an item the output has the final item in its place. -/
def Converges (str_ : Val → Str) (events : List Event) : Prop :=
  ∀ before e after, events = before ++ e :: after → IsDone e → ∀ i, HasIndex e i →
    ∃ output, outputs str_ [] (before ++ [e]) = some output ∧ output[i]? = e.item

/-! ## One item -/

/-- What the end of a part makes of the item that it is for. -/
def changePartDone (key : Str) (index : Option Val) (e : Event) (item : Obj) : Option Obj :=
  match e.part with
  | none => some item
  | some part =>
    if part.items = [] then some item else (replacePart key index part item).map fun replaced => replaced.getD item

/-- What the final value of a field makes of the item that it is for. -/
def changeFieldDone (e : Event) (type_name : Str) (item : Obj) : Option Obj :=
  match e.data.get? (doneKey type_name) with
  | none => some item
  | some final_value => done_item e type_name final_value item

/-- What the end of something makes of the item that it is for. -/
def changeDone (e : Event) (type_name : Str) (item : Obj) : Option Obj :=
  if type_name = py "content_part" then changePartDone (py "content") (e.data.get? (py "content_index")) e item
  else if type_name = py "reasoning_summary_part" then
    changePartDone (py "summary") (e.data.get? (py "summary_index")) e item
  else if type_name = py "output_item" then some item
  else if type_name = py "completed" ∨ type_name = py "failed" then some item
  else changeFieldDone e type_name item

def changeDelta (str_ : Val → Str) (e : Event) (item : Obj) : Option Obj :=
  match split e.type with
  | _ :: delta_type :: _ :: _ => delta_item str_ e delta_type item
  | _ => none

def changeEnd (e : Event) (item : Obj) : Option Obj :=
  match split e.type with
  | _ :: type_name :: _ :: _ => changeDone e type_name item
  | _ => some item

/-- What an event makes of the item that it is for. -/
def change (str_ : Val → Str) (e : Event) (item : Obj) : Option Obj :=
  if e.type = py "response.content_part.added" then content_part_added e item
  else if e.type = py "response.reasoning_summary_part.added" then reasoning_summary_part_added e item
  else if isResponse (py ".delta") e.type then changeDelta str_ e item
  else changeEnd e item

/-- The place of the item that an event is for, among `n`. -/
def position (e : Event) (n : Nat) : Option Nat :=
  (e.output_index n).integer?.bind fun i => if 0 ≤ i ∧ i < n then some i.toNat else none

/-- What the events make of the item with an index: it is as it was added, and then as each event for it changes it. Of the
other items only how many there are matters. -/
def gather (str_ : Val → Str) (i : Nat) : Nat → Option Obj → List Event → Option Obj
  | _, item, [] => item
  | n, item, e :: events =>
    if IsAdded e then gather str_ i (n + 1) (if n = i then e.item else item) events
    else gather str_ i n (if position e n = some i then item.bind (change str_ e) else item) events

/-! ## One step -/

/-- Of the output only the item that the event is for has changed. -/
def Changed (e : Event) (current_output : List Obj) (f : Obj → Option Obj) (output : List Obj) : Prop :=
  addressed e current_output = none ∧ output = current_output ∨
    ∃ p item item', addressed e current_output = some p ∧ current_output[p]? = some item ∧ f item = some item' ∧
      output = current_output.set p item'

theorem changed_set {e : Event} {current_output : List Obj} {p : Nat} {item item' : Obj} {f : Obj → Option Obj}
    (h : addressed e current_output = some p) (hitem : current_output[p]? = some item) (hf : f item = some item') :
    Changed e current_output f (current_output.set p item') := Or.inr ⟨p, item, item', h, hitem, hf, rfl⟩

/-- An item that is replaced by itself. -/
theorem changed_same {e : Event} {current_output : List Obj} {f : Obj → Option Obj}
    (h : OfAddressed e current_output fun item => f item = some item) : Changed e current_output f current_output := by
  rcases addresses_cases e current_output with ⟨-, hnone⟩ | ⟨-, hnone⟩ | ⟨-, hnone, -⟩ | ⟨p, item, -, hsome, -, hitem⟩
  · exact Or.inl ⟨hnone, rfl⟩
  · exact Or.inl ⟨hnone, rfl⟩
  · exact Or.inl ⟨hnone, rfl⟩
  · have hset : current_output.set p item = current_output := by
      obtain ⟨hp, rfl⟩ := List.getElem?_eq_some_iff.mp hitem
      exact List.set_getElem_self hp
    have hchanged := changed_set hsome hitem (h p item hsome hitem)
    rw [hset] at hchanged
    exact hchanged

theorem changed_changeItem {e : Event} {current_output output : List Obj} {metadata metadata' : Option Obj}
    {f : Obj → Option Obj} {p : Nat} {item : Obj} (hsome : addressed e current_output = some p)
    (hplace : place (e.output_index current_output.length) current_output.length = some p)
    (hitem : current_output[p]? = some item)
    (h : (changeItem current_output (e.output_index current_output.length) f).map (fun output => (output, metadata)) =
      some (output, metadata')) : Changed e current_output f output := by
  rw [changeItem_of_place hplace hitem, Option.map_map, Option.map_eq_some_iff] at h
  obtain ⟨item', hf, houtput⟩ := h
  rw [Function.comp_apply, Prod.mk.injEq] at houtput
  rw [← houtput.1]
  exact changed_set hsome hitem hf

theorem changed_changeAddressed {e : Event} {current_output output : List Obj} {metadata : Option Obj}
    {f : Obj → Option Obj} (h : changeAddressed e current_output f = some (output, metadata)) :
    Changed e current_output f output := by
  rw [changeAddressed] at h
  rcases addresses_cases e current_output with ⟨haddr, hnone⟩ | ⟨haddr, hnone⟩ | ⟨haddr, hnone, hplace⟩ |
    ⟨p, item, haddr, hsome, hplace, hitem⟩
  · rw [haddr] at h
    cases h
  · rw [haddr] at h
    cases h
    exact Or.inl ⟨hnone, rfl⟩
  · rw [haddr, Option.bind_some, if_pos rfl, changeItem, hplace] at h
    cases h
  · rw [haddr, Option.bind_some, if_pos rfl] at h
    exact changed_changeItem hsome hplace hitem h

theorem changed_response_delta {str_ : Val → Str} {e : Event} {current_output output : List Obj}
    {metadata : Option Obj} (h : response_delta str_ e current_output = some (output, metadata)) :
    Changed e current_output (changeDelta str_ e) output := by
  rw [response_delta] at h
  split at h
  · rename_i first delta_type third rest hsplit
    have hchange : changeDelta str_ e = delta_item str_ e delta_type := by
      funext item
      rw [changeDelta, hsplit]
    rw [hchange]
    rcases addresses_cases e current_output with ⟨haddr, hnone⟩ | ⟨haddr, hnone⟩ | ⟨haddr, hnone, hplace⟩ |
      ⟨p, item, haddr, hsome, hplace, hitem⟩
    · rw [haddr] at h
      cases h
    · rw [haddr] at h
      cases h
    · rw [haddr, Option.bind_some, if_pos rfl, changeItem, hplace] at h
      cases h
    · rw [haddr, Option.bind_some, if_pos rfl] at h
      exact changed_changeItem hsome hplace hitem h
  · cases h

theorem changed_part_done {key : Str} {index : Option Val} {e : Event} {current_output output : List Obj}
    {metadata : Option Obj} (h : part_done key index e current_output = some (output, metadata)) :
    Changed e current_output (changePartDone key index e) output := by
  rw [part_done] at h
  cases hpart : e.part with
  | none =>
    rw [hpart] at h
    cases h
    apply changed_same
    intro p item _ _
    rw [changePartDone, hpart]
  | some part =>
    rw [hpart] at h
    dsimp only at h
    by_cases hempty : part.items = []
    · rw [if_pos hempty] at h
      cases h
      apply changed_same
      intro p item _ _
      rw [changePartDone, hpart]
      exact if_pos hempty
    rw [if_neg hempty] at h
    rcases addresses_cases e current_output with ⟨haddr, hnone⟩ | ⟨haddr, hnone⟩ | ⟨haddr, hnone, hplace⟩ |
      ⟨p, item, haddr, hsome, hplace, hitem⟩
    · rw [haddr] at h
      cases h
    · rw [haddr] at h
      cases h
      exact Or.inl ⟨hnone, rfl⟩
    · rw [haddr, Option.bind_some, if_pos rfl, hplace] at h
      cases h
    · rw [haddr, Option.bind_some, if_pos rfl, hplace, Option.bind_some, hitem, Option.bind_some] at h
      have hchange : changePartDone key index e item =
          (replacePart key index part item).map fun replaced => replaced.getD item := by
        rw [changePartDone, hpart]
        exact if_neg hempty
      cases hreplaced : replacePart key index part item with
      | none =>
        rw [hreplaced] at h
        cases h
      | some replaced =>
        rw [hreplaced] at h hchange
        cases replaced with
        | none =>
          cases h
          exact changed_same ((ofAddressed_of_some hsome hitem _).mpr hchange)
        | some item' =>
          cases h
          exact changed_set hsome hitem hchange

theorem changed_field_done {e : Event} {type_name : Str} {current_output output : List Obj} {metadata : Option Obj}
    (h : field_done e type_name current_output = some (output, metadata)) :
    Changed e current_output (changeFieldDone e type_name) output := by
  rw [field_done] at h
  rcases addresses_cases e current_output with ⟨haddr, hnone⟩ | ⟨haddr, hnone⟩ | ⟨haddr, hnone, hplace⟩ |
    ⟨p, item, haddr, hsome, hplace, hitem⟩
  · rw [haddr] at h
    cases h
  · rw [haddr] at h
    cases h
    exact Or.inl ⟨hnone, rfl⟩
  · rw [haddr, Option.bind_some, if_pos rfl] at h
    cases hvalue : e.data.get? (doneKey type_name) with
    | none =>
      rw [hvalue] at h
      cases h
      exact Or.inl ⟨hnone, rfl⟩
    | some final_value =>
      rw [hvalue] at h
      dsimp only at h
      rw [changeItem, hplace] at h
      cases h
  · rw [haddr, Option.bind_some, if_pos rfl] at h
    cases hvalue : e.data.get? (doneKey type_name) with
    | none =>
      rw [hvalue] at h
      cases h
      apply changed_same
      intro q other _ _
      rw [changeFieldDone, hvalue]
    | some final_value =>
      rw [hvalue] at h
      have hchange : changeFieldDone e type_name = done_item e type_name final_value := by
        funext other
        rw [changeFieldDone, hvalue]
      rw [hchange]
      exact changed_changeItem hsome hplace hitem h

theorem changed_response_done {e : Event} {current_output output : List Obj} {metadata : Option Obj}
    (h : response_done e current_output = some (output, metadata)) :
    Changed e current_output (changeEnd e) output := by
  have hsame : (some (current_output, none) : Reply) = some (output, metadata) →
      Changed e current_output (some ·) output := by
    intro h
    cases h
    exact changed_same fun p item _ _ => rfl
  rw [response_done] at h
  split at h
  · rename_i first type_name third rest hsplit
    have hchange : changeEnd e = changeDone e type_name := by
      funext item
      rw [changeEnd, hsplit]
    rw [hchange]
    unfold changeDone
    by_cases hcontent : type_name = py "content_part"
    · simp only [if_pos hcontent] at h ⊢
      exact changed_part_done h
    by_cases hsummary : type_name = py "reasoning_summary_part"
    · simp only [if_neg hcontent, if_pos hsummary] at h ⊢
      exact changed_part_done h
    simp only [if_neg hcontent, if_neg hsummary] at h ⊢
    by_cases hitem : type_name = py "output_item"
    · simp only [if_pos hitem] at h ⊢
      exact hsame h
    by_cases hother : type_name = py "completed" ∨ type_name = py "failed"
    · simp only [if_neg hitem, if_pos hother] at h ⊢
      exact hsame h
    · simp only [if_neg hitem, if_neg hother] at h ⊢
      exact changed_field_done h
  · rename_i hsplit
    have hchange : changeEnd e = (some ·) := by
      funext item
      rw [changeEnd]
      split
      · rename_i first type_name third rest h
        exact absurd h (hsplit first type_name third rest)
      · rfl
    rw [hchange]
    exact hsame h

/-- What an event does to the output: it changes the item that it is for, and no other. -/
theorem changed_reply {str_ : Val → Str} {e : Event} (hadded : ¬ IsAdded e) (hchange : IsChange e)
    {current_output output : List Obj} {metadata : Option Obj}
    (h : (handle_responses_streaming_event str_ e current_output).reply = some (output, metadata)) :
    Changed e current_output (change str_ e) output := by
  rw [handle_responses_streaming_event, if_neg (show e.type ≠ _ from hadded)] at h
  unfold change
  by_cases hcontent : e.type = py "response.content_part.added"
  · simp only [if_pos hcontent] at h ⊢
    exact changed_changeAddressed h
  by_cases hsummary : e.type = py "response.reasoning_summary_part.added"
  · simp only [if_neg hcontent, if_pos hsummary] at h ⊢
    exact changed_changeAddressed h
  by_cases hdelta : isResponse (py ".delta") e.type
  · simp only [if_neg hcontent, if_neg hsummary, if_pos hdelta] at h ⊢
    exact changed_response_delta h
  · have hdone : isResponse (py ".done") e.type := by
      rcases hchange with h | h | h | h
      · exact absurd h hcontent
      · exact absurd h hsummary
      · exact absurd h hdelta
      · exact h
    simp only [if_neg hcontent, if_neg hsummary, if_neg hdelta, if_pos hdone] at h ⊢
    exact changed_response_done h

/-! ## A run -/

theorem addressed_eq (e : Event) (current_output : List Obj) :
    addressed e current_output = position e current_output.length := rfl

theorem Changed.length_eq {e : Event} {current_output output : List Obj} {f : Obj → Option Obj}
    (h : Changed e current_output f output) : output.length = current_output.length := by
  rcases h with ⟨-, rfl⟩ | ⟨p, item, item', -, -, -, rfl⟩
  · rfl
  · exact List.length_set

theorem Changed.getElem? {e : Event} {current_output output : List Obj} {f : Obj → Option Obj}
    (h : Changed e current_output f output) (i : Nat) :
    output[i]? = if position e current_output.length = some i then current_output[i]?.bind f else current_output[i]? := by
  rcases h with ⟨hnone, rfl⟩ | ⟨p, item, item', hp, hitem, hf, rfl⟩
  · rw [← addressed_eq, hnone, if_neg (Option.some_ne_none i).symm]
  · rw [← addressed_eq, hp]
    by_cases hpi : p = i
    · subst hpi
      obtain ⟨hlt, -⟩ := List.getElem?_eq_some_iff.mp hitem
      rw [if_pos rfl, hitem, List.getElem?_set_self hlt]
      exact hf.symm
    · rw [if_neg (fun h => hpi (Option.some.inj h)), List.getElem?_set_ne hpi]

theorem reply_added (str_ : Val → Str) {e : Event} (h : IsAdded e) {item : Obj} (hitem : e.item = some item)
    (hsome : item.items ≠ []) (current_output : List Obj) :
    (handle_responses_streaming_event str_ e current_output).reply = some (current_output ++ [item], none) := by
  rw [handle_responses_streaming_event, if_pos (show e.type = _ from h)]
  show output_item_added e current_output = _
  rw [output_item_added, hitem]
  show some (if item.items ≠ [] then _ else _, none) = _
  rw [if_pos hsome]

/-- **The output holds of each item what the events before made of it.** -/
theorem outputs_getElem? {str_ : Val → Str} {events : List Event} {output output' : List Obj}
    (hevents : InOrder output.length events) (h : outputs str_ output events = some output') (i : Nat) :
    output'[i]? = gather str_ i output.length output[i]? events := by
  induction events generalizing output with
  | nil =>
    cases h
    rfl
  | cons e events ih =>
    rw [outputs, Option.bind_eq_some_iff] at h
    obtain ⟨⟨next, metadata⟩, hreply, hrest⟩ := h
    rw [InOrder] at hevents
    rw [gather]
    by_cases hadded : IsAdded e
    · rw [if_pos hadded] at hevents ⊢
      obtain ⟨-, ⟨item, hitem, hsome⟩, hevents⟩ := hevents
      rw [reply_added str_ hadded hitem hsome] at hreply
      cases hreply
      have hlength : (output ++ [item]).length = output.length + 1 := List.length_append
      have hnext : (output ++ [item])[i]? = if output.length = i then e.item else output[i]? := by
        split
        · rename_i hi
          rw [← hi, List.getElem?_concat_length, hitem]
        · rename_i hi
          rw [List.getElem?_append]
          split
          · rfl
          · rw [List.getElem?_eq_none (by rw [List.length_singleton]; omega), List.getElem?_eq_none (by omega)]
      rw [← hlength] at hevents
      rw [ih hevents hrest, hlength, hnext]
    · rw [if_neg hadded] at hevents ⊢
      obtain ⟨hchange, -, hevents⟩ := hevents
      have hchanged := changed_reply hadded hchange hreply
      rw [← hchanged.length_eq] at hevents
      rw [ih hevents hrest, hchanged.length_eq, hchanged.getElem? i]

/-- No event of a run is one that the handler does not tolerate. -/
def Smooth (str_ : Val → Str) : List Obj → List Event → Prop
  | _, [] => True
  | output, e :: events =>
    Acceptable e output ∧
      ∀ reply, (handle_responses_streaming_event str_ e output).reply = some reply → Smooth str_ reply.1 events

theorem given_unchanged (str_ : Val → Str) {e : Event} (h : e.type ≠ py "response.completed") (output : List Obj) :
    (handle_responses_streaming_event str_ e output).current_output = output := by
  rw [handle_responses_streaming_event]
  simp only [if_neg h]
  iterate 8
    split
    · rfl
  rfl

theorem not_completed_of_isChange {e : Event} (h : IsChange e) : e.type ≠ py "response.completed" := by
  intro htype
  rw [IsChange, htype] at h
  exact absurd h (by decide)

theorem acceptable_iff_isSome (str_ : Val → Str) {e : Event} (hadded : ¬ IsAdded e) (hchange : IsChange e)
    (output : List Obj) :
    Acceptable e output ↔ (handle_responses_streaming_event str_ e output).reply.isSome := by
  rw [← tolerated_iff_acceptable str_]
  constructor
  · rintro ⟨next, metadata, hcall, -⟩
    rw [hcall]
    rfl
  · intro hsome
    obtain ⟨⟨next, metadata⟩, hreply⟩ := Option.isSome_iff_exists.mp hsome
    have hgiven := given_unchanged str_ (not_completed_of_isChange hchange) output
    refine ⟨next, metadata, ?_, ?_⟩
    · show Outcome.mk (handle_responses_streaming_event str_ e output).reply
        (handle_responses_streaming_event str_ e output).current_output = _
      rw [hreply, hgiven]
    · intro _ hnone
      rcases changed_reply hadded hchange hreply with ⟨-, hsame⟩ | ⟨p, item, item', hp, -⟩
      · exact hsame
      · rw [hnone] at hp
        cases hp

theorem smooth_iff (str_ : Val → Str) {events : List Event} {output : List Obj}
    (h : InOrder output.length events) : Smooth str_ output events ↔ (outputs str_ output events).isSome := by
  induction events generalizing output with
  | nil => exact iff_of_true trivial rfl
  | cons e events ih =>
    rw [InOrder] at h
    rw [Smooth, outputs]
    by_cases hadded : IsAdded e
    · rw [if_pos hadded] at h
      obtain ⟨-, ⟨item, hitem, hsome⟩, h⟩ := h
      have hlength : (output ++ [item]).length = output.length + 1 := List.length_append
      rw [← hlength] at h
      rw [reply_added str_ hadded hitem hsome, Option.bind_some, ← ih h, and_iff_right]
      · constructor
        · exact fun hall => hall _ rfl
        · rintro hrest reply hreply
          cases hreply
          exact hrest
      · exact (tolerated_iff_acceptable str_ e output).mp (tolerated_added str_ hadded output)
    · rw [if_neg hadded] at h
      obtain ⟨hchange, -, h⟩ := h
      rw [acceptable_iff_isSome str_ hadded hchange]
      cases hreply : (handle_responses_streaming_event str_ e output).reply with
      | none => exact iff_of_false (fun hsome => by cases hsome.1) Bool.noConfusion
      | some reply =>
        rw [Option.bind_some, and_iff_right (Option.isSome_some)]
        rw [← (changed_reply hadded hchange hreply).length_eq] at h
        rw [← ih h]
        constructor
        · exact fun hall => hall reply rfl
        · rintro hrest other hother
          cases hother
          exact hrest

/-- An item that is done is passed over. -/
theorem reply_done (str_ : Val → Str) {e : Event} (h : IsDone e) (output : List Obj) :
    (handle_responses_streaming_event str_ e output).reply = some (output, none) := by
  have htype : e.type = py "response.output_item.done" := h
  have hsplit : split (py "response.output_item.done") = [py "response", py "output_item", py "done"] := by
    decide +kernel
  have hadded : py "response.output_item.done" ≠ py "response.output_item.added" := by decide +kernel
  have hcontent : py "response.output_item.done" ≠ py "response.content_part.added" := by decide +kernel
  have hsummary : py "response.output_item.done" ≠ py "response.reasoning_summary_part.added" := by decide +kernel
  have hdelta : ¬ isResponse (py ".delta") (py "response.output_item.done") := by decide +kernel
  have hdone : isResponse (py ".done") (py "response.output_item.done") := by decide +kernel
  -- the name begins and ends as that of the end of a part or field
  rw [handle_responses_streaming_event, htype, if_neg hadded, if_neg hcontent, if_neg hsummary, if_neg hdelta,
    if_pos hdone]
  have hpart : py "output_item" ≠ py "content_part" := by decide +kernel
  have hreasoning : py "output_item" ≠ py "reasoning_summary_part" := by decide +kernel
  show response_done e output = _
  rw [response_done, htype, hsplit]
  show (if py "output_item" = py "content_part" then _ else _) = _
  rw [if_neg hpart, if_neg hreasoning, if_pos rfl]

theorem outputs_append (str_ : Val → Str) (output : List Obj) (before after : List Event) :
    outputs str_ output (before ++ after) = (outputs str_ output before).bind fun next => outputs str_ next after := by
  induction before generalizing output with
  | nil => rfl
  | cons e before ih =>
    rw [List.cons_append, outputs, outputs, Option.bind_assoc]
    simp only [ih]

theorem inOrder_of_append {n : Nat} {before after : List Event} (h : InOrder n (before ++ after)) : InOrder n before := by
  induction before generalizing n with
  | nil => trivial
  | cons e before ih =>
    rw [List.cons_append, InOrder] at h
    rw [InOrder]
    split at h
    · rename_i hadded
      rw [if_pos hadded]
      exact ⟨h.1, h.2.1, ih h.2.2⟩
    · rename_i hadded
      rw [if_neg hadded]
      exact ⟨h.1, h.2.1, ih h.2.2⟩

/-- **A stream converges exactly when the item that each closing event has is what the events before made of it.** -/
theorem converges_iff (str_ : Val → Str) {events : List Event} (h : ItemStream events) :
    Converges str_ events ↔ ∀ before e after, events = before ++ e :: after → IsDone e → ∀ i, HasIndex e i →
      Smooth str_ [] before ∧ gather str_ i 0 none before = e.item := by
  apply forall_congr'
  intro before
  apply forall_congr'
  intro e
  apply forall_congr'
  intro after
  apply imp_congr_right
  intro hevents
  apply imp_congr_right
  intro hdone
  apply forall_congr'
  intro i
  apply imp_congr_right
  intro _
  have horder : InOrder ([] : List Obj).length before := by
    have hall := h.inOrder
    rw [hevents] at hall
    exact inOrder_of_append hall
  have hclosing : outputs str_ [] (before ++ [e]) = outputs str_ [] before := by
    rw [outputs_append]
    simp only [outputs, reply_done str_ hdone, Option.bind_some, Option.bind_fun_some]
  rw [hclosing, smooth_iff str_ horder]
  constructor
  · rintro ⟨output, houtput, hitem⟩
    have hgather := outputs_getElem? horder houtput i
    rw [hitem] at hgather
    exact ⟨Option.isSome_of_eq_some houtput, hgather.symm⟩
  · rintro ⟨hsome, hgather⟩
    obtain ⟨output, houtput⟩ := Option.isSome_iff_exists.mp hsome
    refine ⟨output, houtput, ?_⟩
    rw [outputs_getElem? horder houtput i]
    exact hgather

/-! ## The exception -/

/-- An event that brings an item, the first of the output. -/
def bringing (type : Str) (item : Obj) : Event where
  data := ⟨[(py "type", .str type), (py "output_index", .int 0), (py "item", .dict item.items)], by
    show [py "type", py "output_index", py "item"].Nodup
    decide +kernel⟩
  typed := by
    refine ⟨?_, ?_, ?_, ?_⟩ <;> intro v h <;> cases h <;> rfl

theorem type_bringing (type : Str) (item : Obj) : (bringing type item).type = type := rfl

theorem hasIndex_bringing (type : Str) (item : Obj) : HasIndex (bringing type item) 0 := rfl

theorem item_bringing (type : Str) (item : Obj) : (bringing type item).item = some item :=
  congrArg some (Dict.firsts_items item)

theorem index_of_bringing {type : Str} {item : Obj} {i : Nat} (h : HasIndex (bringing type item) i) : i = 0 := by
  have hint : some (Val.int i) = some (.int 0) := h.symm.trans (hasIndex_bringing type item)
  rw [Option.some.injEq, Val.int.injEq] at hint
  omega

/-- An item that is added, and then closed. -/
def addedThenDone (item final : Obj) : List Event :=
  [bringing (py "response.output_item.added") item, bringing (py "response.output_item.done") final]

def begun : Obj := Dict.empty.set (py "type") (.str (py "message"))

def complete : Obj := begun.set (py "status") (.str (py "completed"))

theorem itemStream_addedThenDone (final : Obj) : ItemStream (addedThenDone begun final) := by
  constructor
  · have hdone : isResponse (py ".done") (py "response.output_item.done") = true := by decide +kernel
    have hadded : ¬ IsAdded (bringing (py "response.output_item.done") final) := by
      rw [IsAdded, type_bringing]
      decide +kernel
    have hfirst : IsAdded (bringing (py "response.output_item.added") begun) := type_bringing _ _
    rw [addedThenDone, InOrder, if_pos hfirst, InOrder, if_neg hadded]
    refine ⟨rfl, ⟨begun, item_bringing _ _, List.cons_ne_nil _ _⟩, ?_⟩
    exact ⟨Or.inr (Or.inr (Or.inr hdone)), fun _ => ⟨0, Nat.zero_lt_one, rfl⟩, trivial⟩
  · rintro i ⟨e, he, -, hindex⟩
    have hzero : i = 0 := by
      rw [addedThenDone, List.mem_pair] at he
      rcases he with rfl | rfl <;> exact index_of_bringing hindex
    rw [hzero]
    exact ⟨_, List.mem_cons_of_mem _ List.mem_cons_self, type_bringing _ _, hasIndex_bringing _ _⟩

theorem converges_unchanged : Converges (fun _ => []) (addedThenDone begun begun) := by
  apply (converges_iff (fun _ => []) (itemStream_addedThenDone begun)).mpr
  intro before e after hevents hdone i hindex
  cases before with
  | nil =>
    rw [addedThenDone, List.nil_append, List.cons.injEq] at hevents
    rw [← hevents.1, IsDone, type_bringing] at hdone
    exact absurd hdone (by decide +kernel)
  | cons first before =>
    rw [addedThenDone, List.cons_append, List.cons.injEq] at hevents
    obtain ⟨rfl, hevents⟩ := hevents
    cases before with
    | nil =>
      rw [List.nil_append, List.cons.injEq] at hevents
      obtain ⟨rfl, -⟩ := hevents
      have hadded : IsAdded (bringing (py "response.output_item.added") begun) := type_bringing _ _
      obtain rfl := index_of_bringing hindex
      refine ⟨⟨(tolerated_iff_acceptable (fun _ => []) _ _).mp (tolerated_added _ hadded []), fun _ _ => trivial⟩, ?_⟩
      rw [gather, if_pos hadded, if_pos rfl, gather, item_bringing, item_bringing]
    | cons second before =>
      rw [List.cons_append, List.cons.injEq] at hevents
      exact absurd hevents.2 (by simp)

/-- The output keeps the message as it was added. -/
theorem final_item_dropped : ¬ ∀ (str_ : Val → Str) (events : List Event), ItemStream events → Converges str_ events := by
  intro h
  obtain ⟨output, houtput, hitem⟩ := h (fun _ => []) _ (itemStream_addedThenDone complete)
    [bringing (py "response.output_item.added") begun] _ [] rfl (type_bringing _ _) 0 (hasIndex_bringing _ _)
  have hadded : IsAdded (bringing (py "response.output_item.added") begun) := type_bringing _ _
  rw [List.singleton_append, outputs, reply_added _ hadded (item_bringing _ _) (List.cons_ne_nil _ _),
    Option.bind_some, outputs, reply_done _ (type_bringing _ _), Option.bind_some, outputs,
    Option.some.injEq] at houtput
  rw [← houtput, item_bringing, List.nil_append, List.getElem?_cons_zero, Option.some.injEq] at hitem
  exact absurd (congrArg (fun item => item.items.length) hitem) (by decide +kernel)

end Responses
end MaterialOpenWebui
