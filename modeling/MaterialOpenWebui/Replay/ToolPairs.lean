import MaterialOpenWebui.Chats.Store

/-!
# `Replay.ToolPairs` — calls without results, and results without calls

A provider refuses a conversation in which a call is not answered, or an answer was not called for. Two functions drop what is
unpaired: `reconcile_tool_pairs` (`backend/open_webui/utils/misc.py`) from what was stored, and `sanitize_tool_pairs`
(`backend/open_webui/utils/middleware.py`) from what is sent. Both compare with the ids of all messages as they were before
anything is dropped.

One pass is enough all the same: a call is kept exactly if its id is called for and answered, and so is an answer, so nothing
that is dropped takes the other side of a pair along (`reconcile_tool_pairs_law`).

`Replay.Model` has the first of them for the messages that it makes.
-/

namespace MaterialOpenWebui
namespace ToolPairs
open Py
open Chats (field kContent kOutput kType kText get_output_text)

/-! ## Messages -/

/-- A call, with the id it says if any. -/
structure ToolCall (Id : Type) where
  id : Option Id
  others : Obj

structure Message (Id : Type) where
  role : Str
  tool_calls : Option (List (ToolCall Id))
  tool_call_id : Option Id
  /-- The other keys of the dictionary. -/
  others : Obj

def assistant : Str := py "assistant"

def tool : Str := py "tool"

section
variable {Id : Type} [DecidableEq Id]
-- `bool(id)`, and `str(v)` of what is no string
variable (truthy : Id → Bool) (str_ : Val → Str)

/-- `message.get('tool_calls') or ()` -/
def Message.calls (message : Message Id) : List (ToolCall Id) := message.tool_calls.getD []

/-- `id in ids`: what is missing is in no set of ids. -/
def among (id : Option Id) (ids : List Id) : Bool := id.any fun i => decide (i ∈ ids)

/-! ## What is said -/

def isTextPart (item : Val) : Bool := item.isDict && (item.get kType).eq (.str (py "text"))

def get_content_from_message (message : Message Id) : Val :=
  let content := field message.others kContent
  let output_text := get_output_text str_ (field message.others kOutput)
  let fallback : Val := if output_text ≠ [] then .str output_text else if content.text?.isSome then content else .none
  match content with
  | .list items => ((items.find? isTextPart).map (·.get kText)).getD fallback
  | content => if content.truthy then content else fallback

def has_meaningful_content (message : Message Id) : Bool :=
  match (get_content_from_message str_ message).or (.str []) with
  | .str content => strip content ≠ []
  | content => content.truthy

/-! ## The two functions -/

/-- The id of a call or an answer, if it is true. -/
def named (id : Option Id) : List Id := (id.filter truthy).toList

def answeredBy (message : Message Id) : List Id := if message.role = tool then named truthy message.tool_call_id else []

def requestedBy (message : Message Id) : List Id :=
  message.calls.flatMap fun call => if message.role = assistant then named truthy call.id else []

def completed_tool_call_ids (messages : List (Message Id)) : List Id := messages.flatMap (answeredBy truthy)

def requested_tool_call_ids (messages : List (Message Id)) : List Id := messages.flatMap (requestedBy truthy)

/-- One round of the loop of `reconcile_tool_pairs`. -/
def reconcile_message (completed requested : List Id) (message : Message Id) : Option (Message Id) :=
  if message.role = tool ∧ among message.tool_call_id requested = false then none
  else if message.role ≠ assistant ∨ message.calls = [] then some message
  else
    let valid_tool_calls := message.calls.filter fun call => among call.id completed
    if valid_tool_calls ≠ [] then some { message with tool_calls := some valid_tool_calls }
    else if has_meaningful_content str_ message || (field message.others (py "reasoning_content")).truthy then
      some { message with tool_calls := none }
    else none

def reconcile_tool_pairs (messages : List (Message Id)) : List (Message Id) :=
  messages.filterMap (reconcile_message str_ (completed_tool_call_ids truthy messages)
    (requested_tool_call_ids truthy messages))

/-- One round of the loop of `sanitize_tool_pairs`. -/
def sanitize_message (tool_result_ids tool_call_ids : List Id) (message : Message Id) : Option (Message Id) :=
  if message.role = assistant ∧ message.calls ≠ [] then
    let kept := message.calls.filter fun call => among call.id tool_result_ids
    if kept ≠ [] then some { message with tool_calls := some kept }
    else if (field message.others kContent).truthy then
      some { message with tool_calls := none, others := message.others.erase (py "reasoning_items") }
    else none
  else if message.role ≠ tool ∨ among message.tool_call_id tool_call_ids = true then some message
  else none

def sanitize_tool_pairs (messages : List (Message Id)) : List (Message Id) :=
  messages.filterMap (sanitize_message (completed_tool_call_ids truthy messages) (requested_tool_call_ids truthy messages))

/-! ## The ids that are left -/

theorem among_eq_true_iff {id : Option Id} {ids : List Id} : among id ids = true ↔ ∃ i ∈ ids, id = some i := by
  cases id with
  | none =>
    refine iff_of_false Bool.false_ne_true ?_
    rintro ⟨i, -, h⟩
    cases h
  | some i =>
    rw [among, Option.any_some, decide_eq_true_iff]
    constructor
    · intro h
      exact ⟨i, h, rfl⟩
    · rintro ⟨j, hj, h⟩
      rwa [Option.some.inj h]

variable {truthy}

theorem mem_named {id : Option Id} {i : Id} : i ∈ named truthy id ↔ id = some i ∧ truthy i = true := by
  rw [named, Option.mem_toList, Option.filter_eq_some_iff]

theorem mem_completed {messages : List (Message Id)} {i : Id} : i ∈ completed_tool_call_ids truthy messages ↔
    ∃ m ∈ messages, m.role = tool ∧ m.tool_call_id = some i ∧ truthy i = true := by
  rw [completed_tool_call_ids, List.mem_flatMap]
  refine exists_congr fun m => and_congr_right fun _ => ?_
  rw [answeredBy]
  by_cases hrole : m.role = tool
  · rw [if_pos hrole, mem_named]
    exact (and_iff_right hrole).symm
  · rw [if_neg hrole]
    exact iff_of_false List.not_mem_nil fun h => hrole h.1

theorem mem_requested {messages : List (Message Id)} {i : Id} : i ∈ requested_tool_call_ids truthy messages ↔
    ∃ m ∈ messages, m.role = assistant ∧ ∃ call ∈ m.calls, call.id = some i ∧ truthy i = true := by
  rw [requested_tool_call_ids, List.mem_flatMap]
  refine exists_congr fun m => and_congr_right fun _ => ?_
  rw [requestedBy, List.mem_flatMap]
  by_cases hrole : m.role = assistant
  · rw [and_iff_right hrole]
    refine exists_congr fun call => and_congr_right fun _ => ?_
    rw [if_pos hrole, mem_named]
  · refine iff_of_false ?_ fun h => hrole h.1
    rintro ⟨call, -, hcall⟩
    rw [if_neg hrole] at hcall
    cases hcall

omit [DecidableEq Id] in
theorem not_tool_of_assistant {message : Message Id} (h : message.role = assistant) : message.role ≠ tool := by
  rw [h]
  decide

/-- What is kept of a message: it is the message, but for its calls, of which there are those that are answered. -/
structure KeptOf (completed requested : List Id) (m r : Message Id) : Prop where
  same : r = { m with tool_calls := r.tool_calls }
  calls : r.role = assistant → r.calls = m.calls.filter fun call => among call.id completed
  answers : r.role = tool → among r.tool_call_id requested = true

variable {str_}

theorem keptOf_of_reconcile {completed requested : List Id} {m r : Message Id}
    (h : reconcile_message str_ completed requested m = some r) : KeptOf completed requested m r := by
  rw [reconcile_message] at h
  by_cases horphan : m.role = tool ∧ among m.tool_call_id requested = false
  · rw [if_pos horphan] at h
    cases h
  rw [if_neg horphan] at h
  by_cases hplain : m.role ≠ assistant ∨ m.calls = []
  · rw [if_pos hplain] at h
    cases h
    refine ⟨rfl, fun hrole => ?_, fun hrole => ?_⟩
    · rw [hplain.resolve_left (not_not.mpr hrole), List.filter_nil]
    · by_contra hamong
      exact horphan ⟨hrole, (Bool.not_eq_true _).mp hamong⟩
  rw [if_neg hplain] at h
  have hrole : m.role = assistant := by
    by_contra hrole
    exact hplain (Or.inl hrole)
  by_cases hvalid : (m.calls.filter fun call => among call.id completed) ≠ []
  · rw [if_pos hvalid] at h
    cases h
    exact ⟨rfl, fun _ => rfl, fun htool => absurd htool (not_tool_of_assistant hrole)⟩
  · rw [if_neg hvalid] at h
    split at h
    · cases h
      exact ⟨rfl, fun _ => (not_not.mp hvalid).symm, fun htool => absurd htool (not_tool_of_assistant hrole)⟩
    · cases h

/-- An answer that was called for is kept as it is. -/
theorem reconcile_answer {completed requested : List Id} {m : Message Id} (hrole : m.role = tool)
    (h : among m.tool_call_id requested = true) : reconcile_message str_ completed requested m = some m := by
  have hassistant : m.role ≠ assistant := fun hassistant => not_tool_of_assistant hassistant hrole
  rw [reconcile_message, if_neg (fun horphan => by rw [h] at horphan; cases horphan.2), if_pos (Or.inl hassistant)]

/-- A message with a call that is answered is kept, with that call. -/
theorem reconcile_call {completed requested : List Id} {m : Message Id} (hrole : m.role = assistant)
    {call : ToolCall Id} (hcall : call ∈ m.calls) (h : among call.id completed = true) :
    ∃ r, reconcile_message str_ completed requested m = some r ∧ r.role = assistant ∧ call ∈ r.calls := by
  have hmem : call ∈ m.calls.filter fun call => among call.id completed := List.mem_filter.mpr ⟨hcall, h⟩
  refine ⟨{ m with tool_calls := some (m.calls.filter fun call => among call.id completed) }, ?_, hrole, hmem⟩
  rw [reconcile_message, if_neg (fun horphan => not_tool_of_assistant hrole horphan.1), if_neg,
    if_pos (List.ne_nil_of_mem hmem)]
  rintro (hother | hnil)
  · exact hother hrole
  · rw [hnil] at hcall
    cases hcall

/-- **The answers that are left** are those that were called for. -/
theorem mem_completed_reconciled {messages : List (Message Id)} {i : Id} :
    i ∈ completed_tool_call_ids truthy (reconcile_tool_pairs truthy str_ messages) ↔
      i ∈ completed_tool_call_ids truthy messages ∧ i ∈ requested_tool_call_ids truthy messages := by
  constructor
  · intro h
    obtain ⟨r, hr, hrole, hid, htruthy⟩ := mem_completed.mp h
    obtain ⟨m, hm, hkept⟩ := List.mem_filterMap.mp hr
    obtain ⟨hsame, -, hanswers⟩ := keptOf_of_reconcile hkept
    obtain ⟨j, hj, hid'⟩ := among_eq_true_iff.mp (hanswers hrole)
    rw [hid] at hid'
    rw [hsame] at hrole hid
    exact ⟨mem_completed.mpr ⟨m, hm, hrole, hid, htruthy⟩, Option.some.inj hid' ▸ hj⟩
  · rintro ⟨hcompleted, hrequested⟩
    obtain ⟨m, hm, hrole, hid, htruthy⟩ := mem_completed.mp hcompleted
    have hkept := @reconcile_answer Id _ str_ (completed_tool_call_ids truthy messages) _ m hrole
      (among_eq_true_iff.mpr ⟨i, hrequested, hid⟩)
    exact mem_completed.mpr ⟨m, List.mem_filterMap.mpr ⟨m, hm, hkept⟩, hrole, hid, htruthy⟩

/-- **The calls that are left** are those that are answered. -/
theorem mem_requested_reconciled {messages : List (Message Id)} {i : Id} :
    i ∈ requested_tool_call_ids truthy (reconcile_tool_pairs truthy str_ messages) ↔
      i ∈ completed_tool_call_ids truthy messages ∧ i ∈ requested_tool_call_ids truthy messages := by
  constructor
  · intro h
    obtain ⟨r, hr, hrole, call, hcall, hid, htruthy⟩ := mem_requested.mp h
    obtain ⟨m, hm, hkept⟩ := List.mem_filterMap.mp hr
    obtain ⟨hsame, hcalls, -⟩ := keptOf_of_reconcile hkept
    rw [hcalls hrole] at hcall
    obtain ⟨hcall, hamong⟩ := List.mem_filter.mp hcall
    obtain ⟨j, hj, hid'⟩ := among_eq_true_iff.mp hamong
    rw [hid] at hid'
    rw [hsame] at hrole
    exact ⟨Option.some.inj hid' ▸ hj, mem_requested.mpr ⟨m, hm, hrole, call, hcall, hid, htruthy⟩⟩
  · rintro ⟨hcompleted, hrequested⟩
    obtain ⟨m, hm, hrole, call, hcall, hid, htruthy⟩ := mem_requested.mp hrequested
    obtain ⟨r, hkept, hrole', hcall'⟩ :=
      @reconcile_call Id _ str_ _ (requested_tool_call_ids truthy messages) m hrole call hcall
      (among_eq_true_iff.mpr ⟨i, hcompleted, hid⟩)
    exact mem_requested.mpr ⟨r, List.mem_filterMap.mpr ⟨m, hm, hkept⟩, hrole', call, hcall', hid, htruthy⟩

/-! ## Pairs -/

/-- Every answer among the messages is called for, and every call is answered, by ids that are true. -/
structure Settled (truthy : Id → Bool) (messages : List (Message Id)) : Prop where
  answers : ∀ m ∈ messages, m.role = tool → among m.tool_call_id (requested_tool_call_ids truthy messages) = true
  calls : ∀ m ∈ messages, m.role = assistant → ∀ call ∈ m.calls,
    among call.id (completed_tool_call_ids truthy messages) = true

theorem filterMap_eq_self {α : Type} {f : α → Option α} {l : List α} (h : ∀ a ∈ l, f a = some a) : l.filterMap f = l := by
  rw [List.filterMap_congr h, List.filterMap_some]

theorem calls_of_settled {messages : List (Message Id)} (h : Settled truthy messages) {m : Message Id} (hm : m ∈ messages)
    (hrole : m.role = assistant) (hcalls : m.calls ≠ []) :
    ({ m with tool_calls := some (m.calls.filter fun call =>
      among call.id (completed_tool_call_ids truthy messages)) } : Message Id) = m := by
  rw [List.filter_eq_self.mpr (h.calls m hm hrole)]
  obtain ⟨role, tool_calls, tool_call_id, others⟩ := m
  cases tool_calls with
  | none => exact absurd rfl hcalls
  | some calls => rfl

/-- Settled messages are left as they are. -/
theorem reconcile_settled {messages : List (Message Id)} (h : Settled truthy messages) :
    reconcile_tool_pairs truthy str_ messages = messages := by
  apply filterMap_eq_self
  intro m hm
  by_cases hrole : m.role = tool
  · exact reconcile_answer hrole (h.answers m hm hrole)
  · rw [reconcile_message, if_neg (fun horphan => hrole horphan.1)]
    by_cases hplain : m.role ≠ assistant ∨ m.calls = []
    · rw [if_pos hplain]
    · rw [not_or, not_not] at hplain
      have hsame := calls_of_settled h hm hplain.1 hplain.2
      rw [if_neg (by rw [not_or, not_not]; exact hplain), if_pos, hsame]
      rw [List.filter_eq_self.mpr (h.calls m hm hplain.1)]
      exact hplain.2

theorem sanitize_settled {messages : List (Message Id)} (h : Settled truthy messages) :
    sanitize_tool_pairs truthy messages = messages := by
  apply filterMap_eq_self
  intro m hm
  rw [sanitize_message]
  by_cases hcalling : m.role = assistant ∧ m.calls ≠ []
  · have hsame := calls_of_settled h hm hcalling.1 hcalling.2
    rw [if_pos hcalling, if_pos, hsame]
    rw [List.filter_eq_self.mpr (h.calls m hm hcalling.1)]
    exact hcalling.2
  · rw [if_neg hcalling, if_pos]
    by_cases hrole : m.role = tool
    · exact Or.inr (h.answers m hm hrole)
    · exact Or.inl hrole

/-- **One pass settles**: what is left of the ids is the same on both sides. -/
theorem settled_reconciled (messages : List (Message Id)) : Settled truthy (reconcile_tool_pairs truthy str_ messages) := by
  constructor
  · intro r hr hrole
    obtain ⟨m, hm, hkept⟩ := List.mem_filterMap.mp hr
    obtain ⟨hsame, -, hanswers⟩ := keptOf_of_reconcile hkept
    obtain ⟨i, hi, hid⟩ := among_eq_true_iff.mp (hanswers hrole)
    obtain ⟨-, -, -, -, -, -, htruthy⟩ := mem_requested.mp hi
    rw [hsame] at hrole
    have hcompleted : i ∈ completed_tool_call_ids truthy messages := by
      rw [hsame] at hid
      exact mem_completed.mpr ⟨m, hm, hrole, hid, htruthy⟩
    exact among_eq_true_iff.mpr ⟨i, mem_requested_reconciled.mpr ⟨hcompleted, hi⟩, hid⟩
  · intro r hr hrole call hcall
    obtain ⟨m, hm, hkept⟩ := List.mem_filterMap.mp hr
    obtain ⟨hsame, hcalls, -⟩ := keptOf_of_reconcile hkept
    rw [hcalls hrole] at hcall
    obtain ⟨hcall, hamong⟩ := List.mem_filter.mp hcall
    obtain ⟨i, hi, hid⟩ := among_eq_true_iff.mp hamong
    obtain ⟨-, -, -, -, htruthy⟩ := mem_completed.mp hi
    rw [hsame] at hrole
    have hrequested : i ∈ requested_tool_call_ids truthy messages :=
      mem_requested.mpr ⟨m, hm, hrole, call, hcall, hid, htruthy⟩
    exact among_eq_true_iff.mpr ⟨i, mem_completed_reconciled.mpr ⟨hi, hrequested⟩, hid⟩

/-- The ids that assistants' calls say, a missing one too. -/
def Called (messages : List (Message Id)) (id : Option Id) : Prop :=
  ∃ m ∈ messages, m.role = assistant ∧ ∃ call ∈ m.calls, call.id = id

/-- The ids that tool messages say, a missing one too. -/
def Answered (messages : List (Message Id)) (id : Option Id) : Prop :=
  ∃ m ∈ messages, m.role = tool ∧ m.tool_call_id = id

/-- Every call and every answer has an id, and every id is on both sides. -/
structure WellPaired (truthy : Id → Bool) (messages : List (Message Id)) : Prop where
  named : ∀ id, Called messages id ∨ Answered messages id → ∃ i, id = some i ∧ truthy i = true
  paired : ∀ id, Called messages id ↔ Answered messages id

theorem settled_of_wellPaired {messages : List (Message Id)} (h : WellPaired truthy messages) : Settled truthy messages := by
  constructor
  · intro m hm hrole
    have hanswered : Answered messages m.tool_call_id := ⟨m, hm, hrole, rfl⟩
    obtain ⟨i, hid, htruthy⟩ := h.named _ (Or.inr hanswered)
    obtain ⟨m', hm', hrole', call, hcall, hid'⟩ := (h.paired _).mpr hanswered
    exact among_eq_true_iff.mpr ⟨i, mem_requested.mpr ⟨m', hm', hrole', call, hcall, hid'.trans hid, htruthy⟩, hid⟩
  · intro m hm hrole call hcall
    have hcalled : Called messages call.id := ⟨m, hm, hrole, call, hcall, rfl⟩
    obtain ⟨i, hid, htruthy⟩ := h.named _ (Or.inl hcalled)
    obtain ⟨m', hm', hrole', hid'⟩ := (h.paired _).mp hcalled
    exact among_eq_true_iff.mpr ⟨i, mem_completed.mpr ⟨m', hm', hrole', hid'.trans hid, htruthy⟩, hid⟩

theorem paired_of_settled {messages : List (Message Id)} (h : Settled truthy messages) (id : Option Id) :
    Called messages id ↔ Answered messages id := by
  constructor
  · rintro ⟨m, hm, hrole, call, hcall, rfl⟩
    obtain ⟨i, hi, hid⟩ := among_eq_true_iff.mp (h.calls m hm hrole call hcall)
    obtain ⟨m', hm', hrole', hid', -⟩ := mem_completed.mp hi
    exact ⟨m', hm', hrole', hid'.trans hid.symm⟩
  · rintro ⟨m, hm, hrole, rfl⟩
    obtain ⟨i, hi, hid⟩ := among_eq_true_iff.mp (h.answers m hm hrole)
    obtain ⟨m', hm', hrole', call, hcall, hid', -⟩ := mem_requested.mp hi
    exact ⟨m', hm', hrole', call, hcall, hid'.trans hid.symm⟩

/-- What says something is kept, unless it is an answer. -/
theorem reconcile_said {completed requested : List Id} {m : Message Id} (hrole : m.role ≠ tool) {s : Str}
    (hcontent : field m.others kContent = .str s) (hblank : strip s ≠ []) :
    (reconcile_message str_ completed requested m).isSome = true := by
  have hmeaningful : has_meaningful_content str_ m = true := by
    have hne : s ≠ [] := by
      rintro rfl
      exact hblank rfl
    have htruthy : (Val.str s).truthy = true := by simpa [Val.truthy] using hne
    have hsaid : get_content_from_message str_ m = .str s := by
      rw [get_content_from_message, hcontent]
      exact if_pos htruthy
    rw [has_meaningful_content, hsaid, Val.or, if_pos htruthy]
    exact decide_eq_true hblank
  rw [reconcile_message, if_neg (fun horphan => hrole horphan.1)]
  split
  · rfl
  · dsimp only
    split
    · rfl
    · rw [hmeaningful, Bool.true_or, if_pos rfl]
      rfl

/-- **Reconciling**: the two sides say the same ids afterwards, a second pass changes nothing, nor does a pass over messages
    that are paired; what is kept is in its order and the same but for its calls; a text that is not blank is kept; and
    `sanitize_tool_pairs` finds nothing left to do. -/
theorem reconcile_tool_pairs_law (truthy : Id → Bool) (str_ : Val → Str) (messages : List (Message Id)) :
    (∀ id, Called (reconcile_tool_pairs truthy str_ messages) id ↔
        Answered (reconcile_tool_pairs truthy str_ messages) id) ∧
      reconcile_tool_pairs truthy str_ (reconcile_tool_pairs truthy str_ messages) =
        reconcile_tool_pairs truthy str_ messages ∧
      (WellPaired truthy messages → reconcile_tool_pairs truthy str_ messages = messages) ∧
      (∃ keep : Message Id → Option (Message Id), reconcile_tool_pairs truthy str_ messages = messages.filterMap keep ∧
        (∀ m r, keep m = some r → r = { m with tool_calls := r.tool_calls }) ∧
        ∀ m ∈ messages, m.role ≠ tool → ∀ s, field m.others kContent = .str s → strip s ≠ [] → (keep m).isSome = true) ∧
      sanitize_tool_pairs truthy (reconcile_tool_pairs truthy str_ messages) =
        reconcile_tool_pairs truthy str_ messages := by
  have hsettled := @settled_reconciled Id _ truthy str_ messages
  refine ⟨paired_of_settled hsettled, reconcile_settled hsettled, fun h => reconcile_settled (settled_of_wellPaired h), ?_,
    sanitize_settled hsettled⟩
  refine ⟨_, rfl, fun m r h => (keptOf_of_reconcile h).same, ?_⟩
  intro m _ hrole s hcontent hblank
  exact reconcile_said hrole hcontent hblank

end

end ToolPairs
end MaterialOpenWebui
