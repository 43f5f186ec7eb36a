import MaterialOpenWebui.Anthropic.Table
import Mathlib.Data.List.TakeWhile

/-!
# `Anthropic.Arguments` — when the arguments of tool calls arrive whole

Line by line the deltas are read up to the first exception, and what follows the loop sends no fragment that was lost. So
what is sent for a call is what its entry has sent in the end, and that are its arguments exactly if they are kept.
-/

namespace MaterialOpenWebui
namespace Anthropic
open Py Raising
open Responses (iterate)

section
variable {loads : Str → Option Val} {s : Stream} {a : Assigned}

/-! ## A chunk -/

/-- All the deltas were read, or an exception was raised after them. -/
def Handles (loads : Str → Option Val) (a : Assigned) (cs : List ToolCall) (complete : Bool)
    (r : Except Stream Stream) : Prop :=
  if complete then ∃ s', r = .ok s' ∧ Tracks loads s' (cs.foldl Assigned.add a)
  else ∃ s', r = .error s' ∧ Late loads s' (cs.foldl Assigned.add a)

theorem handles_tool_calls (h : Tracks loads s a) (calls : List Val) :
    Handles loads a ((calls.takeWhile wellTyped).filterMap toolCall?) (calls.all wellTyped)
      (calls.foldlM (handle_tool_call loads) s) := by
  induction calls generalizing s a with
  | nil => exact ⟨s, rfl, h⟩
  | cons tool_call calls ih =>
    rw [List.foldlM_cons, List.all_cons]
    cases htyped : wellTyped tool_call with
    | false =>
      obtain ⟨s', herror, hlate⟩ := late_handle_tool_call h htyped
      rw [List.takeWhile_cons_of_neg (by rw [htyped]; exact Bool.false_ne_true), herror, Bool.false_and]
      exact ⟨s', rfl, hlate⟩
    | true =>
      have hsome : ∃ c, toolCall? tool_call = some c := by
        cases hc : toolCall? tool_call with
        | none =>
          rw [wellTyped, hc] at htyped
          cases htyped
        | some c => exact ⟨c, rfl⟩
      obtain ⟨c, hc⟩ := hsome
      obtain ⟨s', hok, htracks⟩ := tracks_handle_tool_call h hc htyped
      rw [List.takeWhile_cons_of_pos htyped, List.filterMap_cons_some hc, hok, Bool.true_and]
      exact ih htracks

theorem Tracks.quiet {s' : Stream} (h : Tracks loads s a) (hquiet : Quiet s s') : Tracks loads s' a where
  agrees := h.agrees.quiet hquiet
  index := hquiet.index ▸ h.index
  known := by
    rw [hquiet.index, hquiet.tracked]
    exact h.known
  drawn := hquiet.drawn.trans h.drawn
  fresh := by
    rw [hquiet.drawn, hquiet.tracked]
    exact h.fresh

theorem quiet_close_thinking_block (s : Stream) : Quiet s (close_thinking_block s) := by
  unfold close_thinking_block
  split
  · exact Quiet.of_emit ⟨fun _ => rfl, fun _ => rfl⟩ rfl rfl rfl (Nat.le_succ _) rfl
  · exact Quiet.refl s

theorem quiet_close_text_block (s : Stream) : Quiet s (close_text_block s) := by
  unfold close_text_block
  split
  · exact Quiet.of_emit ⟨fun _ => rfl, fun _ => rfl⟩ rfl rfl rfl (Nat.le_succ _) rfl
  · exact Quiet.refl s

theorem quiet_open_thinking_block (s : Stream) : Quiet s (open_thinking_block s) := by
  unfold open_thinking_block
  split
  · exact Quiet.refl s
  · exact Quiet.of_emit ⟨fun _ => rfl, fun _ => rfl⟩ rfl rfl rfl (Nat.le_refl _) rfl

theorem quiet_open_text_block (s : Stream) : Quiet s (open_text_block s) := by
  unfold open_text_block
  split
  · exact Quiet.refl s
  · exact Quiet.of_emit ⟨fun _ => rfl, fun _ => rfl⟩ rfl rfl rfl (Nat.le_refl _) rfl

theorem handle_reasoning_eq {delta message reasoning : Val} (h : reasoning_content delta message = some reasoning)
    (s : Stream) : ∃ s', handle_reasoning s delta message = .ok s' ∧ Quiet s s' := by
  unfold handle_reasoning
  rw [h]
  dsimp only
  split
  · refine ⟨_, rfl, (quiet_open_thinking_block s).trans ?_⟩
    exact Quiet.of_emit ⟨fun _ => rfl, fun _ => rfl⟩ rfl rfl rfl (Nat.le_refl _) rfl
  · exact ⟨s, rfl, Quiet.refl s⟩

theorem handle_content_eq (s : Stream) (delta : Val) : ∃ s', handle_content s delta = .ok s' ∧ Quiet s s' := by
  unfold handle_content
  dsimp only
  split
  · refine ⟨_, rfl, ((quiet_close_thinking_block s).trans (quiet_open_text_block _)).trans ?_⟩
    exact Quiet.of_emit ⟨fun _ => rfl, fun _ => rfl⟩ rfl rfl rfl (Nat.le_refl _) rfl
  · exact ⟨s, rfl, Quiet.refl s⟩

/-- The exception that the finish reason may raise comes after the tool calls. -/
theorem Handles.finish {cs : List ToolCall} {complete : Bool} {r : Except Stream Stream} (h : Handles loads a cs complete r)
    (finish_reason : Val) : Handles loads a cs (complete && (key? finish_reason).isSome)
      (r >>= fun s => handle_finish_reason s finish_reason) := by
  cases complete with
  | false =>
    obtain ⟨s', rfl, hlate⟩ := h
    exact ⟨s', rfl, hlate⟩
  | true =>
    obtain ⟨s', rfl, htracks⟩ := h
    show Handles loads a cs (true && (key? finish_reason).isSome) (handle_finish_reason s' finish_reason)
    unfold handle_finish_reason
    cases hkey : key? finish_reason with
    | none =>
      have hnone : finish_reason.isNone = false := by
        cases finish_reason with
        | none => cases hkey
        | _ => rfl
      rw [hnone]
      exact ⟨s', rfl, htracks.late⟩
    | some key =>
      split
      · exact ⟨s', rfl, htracks⟩
      · exact ⟨_, rfl, htracks.quiet ⟨rfl, rfl, rfl, Nat.le_refl _, [], (List.append_nil _).symm, List.forall_mem_nil _⟩⟩

theorem handles_nil (h : Tracks loads s a) : Handles loads a [] true (.ok s) := ⟨s, rfl, h⟩

/-- What a step does that should reach these calls: it handles them, or raises before. -/
def HandlesReached (loads : Str → Option Val) (a : Assigned) (calls : Option (List Val)) (finishes : Bool)
    (r : Except Stream Stream) : Prop :=
  match calls with
  | none => ∃ s', r = .error s' ∧ Late loads s' a
  | some calls =>
    Handles loads a ((calls.takeWhile wellTyped).filterMap toolCall?) (calls.all wellTyped && finishes) r

theorem handles_reached_tool_calls (h : Tracks loads s a) (delta message : Val) :
    HandlesReached loads a
      ((tool_calls delta message).bind fun calls => if calls.truthy then iterate calls else some []) true
      (handle_tool_calls loads s delta message) := by
  unfold handle_tool_calls
  cases tool_calls delta message with
  | none => exact ⟨s, rfl, h.late⟩
  | some calls =>
    rw [Option.bind_some]
    dsimp only
    split
    · have hclosed := h.quiet ((quiet_close_thinking_block s).trans (quiet_close_text_block _))
      cases iterate calls with
      | none => exact ⟨_, rfl, hclosed.late⟩
      | some calls =>
        show Handles loads a _ (calls.all wellTyped && true) _
        rw [Bool.and_true]
        exact handles_tool_calls hclosed calls
    · exact handles_nil h

theorem handles_choice (h : Tracks loads s a) (choice : Val) :
    HandlesReached loads a (reachedChoice choice) (key? (choice.get (py "finish_reason"))).isSome
      (handle_choice loads s choice) := by
  unfold reachedChoice handle_choice
  cases field choice (py "delta") (.dict []) with
  | none => exact ⟨s, rfl, h.late⟩
  | some delta =>
    rw [Option.bind_some]
    dsimp only
    cases hreasoning : reasoning_content delta ((choice.get (py "message")).or (.dict [])) with
    | none =>
      have herror : handle_reasoning s delta ((choice.get (py "message")).or (.dict [])) = .error s := by
        rw [handle_reasoning, hreasoning]
      rw [herror]
      exact ⟨s, rfl, h.late⟩
    | some reasoning =>
      obtain ⟨s₁, hok₁, hquiet₁⟩ := handle_reasoning_eq hreasoning s
      obtain ⟨s₂, hok₂, hquiet₂⟩ := handle_content_eq s₁ delta
      have hcalls := handles_reached_tool_calls (h.quiet (hquiet₁.trans hquiet₂)) delta
        ((choice.get (py "message")).or (.dict []))
      rw [Option.bind_some, hok₁]
      show HandlesReached loads a _ _ (handle_content s₁ delta >>= _)
      rw [hok₂]
      show HandlesReached loads a _ _ (handle_tool_calls loads s₂ delta _ >>= _)
      cases hreached : (tool_calls delta ((choice.get (py "message")).or (.dict []))).bind fun calls =>
          if calls.truthy then iterate calls else some [] with
      | none =>
        rw [hreached] at hcalls
        obtain ⟨s', herror, hlate⟩ := hcalls
        rw [herror]
        exact ⟨s', rfl, hlate⟩
      | some calls =>
        rw [hreached] at hcalls
        have hcalls : Handles loads a _ (calls.all wellTyped && true) _ := hcalls
        rw [Bool.and_true] at hcalls
        exact hcalls.finish _

theorem isNone_read_usage (round : Rat → Rat) (u u' : Usage) (usage_data : Val) :
    (read_usage round u usage_data).isNone = (read_usage round u' usage_data).isNone := by
  unfold read_usage
  rw [Option.isNone_map, Option.isNone_map]

/-- The first choice is read in the same way with and without a default. -/
theorem first?_field {data choices : Val} (h : field data (py "choices") (.list []) = some choices) :
    first? (data.get (py "choices")) = first? choices := by
  unfold field at h
  split at h
  · rw [Option.some.injEq] at h
    rw [← h, Val.get]
    cases Dict.lookup data.items (py "choices") <;> rfl
  · cases h

theorem first?_of_not_truthy {v : Val} (h : ¬ v.truthy = true) : first? v = none := by
  cases v with
  | list vs =>
    cases vs with
    | nil => rfl
    | cons v vs => exact absurd rfl h
  | _ => rfl

theorem handle_usage_error {round : Rat → Rat} {data usage_data : Val}
    (hfield : field data (py "usage") .none = some usage_data) (hraises : usageRaises round usage_data = true) :
    handle_usage round s data = .error s := by
  rw [usageRaises, Bool.and_eq_true, isNone_read_usage round _ s.usage, Option.isNone_iff_eq_none] at hraises
  rw [handle_usage, hfield]
  dsimp only
  rw [if_pos hraises.1, hraises.2]

theorem handle_usage_ok {round : Rat → Rat} {data usage_data : Val}
    (hfield : field data (py "usage") .none = some usage_data) (hraises : ¬ usageRaises round usage_data = true) :
    ∃ s', handle_usage round s data = .ok s' ∧ Quiet s s' := by
  rw [handle_usage, hfield]
  dsimp only
  by_cases hdict : usage_data.isDict = true
  · rw [usageRaises, hdict, Bool.true_and, isNone_read_usage round _ s.usage] at hraises
    rw [if_pos hdict]
    cases hread : read_usage round s.usage usage_data with
    | none =>
      rw [hread] at hraises
      exact absurd rfl hraises
    | some usage => exact ⟨_, rfl, rfl, rfl, rfl, Nat.le_refl _, [], (List.append_nil _).symm, List.forall_mem_nil _⟩
  · rw [if_neg hdict]
    exact ⟨s, rfl, Quiet.refl s⟩

/-- **What is read of a line.** -/
theorem handles_data (settings : Settings) (h : Tracks settings.loads s a) (data : Val) :
    HandlesReached settings.loads a (reached settings.round data) (finishes data) (handle_data settings s data) := by
  unfold reached handle_data
  cases husage : field data (py "usage") .none with
  | none =>
    have herror : handle_usage settings.round s data = .error s := by rw [handle_usage, husage]
    rw [herror]
    exact ⟨s, rfl, h.late⟩
  | some usage_data =>
    rw [Option.bind_some]
    by_cases hraises : usageRaises settings.round usage_data = true
    · rw [if_pos hraises, handle_usage_error husage hraises]
      exact ⟨s, rfl, h.late⟩
    · obtain ⟨s₁, hok, hquiet⟩ := handle_usage_ok (s := s) husage hraises
      have htracks := h.quiet hquiet
      rw [if_neg hraises, hok]
      cases hchoices : field data (py "choices") (.list []) with
      | none => exact ⟨s₁, rfl, htracks.late⟩
      | some choices =>
        have hfirst := first?_field hchoices
        rw [Option.bind_some]
        show HandlesReached settings.loads a _ _ (handle_choices settings s₁ choices)
        unfold finishes handle_choices
        rw [hfirst]
        by_cases htruthy : choices.truthy = true
        · rw [if_pos htruthy, if_pos htruthy]
          cases first? choices with
          | none => exact ⟨s₁, rfl, htracks.late⟩
          | some choice => exact handles_choice htracks choice
        · rw [if_neg htruthy, if_neg htruthy, first?_of_not_truthy htruthy]
          exact handles_nil htracks

/-- The deltas of a stream are read up to the first exception. -/
theorem handles_documents (settings : Settings) (docs : List Val) {s : Stream} {a : Assigned}
    (h : Tracks settings.loads s a) :
    Late settings.loads (ending (docs.foldlM (handle_data settings) s))
      ((handled settings.round docs).foldl Assigned.add a) := by
  induction docs generalizing s a with
  | nil => exact h.late
  | cons data docs ih =>
    rw [List.foldlM_cons, handled]
    have hdata := handles_data settings h data
    cases hreached : reached settings.round data with
    | none =>
      rw [hreached] at hdata
      obtain ⟨s', herror, hlate⟩ := hdata
      rw [herror]
      exact hlate
    | some calls =>
      rw [hreached] at hdata
      have hdata : Handles settings.loads a _ (calls.all wellTyped && finishes data) _ := hdata
      dsimp only
      rw [List.foldl_append]
      cases hcomplete : calls.all wellTyped && finishes data with
      | false =>
        rw [hcomplete] at hdata
        obtain ⟨s', herror, hlate⟩ := hdata
        rw [herror]
        exact hlate
      | true =>
        rw [hcomplete] at hdata
        obtain ⟨s', hok, htracks⟩ := hdata
        rw [hok]
        exact ih htracks

theorem handle_chunk_eq (settings : Settings) (s : Stream) (chunk : Chunk) :
    handle_chunk settings s chunk = ((lines settings chunk).filterMap (data? settings)).foldlM (handle_data settings) s := by
  unfold handle_chunk
  induction lines settings chunk generalizing s with
  | nil => rfl
  | cons line rest ih =>
    rw [List.foldlM_cons, handle_line]
    cases hdata : data? settings line with
    | none =>
      rw [List.filterMap_cons_none hdata]
      exact ih s
    | some data =>
      rw [List.filterMap_cons_some hdata, List.foldlM_cons]
      exact bind_congr ih

theorem handle_chunks_eq (settings : Settings) (s : Stream) (chunks : List Chunk) :
    chunks.foldlM (handle_chunk settings) s =
      (chunks.flatMap fun chunk => (lines settings chunk).filterMap (data? settings)).foldlM (handle_data settings) s := by
  induction chunks generalizing s with
  | nil => rfl
  | cons chunk chunks ih =>
    rw [List.foldlM_cons, List.flatMap_cons, List.foldlM_append, handle_chunk_eq]
    exact bind_congr ih

/-- An exception of the source comes after all that it sends. -/
theorem ending_consume (settings : Settings) (s : Stream) (source : Source) :
    ending (consume settings s source) = ending ((documents settings source).foldlM (handle_data settings) s) := by
  have hdocs : source.chunks.foldlM (handle_chunk settings) s =
      (documents settings source).foldlM (handle_data settings) s := handle_chunks_eq settings s source.chunks
  rw [consume, hdocs]
  cases (documents settings source).foldlM (handle_data settings) s with
  | error s' => rfl
  | ok s' =>
    show ending (if source.raises then Except.error s' else Except.ok s') = s'
    split <;> rfl

/-! ## The end -/

/-- A call whose block is started late has no arguments. -/
theorem Late.flush_tool (h : Late loads s a) (call : ToolId) : Late loads (flush_tool s call) a := by
  unfold Anthropic.flush_tool
  cases ht : s.tracked_tool_calls.get? call with
  | none => exact h
  | some t =>
    dsimp only
    split
    · rename_i hflush
      rw [Bool.and_eq_true, Bool.not_eq_true'] at hflush
      obtain ⟨m, hagrees, hsent, hpending⟩ := h
      obtain ⟨-, hmatches⟩ := hagrees.tool call t ht
      have hempty : t.arguments = [] := by
        rw [hmatches.arguments]
        exact hpending call (hmatches.named.symm.trans hflush.2) (hmatches.started.symm.trans hflush.1)
      rw [if_neg (not_not_intro hempty)]
      refine ⟨_, hagrees.start ht hflush.1 rfl s.has_tool_calls, ?_, ?_⟩
      · intro call'
        by_cases heq : call' = call
        · subst heq
          rw [Function.update_self]
          exact hsent call'
        · rw [Function.update_of_ne heq]
          exact hsent call'
      · intro call' hnamed hnot
        by_cases heq : call' = call
        · subst heq
          rw [Function.update_self] at hnot
          cases hnot
        · rw [Function.update_of_ne heq] at hnamed hnot ⊢
          exact hpending call' hnamed hnot
    · exact h

theorem Late.flush_each (calls : List ToolId) {s : Stream} (h : Late loads s a) :
    Late loads (calls.foldl Anthropic.flush_tool s) a := by
  induction calls generalizing s with
  | nil => exact h
  | cons call calls ih => exact ih (h.flush_tool call)

theorem quiet_close_tools (tools : List Tool) (s : Stream) : Quiet s (tools.foldl close_tool s) := by
  induction tools generalizing s with
  | nil => exact Quiet.refl s
  | cons tool tools ih =>
    refine Quiet.trans ?_ (ih _)
    unfold close_tool
    split
    · exact quiet_stop s _
    · exact Quiet.refl s

theorem Late.quiet {s' : Stream} (h : Late loads s a) (hquiet : Quiet s s') : Late loads s' a := by
  obtain ⟨m, hagrees, hsent, hpending⟩ := h
  exact ⟨m, hagrees.quiet hquiet, hsent, hpending⟩

theorem quiet_end (s : Stream) (stop_reason : Str) (usage : List (Str × Val)) :
    Quiet s ((s.emit (.message_delta stop_reason usage)).emit .message_stop) := by
  have hdelta : Quiet s (s.emit (.message_delta stop_reason usage)) :=
    Quiet.of_emit ⟨fun _ => rfl, fun _ => rfl⟩ rfl rfl rfl (Nat.le_refl _) rfl
  exact hdelta.trans (Quiet.of_emit ⟨fun _ => rfl, fun _ => rfl⟩ rfl rfl rfl (Nat.le_refl _) rfl)

/-- What is sent for a call in the end. -/
theorem Late.finish (h : Late loads s a) (call : ToolId) :
    partial_json call (finish s).events = (entries loads a.past call).sent := by
  have hclosed := h.quiet (quiet_close_thinking_block s)
  have hflushed : Late loads (flush_tools (close_thinking_block s)) a := hclosed.flush_each _
  have htext := hflushed.quiet (quiet_close_text_block _)
  have htools : Late loads (close_tools (close_text_block (flush_tools (close_thinking_block s)))) a :=
    htext.quiet (quiet_close_tools _ _)
  obtain ⟨m, hagrees, hsent, -⟩ := htools.quiet (quiet_end _ _ _)
  exact (hagrees.sent call).trans (hsent call)

theorem tracks_initial (message_id model : Str) (input_tokens : Val) :
    Tracks loads (initial message_id model input_tokens) ⟨[], 0⟩ where
  agrees :=
    { untracked := fun _ _ => rfl
      tool := fun call t ht => by cases ht
      block := fun call t ht => by cases ht
      noBlock := fun _ _ => rfl
      apart := fun call call' t t' ht => by cases ht
      later := fun _ _ => rfl
      sent := fun _ => rfl }
  index := fun _ => rfl
  known := fun i call hi => by cases hi
  drawn := rfl
  fresh := fun _ _ => rfl

/-- **What is sent for a call is what its deltas have sent that were read.** -/
theorem partial_json_eq (settings : Settings) (source : Source) (message_id model : Str) (input_tokens : Val)
    (call : ToolId) :
    partial_json call (openai_stream_to_anthropic_stream settings source message_id model input_tokens) =
      (Entry.after settings.loads
        (piecesOf call (assign (handled settings.round (documents settings source))).past)).sent := by
  have hlate := handles_documents settings (documents settings source)
    (tracks_initial message_id model input_tokens)
  rw [← ending_consume] at hlate
  exact hlate.finish call

/-! ## When the arguments are kept -/

theorem takeWhile_filterMap_isInit {α β : Type} (p : α → Bool) (f : α → Option β) (l : List α) :
    (l.takeWhile p).filterMap f <+: l.filterMap f := by
  have hprefix : l.takeWhile p <+: l := List.takeWhile_prefix p
  obtain ⟨rest, hrest⟩ := hprefix
  exact ⟨rest.filterMap f, by rw [← List.filterMap_append, hrest]⟩

theorem get_field {v w : Val} {key : Str} (h : field v key (.dict []) = some w) (k : Str) :
    (v.get key).get k = w.get k := by
  unfold field at h
  split at h
  · rw [Option.some.injEq] at h
    rw [← h]
    show ((Dict.lookup v.items key).getD .none).get k = _
    cases Dict.lookup v.items key <;> rfl
  · cases h

theorem get_or_dict (v : Val) (k : Str) : (v.or (.dict [])).get k = v.get k := by
  unfold Val.or
  split
  · rfl
  · rename_i hfalse
    cases v with
    | dict items =>
      cases items with
      | nil => rfl
      | cons p items => exact absurd rfl hfalse
    | _ => rfl

theorem iterate_of_not_truthy {v : Val} (h : ¬ v.truthy = true) : (iterate v).getD [] = [] := by
  cases v with
  | list vs =>
    cases vs with
    | nil => rfl
    | cons v vs => exact absurd rfl h
  | str s =>
    cases s with
    | nil => rfl
    | cons c s => exact absurd (decide_eq_true (List.cons_ne_nil c s)) h
  | dict items =>
    cases items with
    | nil => rfl
    | cons p items => exact absurd rfl h
  | _ => rfl

/-- The tool calls that are reached are those in the data. -/
theorem callsOf_eq {round : Rat → Rat} {data : Val} {calls : List Val} (h : reached round data = some calls) :
    callsOf data = calls := by
  obtain ⟨usage_data, -, h⟩ := Option.bind_eq_some_iff.mp h
  split at h
  · cases h
  obtain ⟨choices, hchoices, h⟩ := Option.bind_eq_some_iff.mp h
  unfold callsOf
  rw [first?_field hchoices]
  split at h
  · obtain ⟨choice, hchoice, h⟩ := Option.bind_eq_some_iff.mp h
    obtain ⟨delta, hdelta, h⟩ := Option.bind_eq_some_iff.mp h
    obtain ⟨-, -, h⟩ := Option.bind_eq_some_iff.mp h
    obtain ⟨tools, htools, h⟩ := Option.bind_eq_some_iff.mp h
    rw [hchoice]
    dsimp only
    rw [get_field hdelta]
    have hsame : (if (delta.get (py "tool_calls")).truthy then delta.get (py "tool_calls")
        else (choice.get (py "message")).get (py "tool_calls")) = tools := by
      unfold tool_calls at htools
      dsimp only at htools
      split at htools
      · rename_i hown
        rw [if_pos hown]
        exact Option.some.inj htools
      · rename_i hown
        split at htools
        · cases htools
        · rw [if_neg hown, ← get_or_dict]
          exact Option.some.inj htools
    rw [hsame]
    split at h
    · rw [h]
      rfl
    · rename_i hfalse
      rw [Option.some.injEq] at h
      rw [← h]
      exact iterate_of_not_truthy hfalse
  · rename_i hfalse
    rw [first?_of_not_truthy hfalse]
    exact Option.some.inj h

/-- What is read is the beginning of what is received. -/
theorem handled_prefix (round : Rat → Rat) (docs : List Val) : handled round docs <+: received docs := by
  induction docs with
  | nil => exact List.prefix_refl _
  | cons data docs ih =>
    rw [handled, received, List.flatMap_cons]
    cases hreached : reached round data with
    | none => exact List.nil_prefix
    | some calls =>
      rw [callsOf_eq hreached]
      dsimp only
      split
      · rename_i hcomplete
        rw [Bool.and_eq_true] at hcomplete
        rw [List.takeWhile_eq_self_iff.mpr (List.all_eq_true.mp hcomplete.1)]
        exact (List.prefix_append_right_inj _).mpr ih
      · rw [List.append_nil]
        exact (takeWhile_filterMap_isInit _ _ _).trans (List.prefix_append _ _)

theorem past_add (a : Assigned) (c : ToolCall) : ∃ call, (a.add c).past = a.past ++ [(c, call)] := by
  unfold Assigned.add
  split
  · exact ⟨_, rfl⟩
  · split <;> exact ⟨_, rfl⟩

/-- What is received later does not change what was assigned. -/
theorem past_prefix (cs : List ToolCall) (a : Assigned) : a.past <+: (cs.foldl Assigned.add a).past := by
  induction cs generalizing a with
  | nil => exact List.prefix_refl _
  | cons c cs ih =>
    obtain ⟨call, hcall⟩ := past_add a c
    exact (hcall ▸ List.prefix_append _ _).trans (ih (a.add c))

theorem piecesOf_prefix {past past' : List (ToolCall × ToolId)} (h : past <+: past') (call : ToolId) :
    piecesOf call past <+: piecesOf call past' := by
  obtain ⟨rest, rfl⟩ := h
  exact ⟨piecesOf call rest, by rw [piecesOf, piecesOf, piecesOf, List.filter_append, List.map_append]⟩

/-- **The arguments that are sent are those that were received exactly if they are kept.** -/
theorem keeps_arguments_iff (settings : Settings) (source : Source) :
    KeepsArguments settings source ↔ Kept settings source := by
  have hprefix : ∀ call, piecesOf call (assign (handled settings.round (documents settings source))).past <+:
      piecesOf call (assign (received (documents settings source))).past := by
    intro call
    obtain ⟨rest, hrest⟩ := handled_prefix settings.round (documents settings source)
    apply piecesOf_prefix
    rw [← hrest, assign, assign, List.foldl_append]
    exact past_prefix rest _
  have hcall : ∀ message_id model input_tokens call,
      partial_json call (openai_stream_to_anthropic_stream settings source message_id model input_tokens) =
        arguments (piecesOf call (assign (received (documents settings source))).past) ↔
      keeps settings.loads false [] (piecesOf call (assign (handled settings.round (documents settings source))).past) ∧
        arguments ((piecesOf call (assign (received (documents settings source))).past).drop
          (piecesOf call (assign (handled settings.round (documents settings source))).past).length) = [] := by
    intro message_id model input_tokens call
    obtain ⟨unread, hunread⟩ := hprefix call
    rw [partial_json_eq, ← hunread, List.drop_left]
    exact sent_eq_iff _ unread
  constructor
  · intro h call pieces read hnamed
    exact (hcall [] [] .none call).mp (h [] [] .none call hnamed)
  · intro h message_id model input_tokens call pieces hnamed
    exact (hcall message_id model input_tokens call).mpr (h call hnamed)

end

/-! ## The exception -/

/-- A chunk with one delta of the tool call `a`. -/
def deltaOf (function : List (Str × Val)) : Val :=
  .dict [(py "choices", .list [.dict [(py "delta", .dict [(py "tool_calls",
    .list [.dict [(py "id", .str (py "a")), (py "function", .dict function)]])])]])]

def deltaText (function : Str) : Str :=
  py "\x7b\"choices\":[\x7b\"delta\":\x7b\"tool_calls\":[\x7b\"id\":\"a\",\"function\":" ++
    function ++ py "\x7d]\x7d\x7d]\x7d"

/-- The first fragment, and then the name with the second. -/
def fragmentText : Str := deltaText (py "\x7b\"arguments\":\"\x7b\"\x7d")

def nameText : Str := deltaText (py "\x7b\"name\":\"f\",\"arguments\":\"\x7d\"\x7d")

def nameLate : Source where
  chunks := [.text (py "data: " ++ fragmentText), .text (py "data: " ++ nameText)]
  raises := false

/-- `json.loads` on the texts of this stream. -/
def nameLateLoads (text : Str) : Option Val :=
  if text = fragmentText then some (deltaOf [(py "arguments", .str (py "\x7b"))])
  else if text = nameText then some (deltaOf [(py "name", .str (py "f")), (py "arguments", .str (py "\x7d"))])
  else if text = py "\x7b\x7d" then some (.dict [])
  else none

def nameLateSettings : Settings where
  decode _ := []
  loads := nameLateLoads
  round x := x

/-- A fragment that comes before the name is lost, though the arguments are a JSON object. -/
theorem fragment_before_name : ¬ ∀ settings source,
    (∀ call ∈ (assign (received (documents settings source))).past.map Prod.snd, ∃ items,
      settings.loads (arguments (piecesOf call (assign (received (documents settings source))).past)) =
        some (.dict items)) → KeepsArguments settings source := by
  intro h
  have hcalls : (assign (received (documents nameLateSettings nameLate))).past.map Prod.snd =
      [.given (.str (py "a")), .given (.str (py "a"))] := by
    decide +kernel
  have harguments : arguments (piecesOf (.given (.str (py "a")))
      (assign (received (documents nameLateSettings nameLate))).past) = py "\x7b\x7d" := by
    decide +kernel
  have hobject : nameLateSettings.loads (py "\x7b\x7d") = some (.dict []) := by
    have hfragment : py "\x7b\x7d" ≠ fragmentText := by decide +kernel
    have hname : py "\x7b\x7d" ≠ nameText := by decide +kernel
    show nameLateLoads (py "\x7b\x7d") = _
    rw [nameLateLoads, if_neg hfragment, if_neg hname, if_pos rfl]
  have hnamed : ∃ c ∈ piecesOf (.given (.str (py "a"))) (assign (received (documents nameLateSettings nameLate))).past,
      c.named = true := by
    decide +kernel
  have hkeeps := h nameLateSettings nameLate ?_ [] [] .none (.given (.str (py "a"))) hnamed
  · have hsent : partial_json (.given (.str (py "a")))
        (openai_stream_to_anthropic_stream nameLateSettings nameLate [] [] .none) = py "\x7d" := by
      decide +kernel
    rw [hsent, harguments] at hkeeps
    exact absurd hkeeps (by decide +kernel)
  · intro call hcall
    have hsame : call = .given (.str (py "a")) := by
      rw [hcalls] at hcall
      simpa using hcall
    rw [hsame, harguments]
    exact ⟨[], hobject⟩

end Anthropic
end MaterialOpenWebui
