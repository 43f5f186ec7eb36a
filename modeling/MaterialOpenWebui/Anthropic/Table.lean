import MaterialOpenWebui.Anthropic.Fragments

/-!
# `Anthropic.Table` — the table of tool calls, call by call

The table of tool calls is, call by call, what an `Entry` says: a delta changes the entry of the call that it belongs to and
no other, and all else that the converter does leaves the entries as they are.
-/

namespace MaterialOpenWebui
namespace Anthropic
open Py

/-! ## Agreement -/

/-- A tracked tool call is as its entry says. -/
structure Matches (t : Tool) (e : Entry) : Prop where
  named : t.name.truthy = e.named
  started : t.started = e.started
  arguments : t.arguments = e.arguments
  stopped : t.stopped = e.stopped

/-- The table and the events are as the entries say. -/
structure Agrees (s : Stream) (m : ToolId → Entry) : Prop where
  untracked : ∀ call, s.tracked_tool_calls.get? call = none → m call = .initial
  tool : ∀ call t, s.tracked_tool_calls.get? call = some t → t.id = call ∧ Matches t (m call)
  block : ∀ call t, s.tracked_tool_calls.get? call = some t → t.started = true →
    blockOf call s.events = some t.block_index ∧ t.block_index < s.current_block_index
  noBlock : ∀ call, (m call).started = false → blockOf call s.events = none
  apart : ∀ call call' t t', s.tracked_tool_calls.get? call = some t → s.tracked_tool_calls.get? call' = some t' →
    t.started = true → t'.started = true → t.block_index = t'.block_index → call = call'
  later : ∀ i, s.current_block_index ≤ i → s.events.flatMap (partialOf i) = []
  sent : ∀ call, partial_json call s.events = (m call).sent

/-- An event that has nothing to do with tool calls, or stops a block. -/
def Event.IsQuiet (e : Event) : Prop := (∀ call, startOf call e = none) ∧ ∀ i, partialOf i e = []

/-- What the converter does besides the tool calls. -/
structure Quiet (s s' : Stream) : Prop where
  tracked : s'.tracked_tool_calls = s.tracked_tool_calls
  index : s'.index_to_tool_id = s.index_to_tool_id
  drawn : s'.drawn = s.drawn
  current : s.current_block_index ≤ s'.current_block_index
  events : ∃ es, s'.events = s.events ++ es ∧ ∀ e ∈ es, e.IsQuiet

theorem Quiet.refl (s : Stream) : Quiet s s :=
    ⟨rfl, rfl, rfl, Nat.le_refl _, [], (List.append_nil _).symm, List.forall_mem_nil _⟩

theorem Quiet.trans {s s' s'' : Stream} (h : Quiet s s') (h' : Quiet s' s'') : Quiet s s'' := by
  obtain ⟨es, hes, hquiet⟩ := h.events
  obtain ⟨es', hes', hquiet'⟩ := h'.events
  refine ⟨h'.tracked.trans h.tracked, h'.index.trans h.index, h'.drawn.trans h.drawn,
    Nat.le_trans h.current h'.current, es ++ es', ?_, ?_⟩
  · rw [hes', hes, List.append_assoc]
  · intro e he
    exact (List.mem_append.mp he).elim (hquiet e) (hquiet' e)

/-- One quiet event, with flags and the running number changed. -/
theorem Quiet.of_emit {s s' : Stream} {e : Event} (he : e.IsQuiet) (htracked : s'.tracked_tool_calls = s.tracked_tool_calls)
    (hindex : s'.index_to_tool_id = s.index_to_tool_id) (hdrawn : s'.drawn = s.drawn)
    (hcurrent : s.current_block_index ≤ s'.current_block_index) (hevents : s'.events = s.events ++ [e]) : Quiet s s' := by
  refine ⟨htracked, hindex, hdrawn, hcurrent, [e], hevents, ?_⟩
  intro e' he'
  rw [List.mem_singleton.mp he']
  exact he

theorem blockOf_append (call : ToolId) (events es : List Event) :
    blockOf call (events ++ es) = (blockOf call events).or (blockOf call es) := List.findSome?_append

theorem blockOf_quiet {call : ToolId} {es : List Event} (h : ∀ e ∈ es, e.IsQuiet) : blockOf call es = none :=
  List.findSome?_eq_none_iff.mpr fun e he => (h e he).1 call

theorem partials_quiet {i : Nat} {es : List Event} (h : ∀ e ∈ es, e.IsQuiet) : es.flatMap (partialOf i) = [] :=
  List.flatMap_eq_nil_iff.mpr fun e he => (h e he).2 i

theorem Agrees.quiet {s s' : Stream} {m : ToolId → Entry} (h : Agrees s m) (hquiet : Quiet s s') : Agrees s' m := by
  obtain ⟨es, hes, hes'⟩ := hquiet.events
  have hblock : ∀ call, blockOf call s'.events = blockOf call s.events := by
    intro call
    rw [hes, blockOf_append, blockOf_quiet hes', Option.or_none]
  have hpartials : ∀ i, s'.events.flatMap (partialOf i) = s.events.flatMap (partialOf i) := by
    intro i
    rw [hes, List.flatMap_append, partials_quiet hes', List.append_nil]
  refine
    { untracked := fun call => hquiet.tracked ▸ h.untracked call
      tool := fun call t => hquiet.tracked ▸ h.tool call t
      block := ?_
      noBlock := fun call hstarted => (hblock call).trans (h.noBlock call hstarted)
      apart := fun call call' t t' => hquiet.tracked ▸ h.apart call call' t t'
      later := fun i hi => (hpartials i).trans (h.later i (Nat.le_trans hquiet.current hi))
      sent := ?_ }
  · intro call t ht hstarted
    rw [hquiet.tracked] at ht
    obtain ⟨hstart, hlt⟩ := h.block call t ht hstarted
    exact ⟨(hblock call).trans hstart, Nat.lt_of_lt_of_le hlt hquiet.current⟩
  · intro call
    rw [← h.sent call, partial_json, partial_json, hblock]
    cases blockOf call s.events with
    | none => rfl
    | some i => exact hpartials i

/-! ## Changes of the table -/

section
variable {s : Stream} {m : ToolId → Entry} {call : ToolId}

/-- A change of a tool call that leaves its block, and what was sent in it. -/
theorem Agrees.track (h : Agrees s m) {tool : Tool} {e : Entry} (hid : tool.id = call) (hmatches : Matches tool e)
    (hstarted : e.started = (m call).started) (hsent : e.sent = (m call).sent)
    (hindex : ∀ t, s.tracked_tool_calls.get? call = some t → tool.block_index = t.block_index) :
    Agrees (s.track call tool) (Function.update m call e) := by
  have hget : ∀ call', (s.track call tool).tracked_tool_calls.get? call' =
      if call' = call then some tool else s.tracked_tool_calls.get? call' := fun _ => Dict.get?_set _ _ _ _
  -- a started tool call was tracked before, and with the same block
  have hback : ∀ call' t', (s.track call tool).tracked_tool_calls.get? call' = some t' → t'.started = true →
      ∃ t, s.tracked_tool_calls.get? call' = some t ∧ t.started = true ∧ t.block_index = t'.block_index := by
    intro call' t' ht' hstarted'
    rw [hget] at ht'
    split at ht'
    · rename_i heq
      subst heq
      cases ht'
      rw [hmatches.started, hstarted] at hstarted'
      cases hold : s.tracked_tool_calls.get? call' with
      | none =>
        rw [h.untracked call' hold] at hstarted'
        cases hstarted'
      | some t => exact ⟨t, rfl, (h.tool call' t hold).2.started.trans hstarted', (hindex t hold).symm⟩
    · exact ⟨t', ht', hstarted', rfl⟩
  refine
    { untracked := ?_
      tool := ?_
      block := ?_
      noBlock := ?_
      apart := ?_
      later := h.later
      sent := ?_ }
  · intro call' hnone
    rw [hget] at hnone
    split at hnone
    · cases hnone
    · rename_i hne
      rw [Function.update_of_ne hne]
      exact h.untracked call' hnone
  · intro call' t' ht'
    rw [hget] at ht'
    split at ht'
    · rename_i heq
      subst heq
      cases ht'
      rw [Function.update_self]
      exact ⟨hid, hmatches⟩
    · rename_i hne
      rw [Function.update_of_ne hne]
      exact h.tool call' t' ht'
  · intro call' t' ht' hstarted'
    obtain ⟨t, ht, hwas, hsame⟩ := hback call' t' ht' hstarted'
    rw [← hsame]
    exact h.block call' t ht hwas
  · intro call' hnot
    apply h.noBlock
    by_cases heq : call' = call
    · subst heq
      rw [Function.update_self] at hnot
      exact hstarted.symm.trans hnot
    · rw [Function.update_of_ne heq] at hnot
      exact hnot
  · intro call₁ call₂ t₁ t₂ h₁ h₂ hstarted₁ hstarted₂ heq
    obtain ⟨u₁, hu₁, hwas₁, hsame₁⟩ := hback call₁ t₁ h₁ hstarted₁
    obtain ⟨u₂, hu₂, hwas₂, hsame₂⟩ := hback call₂ t₂ h₂ hstarted₂
    exact h.apart call₁ call₂ u₁ u₂ hu₁ hu₂ hwas₁ hwas₂ (hsame₁.trans (heq.trans hsame₂.symm))
  · intro call'
    refine (h.sent call').trans ?_
    by_cases heq : call' = call
    · subst heq
      rw [Function.update_self]
      exact hsent.symm
    · rw [Function.update_of_ne heq]

theorem blockOf_start (call : ToolId) (i : Nat) (id : ToolId) (name : Val) :
    blockOf call [.content_block_start i (.tool_use id name)] = if id = call then some i else none := by
  rw [blockOf, List.findSome?_singleton]
  rfl

/-- The block of a tool call is started. -/
theorem Agrees.start (h : Agrees s m) {t tool : Tool} (ht : s.tracked_tool_calls.get? call = some t)
    (hnot : t.started = false) (htool : tool = { t with block_index := s.current_block_index, started := true })
    (has_tool_calls : Bool) :
    Agrees { (s.track call tool).emit (.content_block_start s.current_block_index (.tool_use tool.id tool.name)) with
      current_block_index := s.current_block_index + 1, has_tool_calls := has_tool_calls }
      (Function.update m call { m call with started := true }) := by
  have hid : tool.id = call := by
    rw [htool]
    exact (h.tool call t ht).1
  have hmatches : Matches tool { m call with started := true } := by
    obtain ⟨-, hmatches⟩ := h.tool call t ht
    rw [htool]
    exact ⟨hmatches.named, rfl, hmatches.arguments, hmatches.stopped⟩
  have hwas : (m call).started = false := (h.tool call t ht).2.started.symm.trans hnot
  have hindex : tool.block_index = s.current_block_index := by rw [htool]
  have hget : ∀ call', (s.track call tool).tracked_tool_calls.get? call' =
      if call' = call then some tool else s.tracked_tool_calls.get? call' := fun _ => Dict.get?_set _ _ _ _
  have hblock : ∀ call', blockOf call' (s.events ++
      [.content_block_start s.current_block_index (.tool_use tool.id tool.name)]) =
        (blockOf call' s.events).or (if call = call' then some s.current_block_index else none) := by
    intro call'
    rw [blockOf_append, blockOf_start, hid]
  have hpartials : ∀ i, (s.events ++
      [Event.content_block_start s.current_block_index (.tool_use tool.id tool.name)]).flatMap (partialOf i) =
        s.events.flatMap (partialOf i) := by
    intro i
    rw [List.flatMap_append, List.flatMap_singleton]
    exact List.append_nil _
  refine
    { untracked := ?_
      tool := ?_
      block := ?_
      noBlock := ?_
      apart := ?_
      later := ?_
      sent := ?_ }
  · intro call' hnone
    change (s.track call tool).tracked_tool_calls.get? call' = none at hnone
    rw [hget] at hnone
    split at hnone
    · cases hnone
    · rename_i hne
      rw [Function.update_of_ne hne]
      exact h.untracked call' hnone
  · intro call' t' ht'
    change (s.track call tool).tracked_tool_calls.get? call' = some t' at ht'
    rw [hget] at ht'
    split at ht'
    · rename_i heq
      subst heq
      cases ht'
      rw [Function.update_self]
      exact ⟨hid, hmatches⟩
    · rename_i hne
      rw [Function.update_of_ne hne]
      exact h.tool call' t' ht'
  · intro call' t' ht' hstarted
    change (s.track call tool).tracked_tool_calls.get? call' = some t' at ht'
    rw [hget] at ht'
    refine ⟨(hblock call').trans ?_, ?_⟩
    · split at ht'
      · rename_i heq
        subst heq
        cases ht'
        rw [h.noBlock call' hwas, if_pos rfl, Option.none_or, hindex]
      · rw [(h.block call' t' ht' hstarted).1, Option.some_or]
    · split at ht'
      · cases ht'
        rw [hindex]
        exact Nat.lt_succ_self _
      · exact Nat.lt_succ_of_lt (h.block call' t' ht' hstarted).2
  · intro call' hnone
    by_cases heq : call' = call
    · subst heq
      rw [Function.update_self] at hnone
      cases hnone
    · rw [Function.update_of_ne heq] at hnone
      refine (hblock call').trans ?_
      rw [h.noBlock call' hnone, if_neg fun heq' => heq heq'.symm]
      rfl
  · intro call₁ call₂ t₁ t₂ h₁ h₂ hstarted₁ hstarted₂ heq
    have hne : ∀ call' t', s.tracked_tool_calls.get? call' = some t' → t'.started = true →
        t'.block_index ≠ tool.block_index := by
      intro call' t' ht' hstarted
      rw [hindex]
      exact Nat.ne_of_lt (h.block call' t' ht' hstarted).2
    change (s.track call tool).tracked_tool_calls.get? call₁ = some t₁ at h₁
    change (s.track call tool).tracked_tool_calls.get? call₂ = some t₂ at h₂
    rw [hget] at h₁ h₂
    split at h₁
    · rename_i heq₁
      split at h₂
      · rename_i heq₂
        rw [heq₁, heq₂]
      · cases h₁
        exact absurd heq.symm (hne call₂ t₂ h₂ hstarted₂)
    · split at h₂
      · cases h₂
        exact absurd heq (hne call₁ t₁ h₁ hstarted₁)
      · exact h.apart call₁ call₂ t₁ t₂ h₁ h₂ hstarted₁ hstarted₂ heq
  · intro i hi
    change s.current_block_index + 1 ≤ i at hi
    exact (hpartials i).trans (h.later i (Nat.le_of_succ_le hi))
  · intro call'
    show partial_json call' (s.events ++ [_]) = _
    rw [partial_json, hblock]
    by_cases heq : call' = call
    · -- nothing was sent in the block before it was started
      subst heq
      rw [Function.update_self, h.noBlock call' hwas, if_pos rfl, Option.none_or, ← h.sent call', partial_json,
        h.noBlock call' hwas]
      exact (hpartials _).trans (h.later _ (Nat.le_refl _))
    · rw [Function.update_of_ne heq, if_neg fun heq' => heq heq'.symm, Option.or_none, ← h.sent call', partial_json]
      cases blockOf call' s.events with
      | none => rfl
      | some i => exact hpartials i

/-- A tool call that has a block is tracked, with that block. -/
theorem Agrees.tracked_of_blockOf (h : Agrees s m) {i : Nat} (hblock : blockOf call s.events = some i) :
    ∃ t, s.tracked_tool_calls.get? call = some t ∧ t.started = true ∧ t.block_index = i := by
  have hstarted : (m call).started = true := by
    cases hstarted : (m call).started with
    | true => rfl
    | false =>
      rw [h.noBlock call hstarted] at hblock
      cases hblock
  cases ht : s.tracked_tool_calls.get? call with
  | none =>
    rw [h.untracked call ht] at hstarted
    cases hstarted
  | some t =>
    have hwas := (h.tool call t ht).2.started.trans hstarted
    refine ⟨t, rfl, hwas, ?_⟩
    rw [(h.block call t ht hwas).1] at hblock
    exact Option.some.inj hblock

/-- A fragment is sent in the block of its call. -/
theorem Agrees.send (h : Agrees s m) {t : Tool} (ht : s.tracked_tool_calls.get? call = some t) (hstarted : t.started = true)
    (fragment : Str) : Agrees (s.emit (.content_block_delta t.block_index (.input_json_delta fragment)))
      (Function.update m call { m call with sent := (m call).sent ++ fragment }) := by
  obtain ⟨hblock, hlt⟩ := h.block call t ht hstarted
  have hblocks : ∀ call', blockOf call' (s.events ++
      [.content_block_delta t.block_index (.input_json_delta fragment)]) = blockOf call' s.events := by
    intro call'
    rw [blockOf_append]
    exact Option.or_none
  have hpartials : ∀ i, (s.events ++
      [Event.content_block_delta t.block_index (.input_json_delta fragment)]).flatMap (partialOf i) =
        s.events.flatMap (partialOf i) ++ if t.block_index = i then fragment else [] := by
    intro i
    rw [List.flatMap_append, List.flatMap_singleton]
    rfl
  refine
    { untracked := ?_
      tool := ?_
      block := fun call' t' ht' hstarted' => ⟨(hblocks call').trans (h.block call' t' ht' hstarted').1,
        (h.block call' t' ht' hstarted').2⟩
      noBlock := ?_
      apart := h.apart
      later := ?_
      sent := ?_ }
  · intro call' hnone
    have hne : call' ≠ call := by
      rintro rfl
      have hnone : s.tracked_tool_calls.get? call' = none := hnone
      rw [ht] at hnone
      cases hnone
    rw [Function.update_of_ne hne]
    exact h.untracked call' hnone
  · intro call' t' ht'
    obtain ⟨hid, hmatches⟩ := h.tool call' t' ht'
    by_cases heq : call' = call
    · subst heq
      rw [Function.update_self]
      exact ⟨hid, hmatches.named, hmatches.started, hmatches.arguments, hmatches.stopped⟩
    · rw [Function.update_of_ne heq]
      exact ⟨hid, hmatches⟩
  · intro call' hnot
    refine (hblocks call').trans (h.noBlock call' ?_)
    by_cases heq : call' = call
    · subst heq
      rw [Function.update_self] at hnot
      exact hnot
    · rw [Function.update_of_ne heq] at hnot
      exact hnot
  · intro i hi
    change s.current_block_index ≤ i at hi
    refine (hpartials i).trans ?_
    rw [h.later i hi, if_neg (Nat.ne_of_lt (Nat.lt_of_lt_of_le hlt hi))]
    rfl
  · intro call'
    show partial_json call' (s.events ++ [_]) = _
    rw [partial_json, hblocks]
    by_cases heq : call' = call
    · subst heq
      rw [Function.update_self, ← h.sent call', partial_json, hblock]
      exact (hpartials _).trans (by rw [if_pos rfl])
    · rw [Function.update_of_ne heq, ← h.sent call', partial_json]
      cases hblock' : blockOf call' s.events with
      | none => rfl
      | some i =>
        -- the block of another call is another
        obtain ⟨t', ht', hstarted', hindex⟩ := h.tracked_of_blockOf hblock'
        have hne : t.block_index ≠ i := by
          intro hsame
          exact heq (h.apart call' call t' t ht' ht hstarted' hstarted (hindex.trans hsame.symm))
        refine (hpartials i).trans ?_
        rw [if_neg hne, List.append_nil]

end

/-! ## A delta -/

/-- What is known of each call. -/
def entries (loads : Str → Option Val) (past : List (ToolCall × ToolId)) (call : ToolId) : Entry :=
  Entry.after loads (piecesOf call past)

theorem entries_append (loads : Str → Option Val) (past : List (ToolCall × ToolId)) (c : ToolCall) (call : ToolId) :
    entries loads (past ++ [(c, call)]) =
      Function.update (entries loads past) call ((entries loads past call).add loads c) := by
  funext call'
  by_cases heq : call' = call
  · subst heq
    rw [Function.update_self, entries, piecesOf, List.filter_append, List.filter_singleton, decide_eq_true rfl,
      List.map_append]
    exact List.foldl_append
  · rw [Function.update_of_ne heq, entries, piecesOf, List.filter_append, List.filter_singleton,
      decide_eq_false fun heq' => heq heq'.symm]
    exact congrArg _ (congrArg (List.map Prod.fst) (List.append_nil _))

theorem latest_append (past : List (ToolCall × ToolId)) (c : ToolCall) (call : ToolId) (index : Option Key) :
    latest (past ++ [(c, call)]) index = if key? c.index = index then some call else latest past index :=
  List.foldl_append

section
variable {loads : Str → Option Val} {s : Stream} {a : Assigned} {c : ToolCall}

/-- The table is what the deltas so far have made of it. -/
structure Tracks (loads : Str → Option Val) (s : Stream) (a : Assigned) : Prop where
  agrees : Agrees s (entries loads a.past)
  index : ∀ i, s.index_to_tool_id.get? i = latest a.past (some i)
  known : ∀ i call, s.index_to_tool_id.get? i = some call → ∃ t, s.tracked_tool_calls.get? call = some t
  drawn : s.drawn = a.drawn
  fresh : ∀ n, s.drawn ≤ n → s.tracked_tool_calls.get? (.fallback n) = none

/-- The call of a delta is found, and tracked if it was not. -/
structure Located (loads : Str → Option Val) (a : Assigned) (c : ToolCall) (s : Stream) (call : ToolId) : Prop where
  assigned : a.add c = ⟨a.past ++ [(c, call)], s.drawn⟩
  tracked : ∃ t, s.tracked_tool_calls.get? call = some t
  agrees : ∃ e, Agrees s (Function.update (entries loads a.past) call e) ∧
    e.name c.named = (entries loads a.past call).name c.named
  index : ∀ i, s.index_to_tool_id.get? i = latest (a.past ++ [(c, call)]) (some i)
  known : ∀ i call, s.index_to_tool_id.get? i = some call → ∃ t, s.tracked_tool_calls.get? call = some t
  fresh : ∀ n, s.drawn ≤ n → s.tracked_tool_calls.get? (.fallback n) = none

/-- A call that is tracked for the first time. -/
theorem Agrees.track_new {m : ToolId → Entry} (h : Agrees s m) {call : ToolId}
    (hnew : s.tracked_tool_calls.get? call = none) (name : Val) :
    Agrees (s.track call (newTool call name)) (Function.update m call (Entry.initial.name name.truthy)) := by
  have hinitial := h.untracked call hnew
  have hid : (newTool call name).id = call := rfl
  apply h.track hid
  · exact ⟨rfl, rfl, rfl, rfl⟩
  · rw [hinitial]
    rfl
  · rw [hinitial]
    rfl
  · intro t ht
    rw [hnew] at ht
    cases ht

theorem known_track (h : ∀ i call, s.index_to_tool_id.get? i = some call → ∃ t, s.tracked_tool_calls.get? call = some t)
    (call : ToolId) (tool : Tool) : ∀ i call', s.index_to_tool_id.get? i = some call' →
      ∃ t, (s.track call tool).tracked_tool_calls.get? call' = some t := by
  intro i call' hi
  by_cases heq : call' = call
  · subst heq
    exact ⟨tool, Dict.get?_set_self _ _ _⟩
  · obtain ⟨t, ht⟩ := h i call' hi
    exact ⟨t, (Dict.get?_set_of_ne _ _ heq).trans ht⟩

/-- The call at an index is the one last set, and else as before. -/
theorem get?_set_latest (h : ∀ i, s.index_to_tool_id.get? i = latest a.past (some i)) {index : Key}
    (hindex : key? c.index = some index) (call : ToolId) (i : Key) :
    (s.index_to_tool_id.set index call).get? i = latest (a.past ++ [(c, call)]) (some i) := by
  rw [Dict.get?_set, latest_append, hindex, h]
  by_cases heq : i = index
  · rw [if_pos heq, if_pos (by rw [heq])]
  · rw [if_neg heq, if_neg fun heq' => heq (Option.some.inj heq').symm]

/-- The entry of a call that is tracked for the first time. -/
theorem Agrees.exists_new {m : ToolId → Entry} (h : Agrees s m) {call : ToolId}
    (hnew : s.tracked_tool_calls.get? call = none) (c : ToolCall) :
    ∃ e, Agrees (s.track call (newTool call c.name)) (Function.update m call e) ∧ e.name c.named = (m call).name c.named := by
  refine ⟨_, h.track_new hnew c.name, ?_⟩
  rw [h.untracked call hnew]
  exact Entry.name_name _ _

/-- A call that is tracked keeps its entry. -/
theorem Agrees.exists_same {m : ToolId → Entry} (h : Agrees s m) (call : ToolId) (c : ToolCall) :
    ∃ e, Agrees s (Function.update m call e) ∧ e.name c.named = (m call).name c.named :=
  ⟨m call, (Function.update_eq_self call m).symm ▸ h, rfl⟩

/-- The call is set at its index, after it was tracked. -/
theorem located_set (h : Tracks loads s a) {s' : Stream} {call : ToolId} {index : Key} (hindex : key? c.index = some index)
    (hsame : s'.index_to_tool_id = s.index_to_tool_id) (hassigned : a.add c = ⟨a.past ++ [(c, call)], s'.drawn⟩)
    (htracked : ∃ t, s'.tracked_tool_calls.get? call = some t)
    (hkept : ∀ i call', s.index_to_tool_id.get? i = some call' → ∃ t, s'.tracked_tool_calls.get? call' = some t)
    (hagrees : ∃ e, Agrees s' (Function.update (entries loads a.past) call e) ∧
      e.name c.named = (entries loads a.past call).name c.named)
    (hfresh : ∀ n, s'.drawn ≤ n → s'.tracked_tool_calls.get? (.fallback n) = none) :
    Located loads a c { s' with index_to_tool_id := s'.index_to_tool_id.set index call } call := by
  refine
    { assigned := hassigned
      tracked := htracked
      agrees := ?_
      index := ?_
      known := ?_
      fresh := hfresh }
  · obtain ⟨e, hagrees, hname⟩ := hagrees
    exact ⟨e, { hagrees with }, hname⟩
  · intro i
    show (s'.index_to_tool_id.set index call).get? i = _
    rw [hsame]
    exact get?_set_latest h.index hindex call i
  · intro i call' hi
    change (s'.index_to_tool_id.set index call).get? i = some call' at hi
    rw [Dict.get?_set, hsame] at hi
    split at hi
    · cases hi
      exact htracked
    · exact hkept i call' hi

theorem located_given (h : Tracks loads s a) {id index : Key} (hid : (if c.id.truthy then key? c.id else none) = some id)
    (hindex : key? c.index = some index) :
    let call := ToolId.given id
    let s' := if call ∈ s.tracked_tool_calls then s else s.track call (newTool call c.name)
    Located loads a c { s' with index_to_tool_id := s'.index_to_tool_id.set index call } call := by
  intro call s'
  have hassigned : a.add c = ⟨a.past ++ [(c, call)], s.drawn⟩ := by rw [Assigned.add, hid, h.drawn]
  by_cases hmem : call ∈ s.tracked_tool_calls
  · have hs' : s' = s := if_pos hmem
    rw [hs']
    exact located_set h hindex rfl hassigned (Dict.mem_iff.mp hmem) h.known (h.agrees.exists_same call c) h.fresh
  · have hs' : s' = s.track call (newTool call c.name) := if_neg hmem
    rw [hs']
    refine located_set h hindex rfl hassigned ⟨_, Dict.get?_set_self _ _ _⟩ (known_track h.known call _)
      (h.agrees.exists_new (Dict.get?_eq_none_iff.mpr hmem) c) ?_
    intro n hn
    have hne : ToolId.fallback n ≠ .given id := by
      intro heq
      cases heq
    exact (Dict.get?_set_of_ne _ _ hne).trans (h.fresh n hn)

theorem located_fallback (h : Tracks loads s a) {index : Key} (hid : (if c.id.truthy then key? c.id else none) = none)
    (hindex : key? c.index = some index) (hnone : s.index_to_tool_id.get? index = none) :
    let call := ToolId.fallback s.drawn
    let s' := { s.track call (newTool call c.name) with drawn := s.drawn + 1 }
    Located loads a c { s' with index_to_tool_id := s'.index_to_tool_id.set index call } call := by
  intro call s'
  have hlatest : latest a.past (key? c.index) = none := by
    rw [hindex, ← h.index]
    exact hnone
  have hassigned : a.add c = ⟨a.past ++ [(c, call)], s.drawn + 1⟩ := by rw [Assigned.add, hid, hlatest, ← h.drawn]
  obtain ⟨e, hagrees, hname⟩ := h.agrees.exists_new (h.fresh s.drawn (Nat.le_refl _)) c
  refine located_set h hindex rfl hassigned ⟨_, Dict.get?_set_self _ _ _⟩ (known_track h.known call _)
    ⟨e, { hagrees with }, hname⟩ ?_
  intro n hn
  change s.drawn + 1 ≤ n at hn
  have hne : ToolId.fallback n ≠ .fallback s.drawn := by
    intro heq
    injection heq with heq
    omega
  exact (Dict.get?_set_of_ne _ _ hne).trans (h.fresh n (Nat.le_of_succ_le hn))

theorem located_same (h : Tracks loads s a) {index : Key} (hid : (if c.id.truthy then key? c.id else none) = none)
    (hindex : key? c.index = some index) {call : ToolId} (hcall : s.index_to_tool_id.get? index = some call) :
    Located loads a c s call := by
  have hlatest : latest a.past (key? c.index) = some call := by
    rw [hindex, ← h.index]
    exact hcall
  refine
    { assigned := ?_
      tracked := h.known index call hcall
      agrees := h.agrees.exists_same call c
      index := ?_
      known := h.known
      fresh := h.fresh }
  · rw [Assigned.add, hid, hlatest, h.drawn]
  · intro i
    rw [latest_append, hindex, h.index]
    by_cases heq : index = i
    · rw [if_pos (by rw [heq]), ← h.index, ← heq, hcall]
    · rw [if_neg fun heq' => heq (Option.some.inj heq')]

theorem located_resolve (h : Tracks loads s a) (hid : c.id.truthy = true → (key? c.id).isSome = true)
    (hindex : (key? c.index).isSome = true) : ∃ s' call, resolve s c = .ok (s', call) ∧ Located loads a c s' call := by
  obtain ⟨index, hindex⟩ := Option.isSome_iff_exists.mp hindex
  unfold resolve
  by_cases htruthy : c.id.truthy = true
  · obtain ⟨id, hkey⟩ := Option.isSome_iff_exists.mp (hid htruthy)
    have hgiven : (if c.id.truthy then key? c.id else none) = some id := by rw [if_pos htruthy, hkey]
    rw [if_pos htruthy, hkey, hindex]
    exact ⟨_, _, rfl, located_given h hgiven hindex⟩
  · have hgiven : (if c.id.truthy then key? c.id else none) = none := if_neg htruthy
    rw [if_neg htruthy, hindex]
    dsimp only
    cases hcall : s.index_to_tool_id.get? index with
    | some call => exact ⟨s, call, rfl, located_same h hgiven hindex hcall⟩
    | none => exact ⟨_, _, rfl, located_fallback h hgiven hindex hcall⟩

/-- The same calls are tracked, under the same indices. -/
structure SameCalls (s s' : Stream) : Prop where
  index : s'.index_to_tool_id = s.index_to_tool_id
  drawn : s'.drawn = s.drawn
  tracked : ∀ call, (∃ t, s'.tracked_tool_calls.get? call = some t) ↔ ∃ t, s.tracked_tool_calls.get? call = some t

theorem SameCalls.refl (s : Stream) : SameCalls s s := ⟨rfl, rfl, fun _ => Iff.rfl⟩

theorem SameCalls.trans {s s' s'' : Stream} (h : SameCalls s s') (h' : SameCalls s' s'') : SameCalls s s'' :=
  ⟨h'.index.trans h.index, h'.drawn.trans h.drawn, fun call => (h'.tracked call).trans (h.tracked call)⟩

theorem SameCalls.track {call : ToolId} {t : Tool} (ht : s.tracked_tool_calls.get? call = some t) (tool : Tool) :
    SameCalls s (s.track call tool) := by
  refine ⟨rfl, rfl, ?_⟩
  intro call'
  by_cases heq : call' = call
  · subst heq
    exact iff_of_true ⟨_, Dict.get?_set_self _ _ _⟩ ⟨t, ht⟩
  · show (∃ t, (s.tracked_tool_calls.set call tool).get? call' = some t) ↔ _
    rw [Dict.get?_set_of_ne _ _ heq]

/-- After a delta is located, the other steps of its handling keep the calls. -/
theorem Located.tracks {s' : Stream} {call : ToolId} (h : Located loads a c s call) (hsame : SameCalls s s')
    (hagrees : Agrees s' (entries loads (a.add c).past)) : Tracks loads s' (a.add c) := by
  refine
    { agrees := hagrees
      index := ?_
      known := ?_
      drawn := ?_
      fresh := ?_ }
  · intro i
    rw [hsame.index, h.index, h.assigned]
  · intro i call' hi
    rw [hsame.index] at hi
    exact (hsame.tracked call').mpr (h.known i call' hi)
  · rw [hsame.drawn, h.assigned]
  · intro n hn
    rw [hsame.drawn] at hn
    cases hget : s'.tracked_tool_calls.get? (.fallback n) with
    | none => rfl
    | some t =>
      obtain ⟨t, ht⟩ := (hsame.tracked _).mp ⟨t, hget⟩
      rw [h.fresh n hn] at ht
      cases ht

section
variable {m : ToolId → Entry} {call : ToolId}

theorem Agrees.name_tool (h : Agrees s m) {t : Tool} (ht : s.tracked_tool_calls.get? call = some t) (name : Val) :
    Agrees (name_tool s call name) (Function.update m call ((m call).name name.truthy)) ∧
      SameCalls s (name_tool s call name) := by
  obtain ⟨hid, hmatches⟩ := h.tool call t ht
  unfold Anthropic.name_tool
  rw [ht]
  dsimp only
  split
  · rename_i hnames
    rw [Bool.and_eq_true, Bool.not_eq_true'] at hnames
    refine ⟨?_, SameCalls.track ht _⟩
    have hid' : Tool.id { t with name } = call := hid
    apply h.track hid'
    · refine ⟨?_, hmatches.started, hmatches.arguments, hmatches.stopped⟩
      show name.truthy = ((m call).named || name.truthy)
      rw [hnames.1, Bool.or_true]
    · rfl
    · rfl
    · intro t' ht'
      rw [ht] at ht'
      cases ht'
      rfl
  · rename_i hnames
    have hsame : (m call).name name.truthy = m call := by
      have hnamed : ((m call).named || name.truthy) = (m call).named := by
        rw [← hmatches.named]
        cases hname : name.truthy with
        | false => exact Bool.or_false _
        | true =>
          rw [hname, Bool.true_and, Bool.not_eq_true, Bool.not_eq_false'] at hnames
          rw [hnames]
          rfl
      show Entry.mk ((m call).named || name.truthy) _ _ _ _ = m call
      rw [hnamed]
    rw [hsame, Function.update_eq_self]
    exact ⟨h, SameCalls.refl s⟩

theorem Agrees.start_tool (h : Agrees s m) {t : Tool} (ht : s.tracked_tool_calls.get? call = some t) :
    Agrees (start_tool s call) (Function.update m call (m call).start) ∧ SameCalls s (start_tool s call) := by
  obtain ⟨hid, hmatches⟩ := h.tool call t ht
  unfold Anthropic.start_tool
  rw [ht]
  dsimp only
  split
  · rename_i hstarts
    rw [Bool.and_eq_true, Bool.not_eq_true'] at hstarts
    have hnamed : ((m call).started || (m call).named) = true := by
      rw [← hmatches.named, hstarts.2, Bool.or_true]
    have hstart : (m call).start = { m call with started := true } := by
      show Entry.mk _ ((m call).started || (m call).named) _ _ _ = _
      rw [hnamed]
    rw [hstart]
    have hsame : SameCalls s (s.track call { t with block_index := s.current_block_index, started := true }) :=
      SameCalls.track ht _
    exact ⟨h.start ht hstarts.1 rfl true, hsame.index, hsame.drawn, hsame.tracked⟩
  · rename_i hstarts
    have hsame : (m call).start = m call := by
      have hstarted : ((m call).started || (m call).named) = (m call).started := by
        rw [← hmatches.named, ← hmatches.started]
        cases hwas : t.started with
        | true => rfl
        | false =>
          rw [hwas, Bool.not_false, Bool.true_and, Bool.not_eq_true] at hstarts
          rw [hstarts]
          rfl
      show Entry.mk _ ((m call).started || (m call).named) _ _ _ = m call
      rw [hstarted]
    rw [hsame, Function.update_eq_self]
    exact ⟨h, SameCalls.refl s⟩

theorem quiet_stop (s : Stream) (i : Nat) : Quiet s (s.emit (.content_block_stop i)) :=
  Quiet.of_emit ⟨fun _ => rfl, fun _ => rfl⟩ rfl rfl rfl (Nat.le_refl _) rfl

/-- A tracked tool call whose arguments are another text. -/
theorem Agrees.buffer (h : Agrees s m) {t : Tool} (ht : s.tracked_tool_calls.get? call = some t) (arguments : Str) :
    Agrees (s.track call { t with arguments }) (Function.update m call { m call with arguments }) := by
  obtain ⟨hid, hmatches⟩ := h.tool call t ht
  have hid' : Tool.id { t with arguments } = call := hid
  apply h.track hid'
  · exact ⟨hmatches.named, hmatches.started, rfl, hmatches.stopped⟩
  · rfl
  · rfl
  · intro t' ht'
    rw [ht] at ht'
    cases ht'
    rfl

/-- A tracked tool call whose block is stopped. -/
theorem Agrees.stop (h : Agrees s m) {t : Tool} (ht : s.tracked_tool_calls.get? call = some t) :
    Agrees ((s.track call { t with stopped := true }).emit (.content_block_stop t.block_index))
      (Function.update m call { m call with stopped := true }) := by
  obtain ⟨hid, hmatches⟩ := h.tool call t ht
  have hid' : Tool.id { t with stopped := true } = call := hid
  refine Agrees.quiet ?_ (quiet_stop _ _)
  apply h.track hid'
  · exact ⟨hmatches.named, hmatches.started, hmatches.arguments, rfl⟩
  · rfl
  · rfl
  · intro t' ht'
    rw [ht] at ht'
    cases ht'
    rfl

theorem SameCalls.emit (s : Stream) (e : Event) : SameCalls s (s.emit e) := ⟨rfl, rfl, fun _ => Iff.rfl⟩

variable (loads) in
theorem Agrees.add_fragment (h : Agrees s m) {t : Tool} (ht : s.tracked_tool_calls.get? call = some t) (fragment : Str) :
    Agrees (add_fragment loads s call fragment) (Function.update m call ((m call).addFragment loads fragment)) ∧
      SameCalls s (add_fragment loads s call fragment) := by
  obtain ⟨-, hmatches⟩ := h.tool call t ht
  have hbuffered := h.buffer ht (t.arguments ++ fragment)
  have hget : (s.track call { t with arguments := t.arguments ++ fragment }).tracked_tool_calls.get? call =
      some { t with arguments := t.arguments ++ fragment } := Dict.get?_set_self _ _ _
  have hsame : SameCalls s (s.track call { t with arguments := t.arguments ++ fragment }) := SameCalls.track ht _
  have hopens : ((m call).started && !(m call).stopped) = (t.started && !t.stopped) := by
    rw [hmatches.started, hmatches.stopped]
  unfold Anthropic.add_fragment Entry.addFragment
  rw [ht, hopens, ← hmatches.arguments]
  dsimp only
  by_cases hopen : (t.started && !t.stopped) = true
  · rw [if_pos hopen, if_pos hopen]
    rw [Bool.and_eq_true, Bool.not_eq_true'] at hopen
    have hsent := hbuffered.send hget hopen.1 fragment
    have hsame := hsame.trans (SameCalls.emit _ (.content_block_delta t.block_index (.input_json_delta fragment)))
    rw [Function.update_idem, Function.update_self] at hsent
    by_cases hcomplete : (loads (t.arguments ++ fragment)).isSome = true
    · rw [if_pos hcomplete, hcomplete]
      have hstopped := hsent.stop hget
      rw [Function.update_idem, Function.update_self] at hstopped
      refine ⟨hstopped, hsame.trans (SameCalls.trans ?_ (SameCalls.emit _ _))⟩
      apply SameCalls.track
      exact hget
    · have hwas : (m call).stopped = false := hmatches.stopped.symm.trans hopen.2
      rw [if_neg hcomplete, (Bool.not_eq_true _).mp hcomplete]
      refine ⟨?_, hsame⟩
      rw [← hwas]
      exact hsent
  · rw [if_neg hopen, if_neg hopen]
    exact ⟨hbuffered, hsame⟩

end

/-- **A delta that is read without an exception changes the entry of its call.** -/
theorem tracks_handle_tool_call (h : Tracks loads s a) {tool_call : Val} (hc : toolCall? tool_call = some c)
    (htyped : wellTyped tool_call = true) :
    ∃ s', handle_tool_call loads s tool_call = .ok s' ∧ Tracks loads s' (a.add c) := by
  rw [wellTyped, hc] at htyped
  simp only [Bool.and_eq_true, Bool.or_eq_true, Bool.not_eq_true'] at htyped
  obtain ⟨⟨hid, hindex⟩, harguments⟩ := htyped
  have hkeyed : c.id.truthy = true → (key? c.id).isSome = true := by
    intro htruthy
    rcases hid with hfalse | hsome
    · rw [htruthy] at hfalse
      cases hfalse
    · exact hsome
  obtain ⟨s₁, call, hresolve, hlocated⟩ := located_resolve h hkeyed hindex
  obtain ⟨t₁, ht₁⟩ := hlocated.tracked
  obtain ⟨e, hagrees, hname⟩ := hlocated.agrees
  -- the name
  obtain ⟨hnamed, hsame₂⟩ := hagrees.name_tool ht₁ c.name
  rw [Function.update_idem, Function.update_self] at hnamed
  obtain ⟨t₂, ht₂⟩ := (hsame₂.tracked call).mpr ⟨t₁, ht₁⟩
  -- the block
  obtain ⟨hstarted, hsame₃⟩ := hnamed.start_tool ht₂
  rw [Function.update_idem, Function.update_self] at hstarted
  obtain ⟨t₃, ht₃⟩ := (hsame₃.tracked call).mpr ⟨t₂, ht₂⟩
  have hsame := hsame₂.trans hsame₃
  have hentries : entries loads (a.add c).past =
      Function.update (entries loads a.past) call ((entries loads a.past call).add loads c) := by
    rw [hlocated.assigned, entries_append]
  have hstart : (e.name c.named).start = ((entries loads a.past call).name c.named).start := by rw [hname]
  unfold handle_tool_call
  rw [hc]
  dsimp only
  rw [hresolve]
  dsimp only
  unfold add_arguments
  by_cases htruthy : c.arguments.truthy = true
  · have hfragment : ∃ fragment, c.arguments = .str fragment := by
      rcases harguments with hfalse | htext
      · rw [htruthy] at hfalse
        cases hfalse
      · cases hval : c.arguments with
        | str fragment => exact ⟨fragment, rfl⟩
        | _ =>
          rw [hval] at htext
          cases htext
    obtain ⟨fragment, hfragment⟩ := hfragment
    have hne : fragment ≠ [] := by
      rw [hfragment] at htruthy
      exact of_decide_eq_true htruthy
    have hpiece : c.fragment = fragment := by
      rw [ToolCall.fragment, hfragment]
      rfl
    obtain ⟨hadded, hsame₄⟩ := hstarted.add_fragment loads ht₃ fragment
    rw [if_pos htruthy, hfragment]
    refine ⟨_, rfl, hlocated.tracks (hsame.trans hsame₄) ?_⟩
    rw [hentries, Entry.add, hpiece, if_neg hne, ← hstart]
    rw [Function.update_idem, Function.update_self] at hadded
    exact hadded
  · have hpiece : c.fragment = [] := by
      rw [ToolCall.fragment]
      cases hval : c.arguments with
      | str fragment =>
        rw [hval] at htruthy
        exact of_not_not fun hne => htruthy (decide_eq_true hne)
      | _ => rfl
    rw [if_neg htruthy]
    refine ⟨_, rfl, hlocated.tracks hsame ?_⟩
    rw [hentries, Entry.add, hpiece, if_pos rfl, ← hstart]
    exact hstarted

/-! ## An exception -/

/-- After an exception: what was sent is as before, and nothing is left to be sent. -/
def Late (loads : Str → Option Val) (s : Stream) (a : Assigned) : Prop :=
  ∃ m, Agrees s m ∧ (∀ call, (m call).sent = (entries loads a.past call).sent) ∧
    ∀ call, (m call).named = true → (m call).started = false → (m call).arguments = []

theorem entries_started (past : List (ToolCall × ToolId)) (call : ToolId) :
    (entries loads past call).started = (entries loads past call).named := Entry.started_foldl Entry.initial rfl _

theorem not_pending (past : List (ToolCall × ToolId)) (call : ToolId) (hnamed : (entries loads past call).named = true)
    (hstarted : (entries loads past call).started = false) : (entries loads past call).arguments = [] := by
  rw [entries_started, hnamed] at hstarted
  cases hstarted

theorem Tracks.late (h : Tracks loads s a) : Late loads s a :=
  ⟨_, h.agrees, fun _ => rfl, fun call => not_pending a.past call⟩

/-- One entry is changed in a way that sends nothing. -/
theorem late_update {e : Entry} {call : ToolId} (hagrees : Agrees s (Function.update (entries loads a.past) call e))
    (hsent : e.sent = (entries loads a.past call).sent)
    (hpending : e.named = true → e.started = false → e.arguments = []) : Late loads s a := by
  refine ⟨_, hagrees, ?_, ?_⟩
  · intro call'
    by_cases heq : call' = call
    · subst heq
      rw [Function.update_self]
      exact hsent
    · rw [Function.update_of_ne heq]
  · intro call'
    by_cases heq : call' = call
    · subst heq
      rw [Function.update_self]
      exact hpending
    · rw [Function.update_of_ne heq]
      exact not_pending a.past call'

/-- A key that cannot be one raises, perhaps after the call was tracked. -/
theorem late_resolve (h : Tracks loads s a) (c : ToolCall)
    (hkeys : ¬ ((c.id.truthy = true → (key? c.id).isSome = true) ∧ (key? c.index).isSome = true)) :
    ∃ s', resolve s c = .error s' ∧ Late loads s' a := by
  unfold resolve
  by_cases htruthy : c.id.truthy = true
  · rw [if_pos htruthy]
    cases hid : key? c.id with
    | none => exact ⟨s, rfl, h.late⟩
    | some id =>
      have hindex : key? c.index = none := by
        cases hindex : key? c.index with
        | none => rfl
        | some index => exact absurd ⟨fun _ => by rw [hid]; rfl, by rw [hindex]; rfl⟩ hkeys
      rw [hindex]
      refine ⟨_, rfl, ?_⟩
      by_cases hmem : ToolId.given id ∈ s.tracked_tool_calls
      · rw [if_pos hmem]
        exact h.late
      · rw [if_neg hmem]
        have hnew := Dict.get?_eq_none_iff.mpr hmem
        refine late_update (h.agrees.track_new hnew c.name) ?_ (fun _ _ => rfl)
        rw [h.agrees.untracked _ hnew]
        rfl
  · have hindex : key? c.index = none := by
      cases hindex : key? c.index with
      | none => rfl
      | some index => exact absurd ⟨fun htrue => absurd htrue htruthy, by rw [hindex]; rfl⟩ hkeys
    rw [if_neg htruthy, hindex]
    exact ⟨s, rfl, h.late⟩

theorem late_handle_tool_call (h : Tracks loads s a) {tool_call : Val} (htyped : wellTyped tool_call = false) :
    ∃ s', handle_tool_call loads s tool_call = .error s' ∧ Late loads s' a := by
  unfold handle_tool_call
  unfold wellTyped at htyped
  cases hc : toolCall? tool_call with
  | none => exact ⟨s, rfl, h.late⟩
  | some c =>
    rw [hc] at htyped
    dsimp only at htyped ⊢
    by_cases hkeys : (c.id.truthy = true → (key? c.id).isSome = true) ∧ (key? c.index).isSome = true
    · -- the arguments are no text
      obtain ⟨s₁, call, hresolve, hlocated⟩ := located_resolve h hkeys.1 hkeys.2
      obtain ⟨t₁, ht₁⟩ := hlocated.tracked
      obtain ⟨e, hagrees, hname⟩ := hlocated.agrees
      obtain ⟨hnamed, hsame⟩ := hagrees.name_tool ht₁ c.name
      rw [Function.update_idem, Function.update_self] at hnamed
      obtain ⟨t₂, ht₂⟩ := (hsame.tracked call).mpr ⟨t₁, ht₁⟩
      obtain ⟨hstarted, -⟩ := hnamed.start_tool ht₂
      rw [Function.update_idem, Function.update_self] at hstarted
      have hid : (!c.id.truthy || (key? c.id).isSome) = true := by
        cases htruthy : c.id.truthy with
        | false => rfl
        | true => exact hkeys.1 htruthy
      rw [hid, hkeys.2, Bool.true_and, Bool.true_and, Bool.or_eq_false_iff, Bool.not_eq_false'] at htyped
      rw [hresolve]
      dsimp only
      unfold add_arguments
      rw [if_pos htyped.1]
      refine ⟨_, ?_, late_update hstarted ?_ ?_⟩
      · cases hval : c.arguments with
        | str fragment =>
          rw [hval] at htyped
          cases htyped.2
        | _ => rfl
      · show (e.name c.named).start.sent = _
        rw [hname]
        rfl
      · intro hnamed hnot
        change ((e.name c.named).started || (e.name c.named).named) = false at hnot
        rw [Bool.or_eq_false_iff] at hnot
        rw [show (e.name c.named).named = true from hnamed] at hnot
        cases hnot.2
    · obtain ⟨s', hresolve, hlate⟩ := late_resolve h c hkeys
      rw [hresolve]
      exact ⟨s', rfl, hlate⟩

end

end Anthropic
end MaterialOpenWebui
