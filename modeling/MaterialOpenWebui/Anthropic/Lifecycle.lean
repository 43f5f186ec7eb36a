import MaterialOpenWebui.Anthropic.Invariant

/-!
# `Anthropic.Lifecycle` — the blocks of a converted stream

Whatever the source sends, and wherever an exception ends the loop, the events are a start of the message, blocks that are
each started under the next number, added to while they are open and stopped once, and the end of the message.
-/

namespace MaterialOpenWebui
namespace Anthropic
open Py Raising Blocks

section
variable {s : Stream} {blocks : List (Block Kind)} {call : ToolId}

/-! ## Tool calls -/

/-- Every tool call with a name has its block, but perhaps for one. -/
def StartedBut (s : Stream) (call : ToolId) : Prop :=
  ∀ call' t, call' ≠ call → s.tracked_tool_calls.get? call' = some t → t.name.truthy = true → t.started = true

theorem StartedBut.track (h : StartedBut s call) (tool : Tool) : StartedBut (s.track call tool) call := by
  intro call' t hne ht hname
  rw [get?_track, if_neg hne] at ht
  exact h call' t hne ht hname

/-- A tool call that is seen for the first time is tracked. -/
theorem Holds.track_new (h : Holds s blocks) (hclosed : s.contentOpen = false) {call : ToolId} (name : Val)
    (hnew : s.tracked_tool_calls.get? call = none) : Holds (s.track call (newTool call name)) blocks := by
  apply h.track hclosed
  · intro t ht
    rw [hnew] at ht
    cases ht
  · exact fun _ => rfl
  · exact fun hstopped => hstopped

theorem Fresh.track (h : Fresh s) {call : ToolId} (hcall : ∀ n, s.drawn ≤ n → call ≠ .fallback n) (tool : Tool) :
    Fresh (s.track call tool) := by
  intro n hn
  rw [get?_track, if_neg (hcall n hn).symm]
  exact h n hn

/-- The id of a tool call that is tracked was drawn, or not made at all. -/
theorem Fresh.ne (h : Fresh s) {call : ToolId} {t : Tool} (ht : s.tracked_tool_calls.get? call = some t) (n : Nat)
    (hn : s.drawn ≤ n) : call ≠ .fallback n := by
  rintro rfl
  rw [h n hn] at ht
  cases ht

/-- What is known of the tool call that a delta belongs to. -/
structure Resolved (s : Stream) (call : ToolId) (blocks : List (Block Kind)) : Prop where
  holds : Holds s blocks
  closed : s.contentOpen = false
  started : StartedBut s call
  fresh : Fresh s

theorem Resolved.name_tool (h : Resolved s call blocks) (name : Val) : Resolved (name_tool s call name) call blocks := by
  unfold Anthropic.name_tool
  split
  · rename_i t ht
    split
    · refine ⟨?_, h.closed, h.started.track _, h.fresh.track (h.fresh.ne ht) _⟩
      apply h.holds.track h.closed
      · intro t' ht'
        rw [ht] at ht'
        cases ht'
        exact ⟨rfl, rfl⟩
      · intro hnone
        rw [ht] at hnone
        cases hnone
      · exact h.holds.stopped call t ht
    · exact h
  · exact h

/-- Once its block is started, every named tool call has one. -/
theorem Resolved.start_tool (h : Resolved s call blocks) : BetweenTools (start_tool s call) := by
  unfold Anthropic.start_tool
  split
  · rename_i t ht
    split
    · rename_i hstart
      rw [Bool.and_eq_true, Bool.not_eq_true'] at hstart
      have hnotStopped : t.stopped = false := by
        cases hstopped : t.stopped with
        | false => rfl
        | true => rw [h.holds.stopped call t ht hstopped] at hstart; cases hstart.1
      have hclosed : ∀ t', s.tracked_tool_calls.get? call = some t' → t'.isOpen = false := by
        intro t' ht'
        rw [ht] at ht'
        cases ht'
        rw [Tool.isOpen, hstart.1]
        rfl
      have hopen : Tool.isOpen { t with block_index := s.current_block_index, started := true } = true := by
        rw [Tool.isOpen, hnotStopped]
        rfl
      refine ⟨_, h.holds.start_tool h.closed call hopen rfl hclosed (fun _ => rfl) t.name true, ?_,
        h.fresh.track (h.fresh.ne ht) _, h.closed⟩
      intro call' t' ht' hname
      have ht' : (s.track call _).tracked_tool_calls.get? call' = some t' := ht'
      rw [get?_track] at ht'
      split at ht'
      · cases ht'
        rfl
      · rename_i hne
        exact h.started call' t' hne ht' hname
    · rename_i hstart
      refine ⟨blocks, h.holds, ?_, h.fresh, h.closed⟩
      intro call' t' ht' hname
      by_cases heq : call' = call
      · subst heq
        rw [ht] at ht'
        cases ht'
        rw [hname, Bool.and_true, Bool.not_eq_true, Bool.not_eq_false'] at hstart
        exact hstart
      · exact h.started call' t' heq ht' hname
  · rename_i hnone
    refine ⟨blocks, h.holds, ?_, h.fresh, h.closed⟩
    intro call' t' ht' hname
    have hne : call' ≠ call := by
      rintro rfl
      rw [hnone] at ht'
      cases ht'
    exact h.started call' t' hne ht' hname

/-- A tool call that has its block keeps it when its other fields change. -/
theorem AllStarted.track (h : AllStarted s) {t tool : Tool} (ht : s.tracked_tool_calls.get? call = some t)
    (hname : tool.name = t.name) (hstarted : tool.started = t.started) : AllStarted (s.track call tool) := by
  intro call' t' ht' hname'
  rw [get?_track] at ht'
  split at ht'
  · cases ht'
    rw [hname] at hname'
    rw [hstarted]
    exact h call t ht hname'
  · exact h call' t' ht' hname'

theorem BetweenTools.add_fragment (loads : Str → Option Val) (h : BetweenTools s) (fragment : Str) :
    BetweenTools (add_fragment loads s call fragment) := by
  obtain ⟨blocks, h, hstarted, hfresh, hclosed⟩ := h
  unfold Anthropic.add_fragment
  split
  rotate_left
  · exact ⟨blocks, h, hstarted, hfresh, hclosed⟩
  rename_i t ht
  dsimp only
  have hsame : ∀ t', s.tracked_tool_calls.get? call = some t' →
      t'.isOpen = t.isOpen ∧ t'.block_index = t.block_index := by
    intro t' ht'
    rw [ht] at ht'
    cases ht'
    exact ⟨rfl, rfl⟩
  have hnotNew : s.tracked_tool_calls.get? call = none → t.isOpen = false := by
    intro hnone
    rw [ht] at hnone
    cases hnone
  have hsound := h.stopped call t ht
  -- the arguments that are buffered
  have hbuffered : Holds (s.track call { t with arguments := t.arguments ++ fragment }) blocks :=
    h.track hclosed hsame hnotNew hsound
  have hkept : AllStarted (s.track call { t with arguments := t.arguments ++ fragment }) :=
    hstarted.track ht rfl rfl
  have hdrawn : Fresh (s.track call { t with arguments := t.arguments ++ fragment }) :=
    hfresh.track (hfresh.ne ht) _
  have hget : (s.track call { t with arguments := t.arguments ++ fragment }).tracked_tool_calls.get? call =
      some { t with arguments := t.arguments ++ fragment } := Dict.get?_set_self _ _ _
  split
  · rename_i hopen
    have hstill := hbuffered.tool call _ hget hopen
    have hblock : blocks[t.block_index]? = some ⟨(Delta.input_json_delta fragment).kind, true⟩ := hstill
    have hsent := hbuffered.emit_delta hblock
    split
    · -- the arguments are complete
      have hdone : Tool.isOpen { t with arguments := t.arguments ++ fragment, stopped := true } = false :=
        Bool.and_false _
      have hstarted : t.started = true := (Bool.and_eq_true_iff.mp hopen).1
      have hclosing := hsent.stop_tool (t := { t with arguments := t.arguments ++ fragment }) hclosed hget hopen hdone
        (fun _ => hstarted)
      exact ⟨_, hclosing, hkept.track hget rfl rfl, hdrawn.track (hdrawn.ne hget) _, hclosed⟩
    · exact ⟨blocks, hsent, hkept, hdrawn, hclosed⟩
  · exact ⟨blocks, hbuffered, hkept, hdrawn, hclosed⟩

/-- A tool call is flushed only when no content block is open. -/
theorem Holds.flush_tool (h : Holds s blocks) (call : ToolId) : Raised (flush_tool s call) := by
  unfold Anthropic.flush_tool
  split
  · rename_i t ht
    split
    · rename_i hflush
      rw [Bool.and_eq_true, Bool.not_eq_true'] at hflush
      have hclosed : s.contentOpen = false := by
        cases hopen : s.contentOpen with
        | false => rfl
        | true =>
          have hstarted := h.pending hopen call t ht hflush.2
          rw [hflush.1] at hstarted
          cases hstarted
      have hnotStopped : t.stopped = false := by
        cases hstopped : t.stopped with
        | false => rfl
        | true => rw [h.stopped call t ht hstopped] at hflush; cases hflush.1
      have hold : ∀ t', s.tracked_tool_calls.get? call = some t' → t'.isOpen = false := by
        intro t' ht'
        rw [ht] at ht'
        cases ht'
        rw [Tool.isOpen, hflush.1]
        rfl
      have hopen : Tool.isOpen { t with block_index := s.current_block_index, started := true } = true := by
        rw [Tool.isOpen, hnotStopped]
        rfl
      have hstart := h.start_tool hclosed call hopen rfl hold (fun _ => rfl) t.name s.has_tool_calls
      dsimp only
      split
      · have hblock : (blocks ++ [⟨.tool_use, true⟩])[s.current_block_index]? =
            some ⟨(Delta.input_json_delta t.arguments).kind, true⟩ :=
          hstart.tool call _ (Dict.get?_set_self _ _ _) hopen
        exact ⟨_, hstart.emit_delta hblock⟩
      · exact ⟨_, hstart⟩
    · exact ⟨blocks, h⟩
  · exact ⟨blocks, h⟩

theorem flush_tool_thinking (s : Stream) (call : ToolId) :
    (flush_tool s call).thinking_block_open = s.thinking_block_open := by
  unfold flush_tool
  split
  · split
    · dsimp only
      split <;> rfl
    · rfl
  · rfl

theorem raised_flush_tools (calls : List ToolId) {s : Stream} (h : Raised s) :
    Raised (calls.foldl flush_tool s) ∧ (calls.foldl flush_tool s).thinking_block_open = s.thinking_block_open := by
  induction calls generalizing s with
  | nil => exact ⟨h, rfl⟩
  | cons call calls ih =>
    obtain ⟨blocks, h⟩ := h
    obtain ⟨hraised, hthinking⟩ := ih (h.flush_tool call)
    exact ⟨hraised, hthinking.trans (flush_tool_thinking s call)⟩

/-- All blocks are closed when those of the tools are stopped. -/
theorem closed_close_tools (tools : List Tool) {s : Stream} {blocks : List (Block Kind)} (hbegun : Begun s.events)
    (hreaches : Reaches (s.events.filterMap Event.mark) blocks)
    (hblock : ∀ t ∈ tools, t.isOpen = true → blocks[t.block_index]? = some ⟨.tool_use, true⟩)
    (hapart : tools.Pairwise fun t u => t.isOpen = true → u.isOpen = true → t.block_index ≠ u.block_index)
    (hall : ∀ (i : Nat) kind, blocks[i]? = some ⟨kind, true⟩ → ∃ t ∈ tools, t.isOpen = true ∧ t.block_index = i) :
    Begun (tools.foldl close_tool s).events ∧ ∃ blocks',
      Reaches ((tools.foldl close_tool s).events.filterMap Event.mark) blocks' ∧
        ∀ (i : Nat) (b : Block Kind), blocks'[i]? = some b → b.isOpen = false := by
  induction tools generalizing s blocks with
  | nil =>
    refine ⟨hbegun, blocks, hreaches, ?_⟩
    intro i b hb
    obtain ⟨kind, isOpen⟩ := b
    cases isOpen with
    | false => rfl
    | true =>
      obtain ⟨t, ht, -⟩ := hall i kind hb
      cases ht
  | cons tool tools ih =>
    obtain ⟨hfirst, hapart⟩ := List.pairwise_cons.mp hapart
    rw [List.foldl_cons]
    cases hopen : tool.isOpen with
    | false =>
      have hkeep : close_tool s tool = s := if_neg (ne_true_of_eq_false hopen)
      rw [hkeep]
      refine ih hbegun hreaches (fun t ht => hblock t (List.mem_cons_of_mem _ ht)) hapart ?_
      intro i kind hi
      obtain ⟨t, ht, hisOpen, hindex⟩ := hall i kind hi
      rcases List.mem_cons.mp ht with rfl | ht
      · rw [hopen] at hisOpen
        cases hisOpen
      · exact ⟨t, ht, hisOpen, hindex⟩
    | true =>
      have hstop : close_tool s tool = s.emit (.content_block_stop tool.block_index) := if_pos hopen
      have htool := hblock tool List.mem_cons_self hopen
      rw [hstop]
      have hstopped : Reaches
          ((s.emit (.content_block_stop tool.block_index)).events.filterMap Event.mark)
          (blocks.set tool.block_index ⟨.tool_use, false⟩) := by
        show Reaches ((s.events ++ [Event.content_block_stop tool.block_index]).filterMap Event.mark) _
        rw [marks_emit s.events rfl]
        exact hreaches.stop htool
      refine ih (hbegun.emit rfl) hstopped ?_ hapart ?_
      · intro t ht hisOpen
        rw [List.getElem?_set_ne (hfirst t ht hopen hisOpen)]
        exact hblock t (List.mem_cons_of_mem _ ht) hisOpen
      · intro i kind hi
        obtain ⟨hne, hi⟩ := getElem?_set_open hi
        obtain ⟨t, ht, hisOpen, hindex⟩ := hall i kind hi
        rcases List.mem_cons.mp ht with rfl | ht
        · exact absurd hindex hne
        · exact ⟨t, ht, hisOpen, hindex⟩

/-- The tool calls that are open have blocks of their own. -/
theorem Holds.apart (h : Holds s blocks) : (s.tracked_tool_calls.items.map Prod.snd).Pairwise
    fun t u => t.isOpen = true → u.isOpen = true → t.block_index ≠ u.block_index := by
  rw [List.pairwise_map]
  have hnodup : s.tracked_tool_calls.items.Pairwise fun p q => p.1 ≠ q.1 := List.pairwise_map.mp s.tracked_tool_calls.nodup
  refine hnodup.imp_of_mem ?_
  intro p q hp hq hne hopen hopen' heq
  exact hne (h.distinct p.1 q.1 p.2 q.2 (Dict.get?_eq_some_iff.mpr hp) (Dict.get?_eq_some_iff.mpr hq) hopen hopen' heq)

theorem Holds.close_tools (h : Holds s blocks) (hclosed : s.contentOpen = false) :
    Begun (close_tools s).events ∧ ∃ blocks, Reaches ((close_tools s).events.filterMap Event.mark) blocks ∧
      ∀ (i : Nat) (b : Block Kind), blocks[i]? = some b → b.isOpen = false := by
  apply closed_close_tools _ h.begun h.reaches
  · intro t ht hopen
    obtain ⟨p, hp, rfl⟩ := List.mem_map.mp ht
    exact h.tool p.1 p.2 (Dict.get?_eq_some_iff.mpr hp) hopen
  · exact h.apart
  · intro i kind hi
    rcases h.accounted i kind hi with ⟨hopen, -⟩ | ⟨call, t, ht, hopen, hindex⟩
    · rw [hclosed] at hopen
      cases hopen
    · exact ⟨t, List.mem_map.mpr ⟨(call, t), Dict.get?_eq_some_iff.mp ht, rfl⟩, hopen, hindex⟩

theorem finish_events (s : Stream) : ∃ stop_reason usage, (finish s).events =
    (close_tools (close_text_block (flush_tools (close_thinking_block s)))).events ++
      [.message_delta stop_reason usage, .message_stop] := by
  refine ⟨_, _, List.append_assoc _ _ _⟩

/-- However the loop has ended, what follows closes the message. -/
theorem Raised.finish (h : Raised s) : FollowsProtocol (finish s).events := by
  obtain ⟨blocks, h⟩ := h
  obtain ⟨blocks, h, hthinking⟩ := h.close_thinking_block
  obtain ⟨⟨blocks, h⟩, hflags⟩ := raised_flush_tools (close_thinking_block s).tracked_tool_calls.keys ⟨blocks, h⟩
  obtain ⟨blocks, h, hclosed⟩ := h.close_text_block (hflags.trans hthinking)
  obtain ⟨⟨id, model, input_tokens, body, hbody, hmarked⟩, blocks, hreaches, hallClosed⟩ := h.close_tools hclosed
  rw [hbody] at hreaches
  obtain ⟨stop_reason, usage, hend⟩ := finish_events s
  refine ⟨id, model, input_tokens, body, stop_reason, usage, blocks.length, ?_, hmarked, hreaches.wellFormed hallClosed⟩
  rw [hend]
  exact congrArg (· ++ _) hbody

end

end Anthropic
end MaterialOpenWebui
