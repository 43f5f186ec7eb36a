import MaterialOpenWebui.Lib.Blocks
import MaterialOpenWebui.Anthropic.Stream

/-!
# `Anthropic.Invariant` — which blocks of a converted stream are open

An open block is either the one content block, under the running number, or that of a tracked tool call; and a named tool
call is left without a block only by an exception, when no content block is open. Opening, adding to and closing a block
keep this, and so do the changes of a tool call.
-/

namespace MaterialOpenWebui
namespace Anthropic
open Py Blocks

/-! ## What is to hold -/

inductive Kind where
  | thinking
  | text
  | tool_use

def ContentBlock.kind : ContentBlock → Kind
  | .thinking => .thinking
  | .text => .text
  | .tool_use _ _ => .tool_use

def Delta.kind : Delta → Kind
  | .thinking_delta _ => .thinking
  | .text_delta _ => .text
  | .input_json_delta _ => .tool_use

/-- What an event does to a block. -/
def Event.mark : Event → Option (Mark Kind)
  | .content_block_start i block => some (.start i block.kind)
  | .content_block_delta i delta => some (.delta i delta.kind)
  | .content_block_stop i => some (.stop i)
  | _ => none

/-- A message is started, then come the events of its blocks, and then its end. -/
def FollowsProtocol (events : List Event) : Prop :=
  ∃ id model input_tokens body stop_reason usage n,
    events = .message_start id model input_tokens :: body ++ [.message_delta stop_reason usage, .message_stop] ∧
      (∀ e ∈ body, e.mark.isSome) ∧ WellFormed n (body.filterMap Event.mark)

/-! ## The invariant -/

def Tool.isOpen (t : Tool) : Bool := t.started && !t.stopped

/-- A thinking or a text block is open. -/
def Stream.contentOpen (s : Stream) : Bool := s.thinking_block_open || s.text_block_open

/-- Every tool call with a name has its block. -/
def AllStarted (s : Stream) : Prop :=
  ∀ call t, s.tracked_tool_calls.get? call = some t → t.name.truthy = true → t.started = true

/-- The message is started, and everything since belongs to a block. -/
def Begun (events : List Event) : Prop :=
  ∃ id model input_tokens body, events = .message_start id model input_tokens :: body ∧ ∀ e ∈ body, e.mark.isSome

/-- The events have left these blocks, of which the open ones are accounted for. -/
structure Holds (s : Stream) (blocks : List (Block Kind)) : Prop where
  begun : Begun s.events
  reaches : Reaches (s.events.filterMap Event.mark) blocks
  single : s.thinking_block_open = true → s.text_block_open = false
  length : blocks.length = s.current_block_index + if s.contentOpen then 1 else 0
  thinking : s.thinking_block_open = true → blocks[s.current_block_index]? = some ⟨.thinking, true⟩
  text : s.text_block_open = true → blocks[s.current_block_index]? = some ⟨.text, true⟩
  tool : ∀ call t, s.tracked_tool_calls.get? call = some t → t.isOpen = true →
    blocks[t.block_index]? = some ⟨.tool_use, true⟩
  accounted : ∀ (i : Nat) kind, blocks[i]? = some ⟨kind, true⟩ → s.contentOpen = true ∧ i = s.current_block_index ∨
    ∃ call t, s.tracked_tool_calls.get? call = some t ∧ t.isOpen = true ∧ t.block_index = i
  distinct : ∀ call call' t t', s.tracked_tool_calls.get? call = some t → s.tracked_tool_calls.get? call' = some t' →
    t.isOpen = true → t'.isOpen = true → t.block_index = t'.block_index → call = call'
  pending : s.contentOpen = true → AllStarted s
  stopped : ∀ call t, s.tracked_tool_calls.get? call = some t → t.stopped = true → t.started = true

/-- An id that was not drawn is not tracked. -/
def Fresh (s : Stream) : Prop := ∀ n, s.drawn ≤ n → s.tracked_tool_calls.get? (.fallback n) = none

/-- What holds when an exception is raised. -/
def Raised (s : Stream) : Prop := ∃ blocks, Holds s blocks

/-- What holds before and after each chunk. -/
def Between (s : Stream) : Prop := ∃ blocks, Holds s blocks ∧ AllStarted s ∧ Fresh s

/-- Between two tool calls no content block is open. -/
def BetweenTools (s : Stream) : Prop := ∃ blocks, Holds s blocks ∧ AllStarted s ∧ Fresh s ∧ s.contentOpen = false

theorem Between.raised {s : Stream} (h : Between s) : Raised s := by
  obtain ⟨blocks, h, -⟩ := h
  exact ⟨blocks, h⟩

theorem BetweenTools.between {s : Stream} (h : BetweenTools s) : Between s := by
  obtain ⟨blocks, h, hstarted, hfresh, -⟩ := h
  exact ⟨blocks, h, hstarted, hfresh⟩

/-! ## Blocks -/

theorem Begun.emit {events : List Event} (h : Begun events) {e : Event} {m : Mark Kind} (hm : e.mark = some m) :
    Begun (events ++ [e]) := by
  obtain ⟨id, model, input_tokens, body, rfl, hbody⟩ := h
  refine ⟨id, model, input_tokens, body ++ [e], rfl, ?_⟩
  intro e' he'
  rcases List.mem_append.mp he' with he' | he'
  · exact hbody e' he'
  · rw [List.mem_singleton.mp he', hm]
    rfl

theorem marks_emit (events : List Event) {e : Event} {m : Mark Kind} (hm : e.mark = some m) :
    (events ++ [e]).filterMap Event.mark = events.filterMap Event.mark ++ [m] := by
  rw [List.filterMap_append, List.filterMap_cons_some hm]
  rfl

/-- Something is added to an open block. -/
theorem Holds.emit_delta {s : Stream} {blocks : List (Block Kind)} (h : Holds s blocks) {i : Nat} {delta : Delta}
    (hopen : blocks[i]? = some ⟨delta.kind, true⟩) : Holds (s.emit (.content_block_delta i delta)) blocks where
  begun := h.begun.emit rfl
  reaches := by
    show Reaches ((s.events ++ [_]).filterMap Event.mark) blocks
    rw [marks_emit s.events rfl]
    exact h.reaches.delta hopen
  single := h.single
  length := h.length
  thinking := h.thinking
  text := h.text
  tool := h.tool
  accounted := h.accounted
  distinct := h.distinct
  pending := h.pending
  stopped := h.stopped

section
variable {s : Stream} {blocks : List (Block Kind)}

theorem contentOpen_of_thinking (h : s.thinking_block_open = true) : s.contentOpen = true := by
  rw [Stream.contentOpen, h, Bool.true_or]

theorem contentOpen_of_text (h : s.text_block_open = true) : s.contentOpen = true := by
  rw [Stream.contentOpen, h, Bool.or_true]

theorem not_thinking (hclosed : s.contentOpen = false) : ¬ s.thinking_block_open = true := by
  intro hthinking
  rw [contentOpen_of_thinking hthinking] at hclosed
  cases hclosed

theorem not_text (hclosed : s.contentOpen = false) : ¬ s.text_block_open = true := by
  intro htext
  rw [contentOpen_of_text htext] at hclosed
  cases hclosed

theorem Holds.length_eq (h : Holds s blocks) (hclosed : s.contentOpen = false) :
    blocks.length = s.current_block_index := by
  rw [h.length, hclosed]
  rfl

/-- The block of an open tool call is still there when the next is started. -/
theorem Holds.tool_append (h : Holds s blocks) (b : Block Kind) {call : ToolId} {t : Tool}
    (ht : s.tracked_tool_calls.get? call = some t) (hopen : t.isOpen = true) :
    (blocks ++ [b])[t.block_index]? = some ⟨.tool_use, true⟩ := by
  have htool := h.tool call t ht hopen
  rw [List.getElem?_append_left (getElem?_lt htool)]
  exact htool

theorem Holds.accounted_append (h : Holds s blocks) (hclosed : s.contentOpen = false) (b : Block Kind) {i : Nat}
    {kind : Kind} (hi : (blocks ++ [b])[i]? = some ⟨kind, true⟩) : i = s.current_block_index ∨
      ∃ call t, s.tracked_tool_calls.get? call = some t ∧ t.isOpen = true ∧ t.block_index = i := by
  have hlength := h.length_eq hclosed
  by_cases hlt : i < blocks.length
  · rw [List.getElem?_append_left hlt] at hi
    rcases h.accounted i kind hi with ⟨hopen, -⟩ | htool
    · rw [hclosed] at hopen
      cases hopen
    · exact Or.inr htool
  · have hi := getElem?_lt hi
    rw [List.length_append, List.length_singleton] at hi
    left
    omega

theorem Holds.reaches_start (h : Holds s blocks) (hclosed : s.contentOpen = false) (block : ContentBlock) :
    Reaches ((s.events ++ [Event.content_block_start s.current_block_index block]).filterMap Event.mark)
      (blocks ++ [⟨block.kind, true⟩]) := by
  rw [marks_emit s.events rfl, ← h.length_eq hclosed]
  exact h.reaches.start block.kind

theorem Holds.open_thinking_block (h : Holds s blocks) (hstarted : AllStarted s) (htext : s.text_block_open = false) :
    ∃ blocks, Holds (open_thinking_block s) blocks ∧ AllStarted (open_thinking_block s) ∧
      (Anthropic.open_thinking_block s).thinking_block_open = true := by
  unfold Anthropic.open_thinking_block
  split
  · rename_i hopen
    exact ⟨blocks, h, hstarted, hopen⟩
  · rename_i hthinking
    rw [Bool.not_eq_true] at hthinking
    have hclosed : s.contentOpen = false := by rw [Stream.contentOpen, hthinking, htext]; rfl
    have hlength := h.length_eq hclosed
    refine ⟨blocks ++ [⟨.thinking, true⟩], ?_, hstarted, rfl⟩
    exact
      { begun := h.begun.emit rfl
        reaches := h.reaches_start hclosed .thinking
        single := fun _ => htext
        length := by
          rw [List.length_append, hlength]
          rfl
        thinking := fun _ => by
          show (blocks ++ [_])[s.current_block_index]? = _
          rw [← hlength, List.getElem?_concat_length]
        text := fun hopen => by
          have hopen : s.text_block_open = true := hopen
          rw [htext] at hopen
          cases hopen
        tool := fun call t ht hopen => h.tool_append _ ht hopen
        accounted := fun i kind hi => (h.accounted_append hclosed _ hi).imp_left fun heq => ⟨rfl, heq⟩
        distinct := h.distinct
        pending := fun _ => hstarted
        stopped := h.stopped }

theorem Holds.open_text_block (h : Holds s blocks) (hstarted : AllStarted s)
    (hthinking : s.thinking_block_open = false) :
    ∃ blocks, Holds (open_text_block s) blocks ∧ AllStarted (open_text_block s) ∧
      (Anthropic.open_text_block s).text_block_open = true := by
  unfold Anthropic.open_text_block
  split
  · rename_i hopen
    exact ⟨blocks, h, hstarted, hopen⟩
  · rename_i htext
    rw [Bool.not_eq_true] at htext
    have hclosed : s.contentOpen = false := by rw [Stream.contentOpen, hthinking, htext]; rfl
    have hlength := h.length_eq hclosed
    refine ⟨blocks ++ [⟨.text, true⟩], ?_, hstarted, rfl⟩
    have hopen : Stream.contentOpen { s.emit (.content_block_start s.current_block_index .text) with
        text_block_open := true } = true := contentOpen_of_text rfl
    exact
      { begun := h.begun.emit rfl
        reaches := h.reaches_start hclosed .text
        single := fun hopen => by
          have hopen : s.thinking_block_open = true := hopen
          rw [hthinking] at hopen
          cases hopen
        length := by
          rw [List.length_append, hlength, hopen]
          rfl
        thinking := fun hopen => by
          have hopen : s.thinking_block_open = true := hopen
          rw [hthinking] at hopen
          cases hopen
        text := fun _ => by
          show (blocks ++ [_])[s.current_block_index]? = _
          rw [← hlength, List.getElem?_concat_length]
        tool := fun call t ht hopen => h.tool_append _ ht hopen
        accounted := fun i kind hi => (h.accounted_append hclosed _ hi).imp_left fun heq => ⟨hopen, heq⟩
        distinct := h.distinct
        pending := fun _ => hstarted
        stopped := h.stopped }

/-- What is open when a block is stopped was open before, and is another. -/
theorem getElem?_set_open {i j : Nat} {stopped kind : Kind} (h : (blocks.set i ⟨stopped, false⟩)[j]? = some ⟨kind, true⟩) :
    i ≠ j ∧ blocks[j]? = some ⟨kind, true⟩ := by
  by_cases hij : i = j
  · subst hij
    have hlt := getElem?_lt h
    rw [List.length_set] at hlt
    rw [List.getElem?_set_self hlt, Option.some.injEq, Block.mk.injEq] at h
    cases h.2
  · rw [List.getElem?_set_ne hij] at h
    exact ⟨hij, h⟩

theorem Holds.reaches_stop (h : Holds s blocks) {i : Nat} {kind : Kind} (hopen : blocks[i]? = some ⟨kind, true⟩) :
    Reaches ((s.events ++ [Event.content_block_stop i]).filterMap Event.mark) (blocks.set i ⟨kind, false⟩) := by
  rw [marks_emit s.events rfl]
  exact h.reaches.stop hopen

/-- The block of a tool call is not the content block. -/
theorem Holds.tool_set (h : Holds s blocks) {i : Nat} {b : Block Kind} (hi : blocks[i]? ≠ some ⟨.tool_use, true⟩)
    {call : ToolId} {t : Tool} (ht : s.tracked_tool_calls.get? call = some t) (hopen : t.isOpen = true) :
    (blocks.set i b)[t.block_index]? = some ⟨.tool_use, true⟩ := by
  have htool := h.tool call t ht hopen
  have hne : i ≠ t.block_index := by
    rintro rfl
    exact hi htool
  rw [List.getElem?_set_ne hne]
  exact htool

theorem Holds.accounted_set (h : Holds s blocks) {stopped kind : Kind} {j : Nat}
    (hj : (blocks.set s.current_block_index ⟨stopped, false⟩)[j]? = some ⟨kind, true⟩) :
    ∃ call t, s.tracked_tool_calls.get? call = some t ∧ t.isOpen = true ∧ t.block_index = j := by
  obtain ⟨hne, hopen⟩ := getElem?_set_open hj
  rcases h.accounted j kind hopen with ⟨-, heq⟩ | htool
  · exact absurd heq.symm hne
  · exact htool

theorem Holds.close_thinking_block (h : Holds s blocks) :
    ∃ blocks, Holds (close_thinking_block s) blocks ∧ (Anthropic.close_thinking_block s).thinking_block_open = false := by
  unfold Anthropic.close_thinking_block
  split
  · rename_i hthinking
    have hopen := h.thinking hthinking
    have htext := h.single hthinking
    refine ⟨blocks.set s.current_block_index ⟨.thinking, false⟩, ?_, rfl⟩
    have hclosed : Stream.contentOpen { s.emit (.content_block_stop s.current_block_index) with
        thinking_block_open := false, current_block_index := s.current_block_index + 1 } = false := htext
    exact
      { begun := h.begun.emit rfl
        reaches := h.reaches_stop hopen
        single := fun hopen => by cases hopen
        length := by
          rw [List.length_set, h.length, contentOpen_of_thinking hthinking, hclosed]
          rfl
        thinking := fun hopen => by cases hopen
        text := fun hopen => by
          have hopen : s.text_block_open = true := hopen
          rw [htext] at hopen
          cases hopen
        tool := fun call t ht hisOpen => h.tool_set (by rw [hopen]; simp) ht hisOpen
        accounted := fun j kind hj => Or.inr (h.accounted_set hj)
        distinct := h.distinct
        pending := fun hopen => by
          rw [hclosed] at hopen
          cases hopen
        stopped := h.stopped }
  · rename_i hthinking
    exact ⟨blocks, h, (Bool.not_eq_true _).mp hthinking⟩

theorem Holds.close_text_block (h : Holds s blocks) (hthinking : s.thinking_block_open = false) :
    ∃ blocks, Holds (close_text_block s) blocks ∧ (Anthropic.close_text_block s).contentOpen = false := by
  unfold Anthropic.close_text_block
  split
  · rename_i htext
    have hopen := h.text htext
    have hclosed : Stream.contentOpen { s.emit (.content_block_stop s.current_block_index) with
        text_block_open := false, current_block_index := s.current_block_index + 1 } = false := by
      show (s.thinking_block_open || false) = false
      rw [hthinking]
      rfl
    refine ⟨blocks.set s.current_block_index ⟨.text, false⟩, ?_, hclosed⟩
    exact
      { begun := h.begun.emit rfl
        reaches := h.reaches_stop hopen
        single := fun _ => rfl
        length := by
          rw [List.length_set, h.length, contentOpen_of_text htext, hclosed]
          rfl
        thinking := fun hopen => by
          have hopen : s.thinking_block_open = true := hopen
          rw [hthinking] at hopen
          cases hopen
        text := fun hopen => by cases hopen
        tool := fun call t ht hisOpen => h.tool_set (by rw [hopen]; simp) ht hisOpen
        accounted := fun j kind hj => Or.inr (h.accounted_set hj)
        distinct := h.distinct
        pending := fun hopen => by
          rw [hclosed] at hopen
          cases hopen
        stopped := h.stopped }
  · rename_i htext
    refine ⟨blocks, h, ?_⟩
    rw [Stream.contentOpen, hthinking, (Bool.not_eq_true _).mp htext]
    rfl

theorem AllStarted.close_thinking_block (h : AllStarted s) : AllStarted (close_thinking_block s) := by
  unfold Anthropic.close_thinking_block
  split <;> exact h

theorem AllStarted.close_text_block (h : AllStarted s) : AllStarted (close_text_block s) := by
  unfold Anthropic.close_text_block
  split <;> exact h

theorem Fresh.close_thinking_block (h : Fresh s) : Fresh (close_thinking_block s) := by
  unfold Anthropic.close_thinking_block
  split <;> exact h

theorem Fresh.close_text_block (h : Fresh s) : Fresh (close_text_block s) := by
  unfold Anthropic.close_text_block
  split <;> exact h

theorem Fresh.open_thinking_block (h : Fresh s) : Fresh (open_thinking_block s) := by
  unfold Anthropic.open_thinking_block
  split <;> exact h

theorem Fresh.open_text_block (h : Fresh s) : Fresh (open_text_block s) := by
  unfold Anthropic.open_text_block
  split <;> exact h

/-! ## Blocks of tools -/

theorem get?_track (s : Stream) (call : ToolId) (tool : Tool) (call' : ToolId) :
    (s.track call tool).tracked_tool_calls.get? call' =
      if call' = call then some tool else s.tracked_tool_calls.get? call' := Dict.get?_set _ _ _ _

theorem Holds.stopped_track (h : Holds s blocks) {call : ToolId} {tool : Tool}
    (hsound : tool.stopped = true → tool.started = true) : ∀ call' t,
      (s.track call tool).tracked_tool_calls.get? call' = some t → t.stopped = true → t.started = true := by
  intro call' t ht hstopped
  rw [get?_track] at ht
  split at ht
  · cases ht
    exact hsound hstopped
  · exact h.stopped call' t ht hstopped

/-- A change of a tool call that leaves its block as it is. -/
theorem Holds.track (h : Holds s blocks) (hclosed : s.contentOpen = false) {call : ToolId} {tool : Tool}
    (hsame : ∀ t, s.tracked_tool_calls.get? call = some t → t.isOpen = tool.isOpen ∧ t.block_index = tool.block_index)
    (hnew : s.tracked_tool_calls.get? call = none → tool.isOpen = false)
    (hsound : tool.stopped = true → tool.started = true) : Holds (s.track call tool) blocks := by
  -- an open tool call of the new table is one of the old, with the same block
  have hback : ∀ call' t', (s.track call tool).tracked_tool_calls.get? call' = some t' → t'.isOpen = true →
      ∃ t, s.tracked_tool_calls.get? call' = some t ∧ t.isOpen = true ∧ t.block_index = t'.block_index := by
    intro call' t' ht' hopen
    rw [get?_track] at ht'
    split at ht'
    · rename_i heq
      subst heq
      cases ht'
      cases hold : s.tracked_tool_calls.get? call' with
      | none =>
        rw [hnew hold] at hopen
        cases hopen
      | some t =>
        obtain ⟨hisOpen, hindex⟩ := hsame t hold
        exact ⟨t, rfl, hisOpen.trans hopen, hindex⟩
    · exact ⟨t', ht', hopen, rfl⟩
  refine
    { begun := h.begun
      reaches := h.reaches
      single := h.single
      length := h.length
      thinking := h.thinking
      text := h.text
      tool := ?_
      accounted := ?_
      distinct := ?_
      pending := fun hopen => absurd hopen (ne_true_of_eq_false hclosed)
      stopped := ?_ }
  · intro call' t' ht' hopen
    obtain ⟨t, ht, hisOpen, hindex⟩ := hback call' t' ht' hopen
    rw [← hindex]
    exact h.tool call' t ht hisOpen
  · intro i kind hi
    rcases h.accounted i kind hi with hcontent | ⟨call', t, ht, hopen, hindex⟩
    · exact Or.inl hcontent
    · right
      by_cases heq : call' = call
      · subst heq
        obtain ⟨hisOpen, hsame⟩ := hsame t ht
        exact ⟨call', tool, Dict.get?_set_self _ _ _, hisOpen ▸ hopen, hsame ▸ hindex⟩
      · exact ⟨call', t, by rw [get?_track, if_neg heq, ht], hopen, hindex⟩
  · intro call₁ call₂ t₁ t₂ h₁ h₂ hopen₁ hopen₂ hindex
    obtain ⟨u₁, hu₁, huopen₁, hindex₁⟩ := hback call₁ t₁ h₁ hopen₁
    obtain ⟨u₂, hu₂, huopen₂, hindex₂⟩ := hback call₂ t₂ h₂ hopen₂
    exact h.distinct call₁ call₂ u₁ u₂ hu₁ hu₂ huopen₁ huopen₂ (hindex₁.trans (hindex.trans hindex₂.symm))
  · exact h.stopped_track hsound

/-- The block of a tool call is started, under the running number. -/
theorem Holds.start_tool (h : Holds s blocks) (hclosed : s.contentOpen = false) (call : ToolId) {tool : Tool}
    (hopen : tool.isOpen = true) (hindex : tool.block_index = s.current_block_index)
    (hold : ∀ t, s.tracked_tool_calls.get? call = some t → t.isOpen = false)
    (hsound : tool.stopped = true → tool.started = true) (name : Val) (has_tool_calls : Bool) :
    Holds { (s.track call tool).emit (.content_block_start s.current_block_index (.tool_use tool.id name)) with
      current_block_index := s.current_block_index + 1, has_tool_calls := has_tool_calls }
      (blocks ++ [⟨.tool_use, true⟩]) := by
  have hlength := h.length_eq hclosed
  refine
    { begun := h.begun.emit rfl
      reaches := h.reaches_start hclosed (.tool_use tool.id name)
      single := h.single
      length := ?_
      thinking := ?_
      text := ?_
      tool := ?_
      accounted := ?_
      distinct := ?_
      pending := fun hopen => absurd hopen (ne_true_of_eq_false hclosed)
      stopped := ?_ }
  · show (blocks ++ [_]).length = s.current_block_index + 1 + if s.contentOpen then 1 else 0
    rw [List.length_append, hlength, hclosed]
    rfl
  · exact fun hthinking => absurd hthinking (not_thinking hclosed)
  · exact fun htext => absurd htext (not_text hclosed)
  · intro call' t' ht' hisOpen
    have ht' : (s.track call tool).tracked_tool_calls.get? call' = some t' := ht'
    rw [get?_track] at ht'
    split at ht'
    · cases ht'
      rw [hindex, ← hlength, List.getElem?_concat_length]
    · exact h.tool_append _ ht' hisOpen
  · intro i kind hi
    right
    rcases h.accounted_append hclosed _ hi with heq | ⟨call', t, ht, hisOpen, hi'⟩
    · exact ⟨call, tool, Dict.get?_set_self _ _ _, hopen, hindex.trans heq.symm⟩
    · have hne : call' ≠ call := by
        rintro rfl
        rw [hold t ht] at hisOpen
        cases hisOpen
      exact ⟨call', t, (Dict.get?_set_of_ne _ _ hne).trans ht, hisOpen, hi'⟩
  · intro call₁ call₂ t₁ t₂ h₁ h₂ hopen₁ hopen₂ heq
    -- a tool call that was open before has a smaller number
    have hlt : ∀ call' t', s.tracked_tool_calls.get? call' = some t' → t'.isOpen = true →
        t'.block_index ≠ tool.block_index := by
      intro call' t' ht' hisOpen heq
      have hlt := getElem?_lt (h.tool call' t' ht' hisOpen)
      rw [heq, hindex, hlength] at hlt
      exact absurd hlt (Nat.lt_irrefl _)
    have h₁ : (s.track call tool).tracked_tool_calls.get? call₁ = some t₁ := h₁
    have h₂ : (s.track call tool).tracked_tool_calls.get? call₂ = some t₂ := h₂
    rw [get?_track] at h₁ h₂
    split at h₁
    · rename_i heq₁
      split at h₂
      · rename_i heq₂
        rw [heq₁, heq₂]
      · cases h₁
        exact absurd heq.symm (hlt call₂ t₂ h₂ hopen₂)
    · split at h₂
      · cases h₂
        exact absurd heq (hlt call₁ t₁ h₁ hopen₁)
      · exact h.distinct call₁ call₂ t₁ t₂ h₁ h₂ hopen₁ hopen₂ heq
  · exact h.stopped_track hsound

/-- The block of a tool call is stopped. -/
theorem Holds.stop_tool (h : Holds s blocks) (hclosed : s.contentOpen = false) {call : ToolId} {t tool : Tool}
    (ht : s.tracked_tool_calls.get? call = some t) (hopen : t.isOpen = true) (hstopped : tool.isOpen = false)
    (hsound : tool.stopped = true → tool.started = true) :
    Holds ((s.track call tool).emit (.content_block_stop t.block_index))
      (blocks.set t.block_index ⟨.tool_use, false⟩) := by
  have hblock := h.tool call t ht hopen
  -- the tool calls that are open now were open before, and have other blocks
  have hback : ∀ call' t', (s.track call tool).tracked_tool_calls.get? call' = some t' → t'.isOpen = true →
      s.tracked_tool_calls.get? call' = some t' ∧ t'.block_index ≠ t.block_index := by
    intro call' t' ht' hisOpen
    rw [get?_track] at ht'
    split at ht'
    · cases ht'
      rw [hstopped] at hisOpen
      cases hisOpen
    · rename_i hne
      exact ⟨ht', fun heq => hne (h.distinct call' call t' t ht' ht hisOpen hopen heq)⟩
  refine
    { begun := h.begun.emit rfl
      reaches := h.reaches_stop hblock
      single := h.single
      length := ?_
      thinking := ?_
      text := ?_
      tool := ?_
      accounted := ?_
      distinct := ?_
      pending := fun hopen => absurd hopen (ne_true_of_eq_false hclosed)
      stopped := ?_ }
  · rw [List.length_set]
    exact h.length
  · exact fun hthinking => absurd hthinking (not_thinking hclosed)
  · exact fun htext => absurd htext (not_text hclosed)
  · intro call' t' ht' hisOpen
    obtain ⟨hold, hne⟩ := hback call' t' ht' hisOpen
    rw [List.getElem?_set_ne hne.symm]
    exact h.tool call' t' hold hisOpen
  · intro i kind hi
    obtain ⟨hne, hi⟩ := getElem?_set_open hi
    rcases h.accounted i kind hi with hcontent | ⟨call', t', ht', hisOpen, hindex⟩
    · exact Or.inl hcontent
    · right
      have hcall : call' ≠ call := by
        rintro rfl
        rw [ht, Option.some.injEq] at ht'
        exact hne (ht' ▸ hindex)
      exact ⟨call', t', (Dict.get?_set_of_ne _ _ hcall).trans ht', hisOpen, hindex⟩
  · intro call₁ call₂ t₁ t₂ h₁ h₂ hopen₁ hopen₂ heq
    exact h.distinct call₁ call₂ t₁ t₂ (hback call₁ t₁ h₁ hopen₁).1 (hback call₂ t₂ h₂ hopen₂).1 hopen₁ hopen₂ heq
  · exact h.stopped_track hsound

end

end Anthropic
end MaterialOpenWebui
