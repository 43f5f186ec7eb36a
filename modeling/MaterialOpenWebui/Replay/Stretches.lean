import MaterialOpenWebui.Replay.Model
import MaterialOpenWebui.Lib.Turns

/-!
# `Replay.Stretches` — the messages that are written of each stretch of items

The items are cut where the outputs of functions end. Of each piece, what was gathered becomes one message, each of its
outputs one more, and the images of the outputs a last one; the loop writes the messages of one piece after those of the
piece before (`written_messages_eq`).
-/

namespace MaterialOpenWebui
namespace Replay
open Py
open Anthropic (field isText asText Key key?)
open Responses (iterate)

/-! ## Cutting -/

/-- Items that are no outputs, and the outputs after them. -/
structure Piece where
  gather : List Val
  outputs : List Val

def cut : List Val → List Piece
  | [] => []
  | item :: items =>
    if is_call_output item then
      match cut items with
      | [] => [⟨[], [item]⟩]
      | piece :: pieces =>
        if piece.gather.isEmpty then ⟨[], item :: piece.outputs⟩ :: pieces else ⟨[], [item]⟩ :: piece :: pieces
    else
      match cut items with
      | [] => [⟨[item], []⟩]
      | piece :: pieces => ⟨item :: piece.gather, piece.outputs⟩ :: pieces

/-- Only the first piece may begin with an output, and only the last may end without. -/
def Chained : List Piece → Prop
  | [] => True
  | [_] => True
  | piece :: next :: pieces => piece.outputs ≠ [] ∧ next.gather ≠ [] ∧ Chained (next :: pieces)

/-- The two parts of a piece hold what they should. -/
structure Piece.Sorted (piece : Piece) : Prop where
  gather : ∀ item ∈ piece.gather, is_call_output item = false
  outputs : ∀ item ∈ piece.outputs, is_call_output item = true

theorem cut_flatten (items : List Val) : (cut items).flatMap (fun piece => piece.gather ++ piece.outputs) = items := by
  induction items with
  | nil => rfl
  | cons item items ih =>
    rw [cut]
    by_cases houtput : is_call_output item = true
    · rw [if_pos houtput]
      cases hcut : cut items with
      | nil =>
        rw [hcut] at ih
        rw [← ih]
        rfl
      | cons piece pieces =>
        rw [hcut] at ih
        dsimp only
        by_cases hempty : piece.gather.isEmpty = true
        · rw [if_pos hempty, ← ih, List.flatMap_cons, List.flatMap_cons, List.isEmpty_iff.mp hempty]
          rfl
        · rw [if_neg hempty, List.flatMap_cons, ih]
          rfl
    · rw [if_neg houtput]
      cases hcut : cut items with
      | nil =>
        rw [hcut] at ih
        rw [← ih]
        rfl
      | cons piece pieces =>
        rw [hcut] at ih
        rw [← ih]
        rfl

theorem sorted_cut (items : List Val) : ∀ piece ∈ cut items, piece.Sorted := by
  have hnone : ∀ (P : Val → Prop), ∀ item ∈ ([] : List Val), P item := by
    intro P item hmem
    cases hmem
  induction items with
  | nil =>
    intro piece hpiece
    cases hpiece
  | cons item items ih =>
    rw [cut]
    by_cases houtput : is_call_output item = true
    · have hone : (⟨[], [item]⟩ : Piece).Sorted := by
        refine ⟨hnone _, ?_⟩
        intro i hi
        rw [List.mem_singleton.mp hi]
        exact houtput
      rw [if_pos houtput]
      cases hcut : cut items with
      | nil =>
        intro piece hpiece
        rw [List.mem_singleton.mp hpiece]
        exact hone
      | cons first pieces =>
        rw [hcut] at ih
        have hfirst := ih first List.mem_cons_self
        have hrest : ∀ piece ∈ pieces, piece.Sorted := fun piece hpiece => ih piece (List.mem_cons_of_mem _ hpiece)
        dsimp only
        by_cases hempty : first.gather.isEmpty = true
        · rw [if_pos hempty]
          refine List.forall_mem_cons.mpr ⟨⟨hnone _, ?_⟩, hrest⟩
          exact List.forall_mem_cons.mpr ⟨houtput, hfirst.outputs⟩
        · rw [if_neg hempty]
          exact List.forall_mem_cons.mpr ⟨hone, ih⟩
    · have hother : is_call_output item = false := Bool.not_eq_true _ ▸ houtput
      rw [if_neg houtput]
      cases hcut : cut items with
      | nil =>
        intro piece hpiece
        rw [List.mem_singleton.mp hpiece]
        refine ⟨?_, hnone _⟩
        intro i hi
        rw [List.mem_singleton.mp hi]
        exact hother
      | cons first pieces =>
        rw [hcut] at ih
        have hfirst := ih first List.mem_cons_self
        refine List.forall_mem_cons.mpr ⟨⟨?_, hfirst.outputs⟩, fun piece hpiece =>
          ih piece (List.mem_cons_of_mem _ hpiece)⟩
        exact List.forall_mem_cons.mpr ⟨hother, hfirst.gather⟩

/-- Another gathered item at the head. -/
theorem Chained.gather {piece : Piece} {pieces : List Piece} (h : Chained (piece :: pieces)) (item : Val) :
    Chained (⟨item :: piece.gather, piece.outputs⟩ :: pieces) := by
  cases pieces with
  | nil => trivial
  | cons next pieces => exact h

theorem Chained.output {piece : Piece} {pieces : List Piece} (h : Chained (piece :: pieces)) (item : Val) :
    Chained (⟨[], item :: piece.outputs⟩ :: pieces) := by
  cases pieces with
  | nil => trivial
  | cons next pieces => exact ⟨List.cons_ne_nil _ _, h.2⟩

theorem chained_cut (items : List Val) : Chained (cut items) := by
  induction items with
  | nil => trivial
  | cons item items ih =>
    rw [cut]
    by_cases houtput : is_call_output item = true
    · rw [if_pos houtput]
      cases hcut : cut items with
      | nil => trivial
      | cons piece pieces =>
        rw [hcut] at ih
        dsimp only
        by_cases hempty : piece.gather.isEmpty = true
        · rw [if_pos hempty]
          exact ih.output item
        · rw [if_neg hempty]
          exact ⟨List.cons_ne_nil _ _, fun hnil => hempty (List.isEmpty_iff.mpr hnil), ih⟩
    · rw [if_neg houtput]
      cases hcut : cut items with
      | nil => trivial
      | cons piece pieces =>
        rw [hcut] at ih
        exact ih.gather item

/-! ## What is written -/

section
variable (fl : Floats) (str_ : Val → Str) (o : Options)

/-- What items add together. -/
def gathered (items : List Val) : Pending :=
  items.foldr (fun item p => ((adds fl str_ o item).getD .empty).append p) .empty

/-- The images of outputs that are put in a message of their own. -/
def images (ids : List Key) (outputs : List Val) : List Val :=
  outputs.flatMap fun item => ((convert_call_output str_ o ids item).map Prod.snd).getD []

/-- The messages of outputs. -/
def answers (ids : List Key) (outputs : List Val) : List Message :=
  outputs.flatMap fun item => ((convert_call_output str_ o ids item).map fun p => [p.1]).getD []

/-- The message of what was gathered. -/
def said (p : Pending) : List Message := if p.isEmpty then [] else [p.message]

/-- The message of images. -/
def shown (urls : List Val) : List Message := if urls.isEmpty then [] else [image_message urls]

def pieceMessages (ids : List Key) (piece : Piece) : List Message :=
  said (gathered fl str_ o piece.gather) ++ (answers str_ o ids piece.outputs ++ shown (images str_ o ids piece.outputs))

/-! ## One piece -/

theorem Pending.append_empty (p : Pending) : p.append .empty = p := by
  rw [Pending.append, Pending.empty, List.append_nil, List.append_nil, List.append_nil, List.append_nil]

theorem Pending.append_assoc (p q r : Pending) : (p.append q).append r = p.append (q.append r) := by
  rw [Pending.append, Pending.append, Pending.append, Pending.append, List.append_assoc, List.append_assoc,
    List.append_assoc, List.append_assoc]

theorem messages_flush_pending (s : State) : (flush_pending s).messages = s.messages ++ said s.pending := by
  rw [flush_pending, said]
  by_cases h : s.pending.isEmpty = true
  · rw [if_pos h, if_pos h, List.append_nil]
  · rw [if_neg h, if_neg h]

theorem pending_of_isEmpty {p : Pending} (h : p.isEmpty = true) : p = .empty := by
  obtain ⟨content, tool_calls, reasoning, reasoning_details⟩ := p
  rw [Pending.isEmpty, Bool.and_eq_true, Bool.and_eq_true, Bool.and_eq_true, List.isEmpty_iff, List.isEmpty_iff,
    List.isEmpty_iff, List.isEmpty_iff] at h
  obtain ⟨⟨⟨rfl, rfl⟩, rfl⟩, rfl⟩ := h
  rfl

theorem flush_pending_eq (s : State) : flush_pending s =
    ⟨s.messages ++ said s.pending, .empty, s.pending_tool_image_urls⟩ := by
  rw [flush_pending, said]
  by_cases h : s.pending.isEmpty = true
  · rw [if_pos h, if_pos h, List.append_nil, ← pending_of_isEmpty h]
  · rw [if_neg h, if_neg h]

theorem flush_tool_images_eq (s : State) :
    flush_tool_images s = ⟨s.messages ++ shown s.pending_tool_image_urls, s.pending, []⟩ := by
  rw [flush_tool_images, shown]
  by_cases h : s.pending_tool_image_urls.isEmpty = true
  · rw [if_pos h, if_pos h, List.append_nil, ← List.isEmpty_iff.mp h]
  · rw [if_neg h, if_neg h]

/-- Items that are no outputs are gathered; the first of them shows the images. -/
theorem gather_run {ids : List Key} {items : List Val} (hitems : ∀ item ∈ items, is_call_output item = false)
    {s s' : State} (h : items.foldlM (convert_item fl str_ o ids) s = some s') :
    (items = [] ∧ s' = s) ∨ s' = ⟨s.messages ++ shown s.pending_tool_image_urls,
      s.pending.append (gathered fl str_ o items), []⟩ := by
  induction items generalizing s with
  | nil => exact Or.inl ⟨rfl, (Option.some.inj h).symm⟩
  | cons item items ih =>
    right
    rw [List.foldlM_cons, convert_item, hitems item List.mem_cons_self] at h
    cases hadds : adds fl str_ o item with
    | none =>
      rw [hadds] at h
      cases h
    | some added =>
      rw [hadds, flush_tool_images_eq] at h
      have hgathered : gathered fl str_ o (item :: items) = added.append (gathered fl str_ o items) := by
        rw [gathered, List.foldr_cons, hadds]
        rfl
      rw [hgathered, ← Pending.append_assoc]
      rcases ih (fun i hi => hitems i (List.mem_cons_of_mem _ hi)) h with ⟨rfl, hs'⟩ | hs'
      · rw [hs']
        show State.mk _ _ _ = State.mk _ ((s.pending.append added).append .empty) []
        rw [Pending.append_empty]
      · rw [hs']
        show State.mk ((s.messages ++ shown s.pending_tool_image_urls) ++ []) _ _ = _
        rw [List.append_nil]

/-- Outputs are answered one by one; the first of them says what was gathered. -/
theorem outputs_run {ids : List Key} {items : List Val} (hitems : ∀ item ∈ items, is_call_output item = true)
    {s s' : State} (h : items.foldlM (convert_item fl str_ o ids) s = some s') :
    (items = [] ∧ s' = s) ∨ s' = ⟨s.messages ++ (said s.pending ++ answers str_ o ids items), .empty,
      s.pending_tool_image_urls ++ images str_ o ids items⟩ := by
  induction items generalizing s with
  | nil => exact Or.inl ⟨rfl, (Option.some.inj h).symm⟩
  | cons item items ih =>
    right
    rw [List.foldlM_cons, convert_item, hitems item List.mem_cons_self] at h
    cases hcall : convert_call_output str_ o ids item with
    | none =>
      rw [hcall] at h
      cases h
    | some p =>
      obtain ⟨m, urls⟩ := p
      rw [hcall, flush_pending_eq] at h
      have hanswers : answers str_ o ids (item :: items) = m :: answers str_ o ids items := by
        rw [answers, List.flatMap_cons, hcall]
        rfl
      have himages : images str_ o ids (item :: items) = urls ++ images str_ o ids items := by
        rw [images, List.flatMap_cons, hcall]
        rfl
      rw [hanswers, himages]
      rcases ih (fun i hi => hitems i (List.mem_cons_of_mem _ hi)) h with ⟨rfl, hs'⟩ | hs'
      · rw [hs']
        show State.mk _ _ _ = State.mk _ _ (_ ++ (urls ++ []))
        rw [List.append_nil, List.append_assoc]
        rfl
      · rw [hs']
        show State.mk ((s.messages ++ said s.pending ++ [m]) ++ ([] ++ answers str_ o ids items)) _ _ = _
        rw [List.nil_append, List.append_assoc, List.append_assoc, List.append_assoc, List.singleton_append]

/-- The messages if the reply ended here. -/
def closing (s : State) : List Message := (flush_pending (flush_tool_images s)).messages

theorem closing_eq (s : State) : closing s = s.messages ++ (shown s.pending_tool_image_urls ++ said s.pending) := by
  rw [closing, messages_flush_pending, flush_tool_images_eq, List.append_assoc]

theorem said_empty : said .empty = [] := rfl

theorem shown_nil : shown [] = [] := rfl

/-- **One piece.** What it adds to the messages, after a piece that said all it had. -/
theorem piece_run {ids : List Key} {piece : Piece} (hsorted : piece.Sorted) {s s' : State} (hs : s.pending = .empty)
    (hfirst : piece.gather ≠ [] ∨ s.pending_tool_image_urls = [])
    (h : (piece.gather ++ piece.outputs).foldlM (convert_item fl str_ o ids) s = some s') :
    closing s' = closing s ++ pieceMessages fl str_ o ids piece ∧ (piece.outputs ≠ [] → s'.pending = .empty) := by
  rw [List.foldlM_append] at h
  cases hgather : piece.gather.foldlM (convert_item fl str_ o ids) s with
  | none =>
    rw [hgather] at h
    cases h
  | some s₁ =>
    rw [hgather] at h
    have houtputs := outputs_run fl str_ o hsorted.outputs h
    -- what was gathered, whether or not there was anything
    have hs₁ : s₁ = ⟨s.messages ++ shown s.pending_tool_image_urls, gathered fl str_ o piece.gather, []⟩ := by
      rcases gather_run fl str_ o hsorted.gather hgather with ⟨hnil, rfl⟩ | heq
      · obtain ⟨messages, pending, urls⟩ := s₁
        have hurls : urls = [] := hfirst.resolve_left fun hne => hne hnil
        have hpending : pending = .empty := hs
        rw [hnil, hurls, hpending, shown_nil, List.append_nil]
        rfl
      · rw [heq, hs]
        obtain ⟨content, tool_calls, reasoning, reasoning_details⟩ := gathered fl str_ o piece.gather
        rfl
    rw [closing_eq, closing_eq, hs, said_empty, List.append_nil, pieceMessages]
    rcases houtputs with ⟨hnil, rfl⟩ | heq
    · refine ⟨?_, fun hne => absurd hnil hne⟩
      rw [hs₁, hnil, shown_nil, List.nil_append]
      show _ = _ ++ (said _ ++ ([] ++ []))
      rw [List.append_nil, List.append_nil]
    · refine ⟨?_, fun _ => by rw [heq]⟩
      rw [heq, hs₁]
      show s.messages ++ shown s.pending_tool_image_urls ++ (said (gathered fl str_ o piece.gather) ++
        answers str_ o ids piece.outputs) ++ (shown ([] ++ images str_ o ids piece.outputs) ++ said .empty) = _
      rw [said_empty, List.append_nil, List.nil_append, List.append_assoc, List.append_assoc, List.append_assoc,
        List.append_assoc]

/-! ## All pieces -/

theorem pieces_run {ids : List Key} {pieces : List Piece} (hsorted : ∀ piece ∈ pieces, piece.Sorted)
    (hchained : Chained pieces) {s s' : State} (hs : s.pending = .empty)
    (hfirst : ∀ piece ∈ pieces.head?, piece.gather ≠ [] ∨ s.pending_tool_image_urls = [])
    (h : (pieces.flatMap fun piece => piece.gather ++ piece.outputs).foldlM (convert_item fl str_ o ids) s = some s') :
    closing s' = closing s ++ pieces.flatMap (pieceMessages fl str_ o ids) := by
  induction pieces generalizing s with
  | nil =>
    cases h
    exact (List.append_nil _).symm
  | cons piece pieces ih =>
    rw [List.flatMap_cons, List.foldlM_append] at h
    cases hpiece : (piece.gather ++ piece.outputs).foldlM (convert_item fl str_ o ids) s with
    | none =>
      rw [hpiece] at h
      cases h
    | some s₁ =>
      rw [hpiece] at h
      obtain ⟨hclosing, hempty⟩ := piece_run fl str_ o (hsorted piece List.mem_cons_self) hs (hfirst piece rfl) hpiece
      rw [List.flatMap_cons, ← List.append_assoc, ← hclosing]
      cases pieces with
      | nil =>
        cases h
        exact (List.append_nil _).symm
      | cons next pieces =>
        obtain ⟨houtputs, hgather, hrest⟩ := hchained
        refine ih (fun p hp => hsorted p (List.mem_cons_of_mem _ hp)) hrest (hempty houtputs) ?_ h
        intro p hp
        cases hp
        exact Or.inl hgather

/-- **The messages of the items are those of their pieces.** -/
theorem written_messages_eq {items : List Val} {messages : List Message}
    (h : written_messages fl str_ o items = some messages) : ∃ ids, function_call_ids items = some ids ∧
      messages = (cut items).flatMap (pieceMessages fl str_ o ids) := by
  rw [written_messages] at h
  cases hids : function_call_ids items with
  | none =>
    rw [hids] at h
    cases h
  | some ids =>
    rw [hids] at h
    cases hrun : items.foldlM (convert_item fl str_ o ids) ⟨[], .empty, []⟩ with
    | none =>
      have hnone : (items.foldlM (convert_item fl str_ o ids) ⟨[], .empty, []⟩).bind
          (fun s => some (flush_pending (flush_tool_images s)).messages) = some messages := h
      rw [hrun] at hnone
      cases hnone
    | some s =>
      have hsome : (items.foldlM (convert_item fl str_ o ids) ⟨[], .empty, []⟩).bind
          (fun s => some (flush_pending (flush_tool_images s)).messages) = some messages := h
      rw [hrun] at hsome
      refine ⟨ids, rfl, ?_⟩
      have hclosing : closing s = closing ⟨[], .empty, []⟩ ++ (cut items).flatMap (pieceMessages fl str_ o ids) := by
        refine pieces_run fl str_ o (sorted_cut items) (chained_cut items) rfl ?_ ?_
        · intro piece _
          exact Or.inr rfl
        · rw [cut_flatten]
          exact hrun
      exact (Option.some.inj hsome).symm.trans hclosing

end

end Replay
end MaterialOpenWebui
