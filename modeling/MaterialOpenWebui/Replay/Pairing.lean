import MaterialOpenWebui.Replay.Stretches
import MaterialOpenWebui.Lib.AllSome
import MaterialOpenWebui.Py.JsonRoundTrip

/-!
# `Replay.Pairing` — when the messages of stored output are paired

A provider takes a message with calls only if exactly their results follow it at once. `reconcile_tool_pairs` compares the
ids of all messages, not where they stand; the messages are paired if and only if the items are `Orderly`: the calls that
are gathered before an output are answered, once each, before something else is said.
-/

namespace MaterialOpenWebui
namespace Replay
open Py Turns AllSome
open Anthropic (field isText isText_iff field_of_isDict asText Key key?)
open Responses (iterate)

/-! ## Ids -/

def textOf (v : Val) : Str := v.text?.getD []

def idOf (item : Val) : Str := textOf (item.get (py "call_id"))

def is_call (item : Val) : Bool := isText (item.get (py "type")) (py "function_call")

/-- The ids of the calls among items. -/
def calledIds (items : List Val) : List Str := (items.filter is_call).map idOf

def answeredIds (items : List Val) : List Str := (items.filter is_call_output).map idOf

/-- Calls and outputs have ids. -/
def Named (items : List Val) : Prop :=
  ∀ item ∈ items, is_call item = true ∨ is_call_output item = true →
    ∃ s, s ≠ [] ∧ Dict.lookup item.items (py "call_id") = some (.str s)

def callsOf : Message → List Str
  | .assistant _ tool_calls _ _ => tool_calls.map fun call => textOf call.id
  | _ => []

def answerOf : Message → Option Str
  | .tool id _ => some (textOf id)
  | _ => none

/-! ## The condition -/

/-- A text that is not blank, or reasoning. -/
def visible (content : Str) (reasoning_content : Option Str) : Bool :=
  !(strip content).isEmpty || !(reasoning_content.getD []).isEmpty

/-- The images of an output. -/
def outputImages (str_ : Val → Str) (item : Val) : List Val :=
  (((field item (py "output") (.list [])).bind iterate).bind (output_content str_)).elim [] Prod.snd

section
variable (fl : Floats) (str_ : Val → Str) (o : Options)

/-- Of a piece: whether it says anything, its calls that are answered somewhere, the calls its outputs answer, and whether
    its images are shown. -/
def stretch (called answered : List Str) (piece : Piece) : Stretch Str :=
  let p := gathered fl str_ o piece.gather
  let calls := (calledIds piece.gather).filter fun id => decide (id ∈ answered)
  { speaks := !p.isEmpty && ((calledIds piece.gather).isEmpty || !calls.isEmpty ||
      visible (joinTexts p.content) (if p.reasoning.isEmpty then none else some (joinTexts p.reasoning)))
    calls := calls
    answered := (piece.outputs.map idOf).filter fun id => decide (id ∈ called)
    closes := o.flatten_tool_images &&
      piece.outputs.any fun item => decide (idOf item ∈ called) && !(outputImages str_ item).isEmpty }

/-- Calls that are answered somewhere are answered, once each, before anything else is said, and nothing else is
    answered. -/
def Orderly (items : List Val) : Prop :=
  let stretches := (cut items).map (stretch fl str_ o (calledIds items) (answeredIds items))
  answeredNext stretches = [] ∧ Settled stretches

/-! ## What items add -/

/-- The type of an item, whatever stands for a missing one. -/
theorem isText_type {item t default : Val} {text : Str} (h : field item (py "type") default = some t)
    (hdefault : isText default text = false) : isText t text = isText (item.get (py "type")) text := by
  rw [field] at h
  by_cases hdict : item.isDict = true
  · rw [if_pos hdict] at h
    rw [Val.get, ← Option.some.inj h]
    cases Dict.lookup item.items (py "type") with
    | none => exact hdefault
    | some v => rfl
  · rw [if_neg hdict] at h
    cases h

theorem calls_ofContent (text : Str) : (Pending.ofContent text).tool_calls = [] := rfl

theorem calls_message_adds {item : Val} {p : Pending} (h : message_adds item = some p) : p.tool_calls = [] := by
  obtain ⟨content, -, h⟩ := Option.bind_eq_some_iff.mp h
  obtain ⟨parts, -, h⟩ := Option.bind_eq_some_iff.mp h
  obtain ⟨text, -, h⟩ := Option.bind_eq_some_iff.mp h
  rw [← Option.some.inj h, calls_ofContent]

theorem calls_reasoning_text_adds {item : Val} {text : Str} {p : Pending}
    (h : reasoning_text_adds str_ o item text = some p) : p.tool_calls = [] := by
  rw [reasoning_text_adds] at h
  split at h
  · rw [← Option.some.inj h]
    rfl
  · split at h
    · obtain ⟨start_tag, -, h⟩ := Option.bind_eq_some_iff.mp h
      obtain ⟨end_tag, -, h⟩ := Option.bind_eq_some_iff.mp h
      rw [← Option.some.inj h, calls_ofContent]
    · split at h
      · rw [← Option.some.inj h]
        rfl
      · rw [← Option.some.inj h]
        rfl

theorem calls_reasoning_adds {item : Val} {p : Pending} (h : reasoning_adds str_ o item = some p) :
    p.tool_calls = [] := by
  obtain ⟨stored, -, h⟩ := Option.bind_eq_some_iff.mp h
  dsimp only at h
  generalize (if o.raw = true then stored else Val.none) = reasoning_details at h
  split at h
  · rw [← Option.some.inj h]
    rfl
  · obtain ⟨summary, -, h⟩ := Option.bind_eq_some_iff.mp h
    obtain ⟨content, -, h⟩ := Option.bind_eq_some_iff.mp h
    obtain ⟨parts, -, h⟩ := Option.bind_eq_some_iff.mp h
    obtain ⟨text, -, h⟩ := Option.bind_eq_some_iff.mp h
    obtain ⟨adds, hadds, h⟩ := Option.bind_eq_some_iff.mp h
    rw [← Option.some.inj h]
    show adds.tool_calls ++ [] = []
    rw [calls_reasoning_text_adds str_ o hadds]
    rfl

theorem calls_code_adds {item : Val} {p : Pending} (h : code_adds str_ item = some p) : p.tool_calls = [] := by
  obtain ⟨code, -, h⟩ := Option.bind_eq_some_iff.mp h
  obtain ⟨code_output, -, h⟩ := Option.bind_eq_some_iff.mp h
  rw [← Option.some.inj h]
  dsimp only [Pending.append]
  split <;> split <;> rfl

/-- A call of the id of the item, with that id. -/
def CallFor (item : Val) (call : ToolCall) : Prop := call.id = (Dict.lookup item.items (py "call_id")).getD (.str [])

theorem calls_call_adds {item : Val} {p : Pending} (h : call_adds fl item = some p) :
    ∃ call, p.tool_calls = [call] ∧ CallFor item call := by
  obtain ⟨arguments, -, h⟩ := Option.bind_eq_some_iff.mp h
  obtain ⟨id, hid, h⟩ := Option.bind_eq_some_iff.mp h
  obtain ⟨name, -, h⟩ := Option.bind_eq_some_iff.mp h
  rw [field] at hid
  split at hid
  · rw [← Option.some.inj h]
    exact ⟨_, rfl, (Option.some.inj hid).symm⟩
  · cases hid

/-- A call adds itself, and nothing else adds a call. -/
theorem calls_adds {item : Val} {p : Pending} (h : adds fl str_ o item = some p) :
    if is_call item = true then ∃ call, p.tool_calls = [call] ∧ CallFor item call else p.tool_calls = [] := by
  obtain ⟨item_type, htype, h⟩ := Option.bind_eq_some_iff.mp h
  have hcall : isText item_type (py "function_call") = is_call item := isText_type htype (by decide)
  have hother : ∀ text, isText item_type text = true → text ≠ py "function_call" → ¬is_call item = true := by
    intro text htext hne hiscall
    rw [← hcall, isText_iff] at hiscall
    rw [isText_iff, hiscall] at htext
    exact hne (Val.str.inj htext).symm
  split at h
  · rename_i htext
    rw [if_neg (hother _ htext (by decide))]
    exact calls_message_adds h
  · split at h
    · rename_i htext
      rw [hcall] at htext
      rw [if_pos htext]
      exact calls_call_adds fl h
    · rename_i hnot
      rw [hcall] at hnot
      rw [if_neg hnot]
      split at h
      · exact calls_reasoning_adds str_ o h
      · split at h
        · exact calls_code_adds str_ h
        · obtain ⟨-, -, hp⟩ := Option.map_eq_some_iff.mp h
          rw [← hp]
          rfl

/-- Every item of a run was converted. -/
structure Converted (ids : List Key) (item : Val) : Prop where
  adds : is_call_output item = false → ∃ p, adds fl str_ o item = some p
  output : is_call_output item = true → ∃ m, convert_call_output str_ o ids item = some m

theorem converted_of_run {ids : List Key} {items : List Val} {s s' : State}
    (h : items.foldlM (convert_item fl str_ o ids) s = some s') : ∀ item ∈ items, Converted fl str_ o ids item := by
  induction items generalizing s with
  | nil =>
    intro item hitem
    cases hitem
  | cons item items ih =>
    rw [List.foldlM_cons] at h
    obtain ⟨s₁, hitem, hrest⟩ := Option.bind_eq_some_iff.mp h
    refine List.forall_mem_cons.mpr ⟨?_, ih hrest⟩
    rw [convert_item] at hitem
    constructor
    · intro hother
      rw [hother] at hitem
      obtain ⟨p, hp, -⟩ := Option.bind_eq_some_iff.mp hitem
      exact ⟨p, hp⟩
    · intro houtput
      rw [houtput] at hitem
      obtain ⟨m, hm, -⟩ := Option.bind_eq_some_iff.mp hitem
      exact ⟨m, hm⟩

/-- The calls that are gathered are those of the items, in order. -/
theorem calls_gathered {ids : List Key} {items : List Val} (hconverted : ∀ item ∈ items, Converted fl str_ o ids item)
    (hgather : ∀ item ∈ items, is_call_output item = false) :
    List.Forall₂ CallFor (items.filter is_call) (gathered fl str_ o items).tool_calls := by
  induction items with
  | nil => exact .nil
  | cons item items ih =>
    have hrest := ih (fun i hi => hconverted i (List.mem_cons_of_mem _ hi)) fun i hi => hgather i
      (List.mem_cons_of_mem _ hi)
    obtain ⟨p, hp⟩ := (hconverted item List.mem_cons_self).adds (hgather item List.mem_cons_self)
    have hcalls := calls_adds fl str_ o hp
    have hgathered : (gathered fl str_ o (item :: items)).tool_calls =
        p.tool_calls ++ (gathered fl str_ o items).tool_calls := by
      rw [gathered, List.foldr_cons, hp]
      rfl
    rw [hgathered]
    by_cases hcall : is_call item = true
    · rw [if_pos hcall] at hcalls
      obtain ⟨call, hone, hfor⟩ := hcalls
      rw [List.filter_cons_of_pos hcall, hone]
      exact .cons hfor hrest
    · rw [if_neg hcall] at hcalls
      rw [List.filter_cons_of_neg hcall, hcalls]
      exact hrest

/-- What an output with an id is converted to. -/
theorem convert_call_output_eq {ids : List Key} {item : Val} {m : Message} {urls : List Val} {s : Str}
    (hs : Dict.lookup item.items (py "call_id") = some (.str s))
    (h : convert_call_output str_ o ids item = some (m, urls)) :
    ∃ content, m = .tool (.str s) content ∧
      urls = if o.flatten_tool_images = true ∧ Key.str s ∈ ids then outputImages str_ item else [] := by
  obtain ⟨output, houtput, h⟩ := Option.bind_eq_some_iff.mp h
  obtain ⟨parts, hparts, h⟩ := Option.bind_eq_some_iff.mp h
  obtain ⟨p, hp, h⟩ := Option.bind_eq_some_iff.mp h
  obtain ⟨content, image_urls⟩ := p
  obtain ⟨id, hid, h⟩ := Option.bind_eq_some_iff.mp h
  have hid' : id = .str s := by
    rw [field] at hid
    split at hid
    · rw [hs] at hid
      exact (Option.some.inj hid).symm
    · cases hid
  have hget : item.get (py "call_id") = .str s := by
    rw [Val.get, hs]
    rfl
  have himages : outputImages str_ item = image_urls := by
    rw [outputImages, houtput]
    show ((iterate output).bind _).elim _ _ = _
    rw [hparts]
    show (output_content str_ parts).elim _ _ = _
    rw [hp]
    rfl
  rw [himages]
  subst hid'
  dsimp only at h
  by_cases hflatten : o.flatten_tool_images = true
  · rw [if_pos hflatten, hget] at h
    obtain ⟨key, hkey, h⟩ := Option.bind_eq_some_iff.mp h
    have hk : key = .str s := (Option.some.inj hkey).symm
    subst hk
    cases h
    refine ⟨_, rfl, ?_⟩
    by_cases hmem : Key.str s ∈ ids
    · rw [if_pos hmem, if_pos ⟨hflatten, hmem⟩]
    · rw [if_neg hmem, if_neg fun hboth => hmem hboth.2]
  · rw [if_neg hflatten] at h
    cases h
    exact ⟨_, rfl, (if_neg fun hboth => hflatten hboth.1).symm⟩

end

/-- The id of a named item. -/
theorem lookup_of_named {items : List Val} (hnamed : Named items) {item : Val} (hmem : item ∈ items)
    (h : is_call item = true ∨ is_call_output item = true) :
    idOf item ≠ [] ∧ Dict.lookup item.items (py "call_id") = some (.str (idOf item)) := by
  obtain ⟨s, hne, hs⟩ := hnamed item hmem h
  have hid : idOf item = s := by
    rw [idOf, Val.get, hs]
    rfl
  rw [hid]
  exact ⟨hne, hs⟩

theorem mem_map_str {s : Str} {ids : List Str} : Key.str s ∈ ids.map Key.str ↔ s ∈ ids := by
  rw [List.mem_map]
  constructor
  · rintro ⟨t, ht, heq⟩
    cases heq
    exact ht
  · intro hs
    exact ⟨s, hs, rfl⟩

/-- The ids that images are looked up in are those of the calls. -/
theorem mem_function_call_ids {items : List Val} (hnamed : Named items) {ids : List Key}
    (h : function_call_ids items = some ids) (s : Str) : Key.str s ∈ ids ↔ s ∈ calledIds items := by
  have hall : ∀ (items : List Val) (keys : List (Option Key)), Named items → items.mapM call_key = some keys →
      keys.filterMap id = (calledIds items).map Key.str := by
    intro items
    induction items with
    | nil =>
      intro keys _ hkeys
      cases hkeys
      rfl
    | cons item items ih =>
      intro keys hnamed hkeys
      rw [List.mapM_cons] at hkeys
      obtain ⟨key, hkey, hkeys⟩ := Option.bind_eq_some_iff.mp hkeys
      obtain ⟨rest, hrest, hkeys⟩ := Option.bind_eq_some_iff.mp hkeys
      have ih := ih rest (fun i hi => hnamed i (List.mem_cons_of_mem _ hi)) hrest
      rw [← Option.some.inj hkeys]
      obtain ⟨item_type, htype, hkey⟩ := Option.bind_eq_some_iff.mp hkey
      obtain ⟨call_id, hid, hkey⟩ := Option.bind_eq_some_iff.mp hkey
      have hcall : isText item_type (py "function_call") = is_call item := isText_type htype rfl
      rw [hcall] at hkey
      by_cases hiscall : is_call item = true
      · obtain ⟨hne, hlookup⟩ := lookup_of_named hnamed List.mem_cons_self (Or.inl hiscall)
        have hcall_id : call_id = .str (idOf item) := by
          rw [field] at hid
          split at hid
          · rw [hlookup] at hid
            exact (Option.some.inj hid).symm
          · cases hid
        have htruthy : (Val.str (idOf item)).truthy = true := decide_eq_true hne
        rw [hiscall, hcall_id, htruthy] at hkey
        rw [← Option.some.inj hkey, calledIds, List.filter_cons_of_pos hiscall]
        show Key.str (idOf item) :: rest.filterMap id = Key.str (idOf item) :: (calledIds items).map Key.str
        rw [ih]
      · have hnot : is_call item = false := Bool.not_eq_true _ ▸ hiscall
        rw [hnot] at hkey
        rw [← Option.some.inj hkey, calledIds, List.filter_cons_of_neg hiscall]
        exact ih
  obtain ⟨keys, hkeys, hids⟩ := Option.map_eq_some_iff.mp h
  rw [← hids, hall items keys hnamed hkeys]
  exact mem_map_str

/-! ## Reconciling -/

/-- A text that is not empty. -/
def IsName (v : Val) : Prop := v = .str (textOf v) ∧ textOf v ≠ []

/-- The ids of a message are texts that are not empty. -/
def Proper : Message → Prop
  | .tool id _ => IsName id
  | .assistant _ tool_calls _ _ => ∀ call ∈ tool_calls, IsName call.id
  | .user _ => True

theorem id_key_of_isName {v : Val} (h : IsName v) : id_key v = some [.str (textOf v)] := by
  obtain ⟨hv, hne⟩ := h
  have htruthy : (Val.str (textOf v)).truthy = true := decide_eq_true hne
  rw [id_key, hv, htruthy]
  rfl

theorem key?_of_isName {v : Val} (h : IsName v) : key? v = some (.str (textOf v)) := by
  rw [h.1]
  rfl

/-- What is kept of a message when these ids are answered and called for. -/
def keep (answered called : List Str) : Message → List Message
  | .tool id content => if textOf id ∈ called then [.tool id content] else []
  | .user content => [.user content]
  | .assistant content tool_calls reasoning_content reasoning_details =>
    if tool_calls.isEmpty then [.assistant content tool_calls reasoning_content reasoning_details]
    else
      let valid := tool_calls.filter fun call => decide (textOf call.id ∈ answered)
      if !valid.isEmpty then [.assistant content valid reasoning_content reasoning_details]
      else if visible content reasoning_content then [.assistant content [] reasoning_content reasoning_details]
      else []

theorem reconcile_message_eq {completed requested : List Key} {answered called : List Str}
    (hcompleted : ∀ s, Key.str s ∈ completed ↔ s ∈ answered) (hrequested : ∀ s, Key.str s ∈ requested ↔ s ∈ called)
    {m : Message} (hm : Proper m) : reconcile_message completed requested m = some (keep answered called m) := by
  cases m with
  | user content => rfl
  | tool id content =>
    rw [reconcile_message, key?_of_isName hm, keep]
    show some (if Key.str (textOf id) ∈ requested then _ else _) = _
    by_cases h : textOf id ∈ called
    · rw [if_pos h, if_pos ((hrequested _).mpr h)]
    · rw [if_neg h, if_neg fun hr => h ((hrequested _).mp hr)]
  | assistant content tool_calls reasoning_content reasoning_details =>
    rw [reconcile_message, keep]
    by_cases hempty : tool_calls.isEmpty = true
    · rw [if_pos hempty, if_pos hempty]
    · have hkeyed : tool_calls.mapM (fun call => (key? call.id).map fun key => (key, call)) =
          some (tool_calls.map fun call => (Key.str (textOf call.id), call)) := by
        refine mapM_eq_map fun call hcall => ?_
        rw [key?_of_isName (hm call hcall)]
        rfl
      have hvalid : ((tool_calls.map fun call => (Key.str (textOf call.id), call)).filter
          fun p => decide (p.1 ∈ completed)).map Prod.snd =
          tool_calls.filter fun call => decide (textOf call.id ∈ answered) := by
        rw [List.filter_map, List.map_map]
        have hpred : ((fun p : Key × ToolCall => decide (p.1 ∈ completed)) ∘
            fun call => (Key.str (textOf call.id), call)) = fun call => decide (textOf call.id ∈ answered) := by
          funext call
          exact decide_eq_decide.mpr (hcompleted _)
        rw [hpred]
        exact List.map_id _
      rw [if_neg hempty, if_neg hempty, hkeyed]
      show (if (!(((tool_calls.map fun call => (Key.str (textOf call.id), call)).filter
        fun p => decide (p.1 ∈ completed)).map Prod.snd).isEmpty) = true then _ else _) = _
      rw [hvalid]
      by_cases hsome : (!(tool_calls.filter fun call => decide (textOf call.id ∈ answered)).isEmpty) = true
      · dsimp only
        rw [if_pos hsome, if_pos hsome]
      · dsimp only
        rw [if_neg hsome, if_neg hsome]
        by_cases hvisible : visible content reasoning_content = true
        · rw [if_pos hvisible, if_pos]
          rw [visible, Bool.or_eq_true, Bool.not_eq_true', Bool.not_eq_true', List.isEmpty_eq_false_iff,
            List.isEmpty_eq_false_iff] at hvisible
          exact hvisible
        · rw [if_neg hvisible, if_neg]
          intro h
          apply hvisible
          rw [visible, Bool.or_eq_true, Bool.not_eq_true', Bool.not_eq_true', List.isEmpty_eq_false_iff,
            List.isEmpty_eq_false_iff]
          exact h

theorem flatten_keys (f : Message → List Str) (messages : List Message) :
    (messages.map fun m => (f m).map Key.str).flatten = (messages.flatMap f).map Key.str := by
  rw [List.map_flatMap, List.flatMap_def]

theorem completed_tool_call_ids_eq {messages : List Message} (h : ∀ m ∈ messages, Proper m) :
    completed_tool_call_ids messages = some ((messages.filterMap answerOf).map Key.str) := by
  have hkeys : ∀ m ∈ messages, completed_keys m = some ((answerOf m).toList.map Key.str) := by
    intro m hm
    have hproper := h m hm
    cases m with
    | tool id content => exact id_key_of_isName hproper
    | _ => rfl
  rw [completed_tool_call_ids, mapM_eq_map hkeys, List.filterMap_eq_flatMap_toList, ← flatten_keys]
  rfl

theorem requested_tool_call_ids_eq {messages : List Message} (h : ∀ m ∈ messages, Proper m) :
    requested_tool_call_ids messages = some ((messages.flatMap callsOf).map Key.str) := by
  have hkeys : ∀ m ∈ messages, requested_keys m = some ((callsOf m).map Key.str) := by
    intro m hm
    have hproper := h m hm
    cases m with
    | assistant content tool_calls reasoning_content reasoning_details =>
      have hcalls : ∀ call ∈ tool_calls, id_key call.id = some [Key.str (textOf call.id)] :=
        fun call hcall => id_key_of_isName (hproper call hcall)
      rw [requested_keys, mapM_eq_map hcalls]
      show some (tool_calls.map fun call => [Key.str (textOf call.id)]).flatten = some ((tool_calls.map _).map Key.str)
      rw [List.map_map, List.map_eq_flatMap (f := Key.str ∘ _), List.flatMap_def]
      rfl
    | _ => rfl
  rw [requested_tool_call_ids, mapM_eq_map hkeys, ← flatten_keys]
  rfl

/-- **Reconciling** keeps of each message what is answered or called for somewhere. -/
theorem reconcile_tool_pairs_eq {messages : List Message} (h : ∀ m ∈ messages, Proper m) :
    reconcile_tool_pairs messages =
      some (messages.flatMap (keep (messages.filterMap answerOf) (messages.flatMap callsOf))) := by
  have hkeep : ∀ m ∈ messages, reconcile_message ((messages.filterMap answerOf).map Key.str)
      ((messages.flatMap callsOf).map Key.str) m =
        some (keep (messages.filterMap answerOf) (messages.flatMap callsOf) m) :=
    fun m hm => reconcile_message_eq (fun _ => mem_map_str) (fun _ => mem_map_str) (h m hm)
  rw [reconcile_tool_pairs, completed_tool_call_ids_eq h, requested_tool_call_ids_eq h]
  show (messages.mapM (reconcile_message _ _)).bind (fun kept => some kept.flatten) = _
  rw [mapM_eq_map hkeep]
  rfl

/-! ## The messages of a piece -/

section
variable (fl : Floats) (str_ : Val → Str) (o : Options)

/-- The ids of the calls that are gathered. -/
theorem ids_gathered {items : List Val} {ids : List Key} {piece : Piece} (hnamed : Named items) (hsorted : piece.Sorted)
    (hmem : ∀ item ∈ piece.gather, item ∈ items) (hconverted : ∀ item ∈ piece.gather, Converted fl str_ o ids item) :
    (gathered fl str_ o piece.gather).tool_calls.map (fun call => textOf call.id) = calledIds piece.gather ∧
      ∀ call ∈ (gathered fl str_ o piece.gather).tool_calls, IsName call.id := by
  have hcalls := calls_gathered fl str_ o hconverted hsorted.gather
  have hfilter : ∀ item ∈ piece.gather.filter is_call, item ∈ items ∧ is_call item = true :=
    fun item hitem => ⟨hmem item (List.mem_filter.mp hitem).1, (List.mem_filter.mp hitem).2⟩
  rw [calledIds]
  generalize piece.gather.filter is_call = calls at hcalls hfilter
  generalize (gathered fl str_ o piece.gather).tool_calls = tool_calls at hcalls
  induction hcalls with
  | nil =>
    refine ⟨rfl, ?_⟩
    intro call hcall
    cases hcall
  | @cons item call calls tool_calls hfor hrest ih =>
    obtain ⟨hitem, hiscall⟩ := hfilter item List.mem_cons_self
    obtain ⟨hne, hlookup⟩ := lookup_of_named hnamed hitem (Or.inl hiscall)
    obtain ⟨hmap, hall⟩ := ih fun i hi => hfilter i (List.mem_cons_of_mem _ hi)
    have hid : call.id = .str (idOf item) := by
      rw [hfor, hlookup]
      rfl
    refine ⟨?_, List.forall_mem_cons.mpr ⟨?_, hall⟩⟩
    · rw [List.map_cons, List.map_cons, hmap, hid]
      rfl
    · rw [hid]
      exact ⟨rfl, hne⟩

/-- An output is a message that answers its id. -/
theorem answers_eq {items : List Val} {ids : List Key} (hnamed : Named items) {outputs : List Val}
    (houtputs : ∀ item ∈ outputs, is_call_output item = true) (hmem : ∀ item ∈ outputs, item ∈ items)
    (hconverted : ∀ item ∈ outputs, Converted fl str_ o ids item) :
    List.Forall₂ (fun item m => ∃ content, m = Message.tool (.str (idOf item)) content ∧ idOf item ≠ []) outputs
      (answers str_ o ids outputs) := by
  induction outputs with
  | nil => exact .nil
  | cons item outputs ih =>
    have hrest := ih (fun i hi => houtputs i (List.mem_cons_of_mem _ hi)) (fun i hi => hmem i (List.mem_cons_of_mem _ hi))
      fun i hi => hconverted i (List.mem_cons_of_mem _ hi)
    obtain ⟨⟨m, urls⟩, hp⟩ := (hconverted item List.mem_cons_self).output (houtputs item List.mem_cons_self)
    obtain ⟨hne, hlookup⟩ := lookup_of_named hnamed (hmem item List.mem_cons_self)
      (Or.inr (houtputs item List.mem_cons_self))
    obtain ⟨content, hm, -⟩ := convert_call_output_eq str_ o hlookup hp
    have hanswers : answers str_ o ids (item :: outputs) = m :: answers str_ o ids outputs := by
      rw [answers, List.flatMap_cons, hp]
      rfl
    rw [hanswers]
    exact .cons ⟨content, hm, hne⟩ hrest

/-- Whether a piece shows images. -/
theorem images_isEmpty {items : List Val} {ids : List Key} (hnamed : Named items)
    (hids : ∀ s, Key.str s ∈ ids ↔ s ∈ calledIds items) {outputs : List Val}
    (houtputs : ∀ item ∈ outputs, is_call_output item = true) (hmem : ∀ item ∈ outputs, item ∈ items)
    (hconverted : ∀ item ∈ outputs, Converted fl str_ o ids item) :
    (images str_ o ids outputs).isEmpty = !(o.flatten_tool_images &&
      outputs.any fun item => decide (idOf item ∈ calledIds items) && !(outputImages str_ item).isEmpty) := by
  induction outputs with
  | nil => rw [List.any_nil, Bool.and_false]; rfl
  | cons item outputs ih =>
    have hrest := ih (fun i hi => houtputs i (List.mem_cons_of_mem _ hi)) (fun i hi => hmem i (List.mem_cons_of_mem _ hi))
      fun i hi => hconverted i (List.mem_cons_of_mem _ hi)
    obtain ⟨⟨m, urls⟩, hp⟩ := (hconverted item List.mem_cons_self).output (houtputs item List.mem_cons_self)
    obtain ⟨-, hlookup⟩ := lookup_of_named hnamed (hmem item List.mem_cons_self)
      (Or.inr (houtputs item List.mem_cons_self))
    obtain ⟨content, -, hurls⟩ := convert_call_output_eq str_ o hlookup hp
    have himages : images str_ o ids (item :: outputs) = urls ++ images str_ o ids outputs := by
      rw [images, List.flatMap_cons, hp]
      rfl
    have happend : ∀ l l' : List Val, (l ++ l').isEmpty = (l.isEmpty && l'.isEmpty) := by
      intro l l'
      cases l <;> rfl
    rw [himages, happend, hrest, List.any_cons, hurls]
    cases o.flatten_tool_images with
    | false => rfl
    | true =>
      by_cases hcalled : idOf item ∈ calledIds items
      · rw [if_pos ⟨rfl, (hids _).mpr hcalled⟩, decide_eq_true hcalled, Bool.true_and, Bool.true_and, Bool.true_and,
          Bool.not_or, Bool.not_not]
      · rw [if_neg fun hboth => hcalled ((hids _).mp hboth.2), decide_eq_false hcalled]
        rfl

/-- The message of what is gathered is kept if and only if the piece speaks. -/
theorem keep_said {called answered : List Str} {p : Pending} {calls : List Str}
    (hcalls : p.tool_calls.map (fun call => textOf call.id) = calls) {speaks : Bool}
    (hspeaks : speaks = (!p.isEmpty && (calls.isEmpty || !(calls.filter fun id => decide (id ∈ answered)).isEmpty ||
      visible (joinTexts p.content) (if p.reasoning.isEmpty then none else some (joinTexts p.reasoning))))) :
    speaks = false ∧ (said p).flatMap (keep answered called) = [] ∨
      speaks = true ∧ ∃ m, (said p).flatMap (keep answered called) = [m] ∧ answerOf m = none ∧
        callsOf m = calls.filter fun id => decide (id ∈ answered) := by
  have hvalid : (p.tool_calls.filter fun call => decide (textOf call.id ∈ answered)).map (fun call => textOf call.id) =
      calls.filter fun id => decide (id ∈ answered) := by
    rw [← hcalls, List.filter_map]
    rfl
  have hempty : p.tool_calls.isEmpty = calls.isEmpty := by
    rw [← hcalls, List.isEmpty_map]
  have hnone : (p.tool_calls.filter fun call => decide (textOf call.id ∈ answered)).isEmpty =
      (calls.filter fun id => decide (id ∈ answered)).isEmpty := by
    rw [← hvalid, List.isEmpty_map]
  rw [said]
  cases hp : p.isEmpty with
  | true =>
    rw [hp] at hspeaks
    exact Or.inl ⟨hspeaks, rfl⟩
  | false =>
    rw [hp] at hspeaks
    rw [if_neg Bool.false_ne_true, List.flatMap_singleton, Pending.message, keep]
    dsimp only
    rw [hempty, hnone]
    cases hc : calls.isEmpty with
    | true =>
      rw [hc] at hspeaks
      refine Or.inr ⟨hspeaks, _, if_pos rfl, rfl, ?_⟩
      rw [List.isEmpty_iff.mp hc] at hcalls ⊢
      exact hcalls
    | false =>
      rw [hc] at hspeaks
      rw [if_neg Bool.false_ne_true]
      cases hv : (calls.filter fun id => decide (id ∈ answered)).isEmpty with
      | false =>
        rw [hv] at hspeaks
        exact Or.inr ⟨hspeaks, _, if_pos rfl, rfl, hvalid⟩
      | true =>
        rw [hv] at hspeaks
        cases hvis : visible (joinTexts p.content)
            (if p.reasoning.isEmpty then none else some (joinTexts p.reasoning)) with
        | true =>
          rw [hvis] at hspeaks
          exact Or.inr ⟨hspeaks, _, rfl, rfl, (List.isEmpty_iff.mp hv).symm⟩
        | false =>
          rw [hvis] at hspeaks
          exact Or.inl ⟨hspeaks, rfl⟩

/-- The answers that are kept are those to calls that are known. -/
theorem keep_answers {called answered : List Str} {outputs : List Val} {messages : List Message}
    (h : List.Forall₂ (fun item m => ∃ content, m = Message.tool (.str (idOf item)) content ∧ idOf item ≠ []) outputs
      messages) :
    (messages.flatMap (keep answered called)).map answerOf =
      ((outputs.map idOf).filter fun id => decide (id ∈ called)).map some := by
  induction h with
  | nil => rfl
  | @cons item m outputs messages hm _ ih =>
    obtain ⟨content, rfl, -⟩ := hm
    rw [List.flatMap_cons, List.map_append, ih, List.map_cons, keep]
    show (if idOf item ∈ called then [_] else []).map answerOf ++ _ = _
    by_cases hcalled : idOf item ∈ called
    · rw [if_pos hcalled, List.filter_cons, decide_eq_true hcalled]
      rfl
    · rw [if_neg hcalled, List.filter_cons, decide_eq_false hcalled]
      rfl

/-- **One piece.** What is kept of its messages is what the piece says. -/
theorem written_piece {items : List Val} {ids : List Key} {piece : Piece} (hnamed : Named items)
    (hids : ∀ s, Key.str s ∈ ids ↔ s ∈ calledIds items) (hsorted : piece.Sorted)
    (hmem : ∀ item ∈ piece.gather ++ piece.outputs, item ∈ items)
    (hconverted : ∀ item ∈ piece.gather ++ piece.outputs, Converted fl str_ o ids item) (answered : List Str) :
    Written callsOf answerOf (stretch fl str_ o (calledIds items) answered piece)
      ((pieceMessages fl str_ o ids piece).flatMap (keep answered (calledIds items))) := by
  have hgather : ∀ item ∈ piece.gather, Converted fl str_ o ids item :=
    fun item hitem => hconverted item (List.mem_append_left _ hitem)
  have houtputs : ∀ item ∈ piece.outputs, Converted fl str_ o ids item :=
    fun item hitem => hconverted item (List.mem_append_right _ hitem)
  have hcalls := (ids_gathered fl str_ o hnamed hsorted (fun item hitem => hmem item (List.mem_append_left _ hitem))
    hgather).1
  have hanswers := answers_eq fl str_ o hnamed hsorted.outputs
    (fun item hitem => hmem item (List.mem_append_right _ hitem)) houtputs
  have himages := images_isEmpty fl str_ o hnamed hids hsorted.outputs
    (fun item hitem => hmem item (List.mem_append_right _ hitem)) houtputs
  have hsaid := @keep_said (calledIds items) answered _ _ hcalls _
    (rfl : (stretch fl str_ o (calledIds items) answered piece).speaks = _)
  have hkept : ((answers str_ o ids piece.outputs).flatMap (keep answered (calledIds items))).map answerOf =
      (stretch fl str_ o (calledIds items) answered piece).answered.map some := keep_answers hanswers
  refine ⟨_, _, (shown (images str_ o ids piece.outputs)).flatMap (keep answered (calledIds items)), ?_, hsaid, hkept, ?_⟩
  · rw [pieceMessages, List.flatMap_append, List.flatMap_append]
  · show (o.flatten_tool_images && _) = false ∧ _ ∨ (o.flatten_tool_images && _) = true ∧ _
    rw [shown]
    cases hclose : o.flatten_tool_images &&
        piece.outputs.any fun item => decide (idOf item ∈ calledIds items) && !(outputImages str_ item).isEmpty with
    | false =>
      rw [hclose] at himages
      rw [himages]
      exact Or.inl ⟨rfl, rfl⟩
    | true =>
      rw [hclose] at himages
      rw [himages]
      exact Or.inr ⟨rfl, _, rfl, rfl, rfl⟩

/-- The messages of a piece have proper ids, and these are the ids of its items. -/
structure Faithful (piece : Piece) (messages : List Message) : Prop where
  proper : ∀ m ∈ messages, Proper m
  answered : messages.filterMap answerOf = piece.outputs.map idOf
  called : messages.flatMap callsOf = calledIds piece.gather

theorem faithful_piece {items : List Val} {ids : List Key} {piece : Piece} (hnamed : Named items) (hsorted : piece.Sorted)
    (hmem : ∀ item ∈ piece.gather ++ piece.outputs, item ∈ items)
    (hconverted : ∀ item ∈ piece.gather ++ piece.outputs, Converted fl str_ o ids item) :
    Faithful piece (pieceMessages fl str_ o ids piece) := by
  obtain ⟨hcalls, hnames⟩ :=
    ids_gathered fl str_ o hnamed hsorted (fun item hitem => hmem item (List.mem_append_left _ hitem))
    (fun item hitem => hconverted item (List.mem_append_left _ hitem))
  have hanswers := answers_eq fl str_ o hnamed hsorted.outputs
    (fun item hitem => hmem item (List.mem_append_right _ hitem))
    (fun item hitem => hconverted item (List.mem_append_right _ hitem))
  -- what was gathered
  have hsaid : (∀ m ∈ said (gathered fl str_ o piece.gather), Proper m) ∧
      (said (gathered fl str_ o piece.gather)).filterMap answerOf = [] ∧
      (said (gathered fl str_ o piece.gather)).flatMap callsOf = calledIds piece.gather := by
    rw [said]
    cases hempty : (gathered fl str_ o piece.gather).isEmpty with
    | true =>
      rw [pending_of_isEmpty hempty] at hcalls
      refine ⟨?_, rfl, hcalls⟩
      intro m hm
      cases hm
    | false =>
      refine ⟨?_, rfl, ?_⟩
      · intro m hm
        rw [List.mem_singleton.mp hm]
        exact hnames
      · rw [if_neg Bool.false_ne_true, List.flatMap_singleton]
        exact hcalls
  -- the outputs
  have houtputs : (∀ m ∈ answers str_ o ids piece.outputs, Proper m) ∧
      (answers str_ o ids piece.outputs).filterMap answerOf = piece.outputs.map idOf ∧
      (answers str_ o ids piece.outputs).flatMap callsOf = [] := by
    clear hsaid hmem hconverted
    generalize answers str_ o ids piece.outputs = messages at hanswers
    generalize piece.outputs = outputs at hanswers
    induction hanswers with
    | nil =>
      refine ⟨?_, rfl, rfl⟩
      intro m hm
      cases hm
    | @cons item m outputs messages hm _ ih =>
      obtain ⟨content, rfl, hne⟩ := hm
      obtain ⟨hproper, hids, hnone⟩ := ih
      refine ⟨List.forall_mem_cons.mpr ⟨⟨rfl, hne⟩, hproper⟩, ?_, hnone⟩
      rw [List.map_cons, ← hids]
      rfl
  -- the images
  have hshown : (∀ m ∈ shown (images str_ o ids piece.outputs), Proper m) ∧
      (shown (images str_ o ids piece.outputs)).filterMap answerOf = [] ∧
      (shown (images str_ o ids piece.outputs)).flatMap callsOf = [] := by
    rw [shown]
    split
    · refine ⟨?_, rfl, rfl⟩
      intro m hm
      cases hm
    · refine ⟨?_, rfl, rfl⟩
      intro m hm
      rw [List.mem_singleton.mp hm]
      trivial
  constructor
  · intro m hm
    rw [pieceMessages, List.mem_append, List.mem_append] at hm
    rcases hm with hm | hm | hm
    · exact hsaid.1 m hm
    · exact houtputs.1 m hm
    · exact hshown.1 m hm
  · rw [pieceMessages, List.filterMap_append, List.filterMap_append, hsaid.2.1, houtputs.2.1, hshown.2.1, List.append_nil]
    rfl
  · rw [pieceMessages, List.flatMap_append, List.flatMap_append, hsaid.2.2, houtputs.2.2, hshown.2.2, List.append_nil,
      List.append_nil]

/-- An output is no call. -/
theorem not_is_call {item : Val} (h : is_call_output item = true) : ¬is_call item = true := by
  intro hcall
  rw [is_call, isText_iff] at hcall
  rw [is_call_output, isText_iff, hcall] at h
  exact absurd (Val.str.inj h) (by decide)

/-- The ids of the items, piece by piece. -/
theorem ids_pieces {pieces : List Piece} (h : ∀ piece ∈ pieces, piece.Sorted) :
    answeredIds (pieces.flatMap fun piece => piece.gather ++ piece.outputs) =
        pieces.flatMap (fun piece => piece.outputs.map idOf) ∧
      calledIds (pieces.flatMap fun piece => piece.gather ++ piece.outputs) =
        pieces.flatMap fun piece => calledIds piece.gather := by
  induction pieces with
  | nil => exact ⟨rfl, rfl⟩
  | cons piece pieces ih =>
    obtain ⟨hanswered, hcalled⟩ := ih fun p hp => h p (List.mem_cons_of_mem _ hp)
    have hsorted := h piece List.mem_cons_self
    have hnone : piece.gather.filter is_call_output = [] := by
      rw [List.filter_eq_nil_iff]
      intro item hitem
      rw [hsorted.gather item hitem]
      exact Bool.false_ne_true
    have hall : piece.outputs.filter is_call_output = piece.outputs := List.filter_eq_self.mpr hsorted.outputs
    have hno : piece.outputs.filter is_call = [] :=
      List.filter_eq_nil_iff.mpr fun item hitem => not_is_call (hsorted.outputs item hitem)
    constructor
    · rw [List.flatMap_cons, List.flatMap_cons, ← hanswered, answeredIds, List.filter_append, List.filter_append, hnone,
        hall, List.nil_append, List.map_append]
      rfl
    · rw [List.flatMap_cons, List.flatMap_cons, ← hcalled, calledIds, List.filter_append, List.filter_append, hno,
        List.append_nil, List.map_append]
      rfl

/-- Every item belongs to the reply and was converted. -/
theorem written_stretches {items : List Val} {ids : List Key} (hnamed : Named items)
    (hids : ∀ s, Key.str s ∈ ids ↔ s ∈ calledIds items) (hconverted : ∀ item ∈ items, Converted fl str_ o ids item)
    {pieces : List Piece} (hsorted : ∀ piece ∈ pieces, piece.Sorted)
    (hmem : ∀ piece ∈ pieces, ∀ item ∈ piece.gather ++ piece.outputs, item ∈ items) (answered : List Str) :
    List.Forall₂ (Written callsOf answerOf) (pieces.map (stretch fl str_ o (calledIds items) answered))
      (pieces.map fun piece => (pieceMessages fl str_ o ids piece).flatMap (keep answered (calledIds items))) := by
  induction pieces with
  | nil => exact .nil
  | cons piece pieces ih =>
    refine .cons ?_ (ih (fun p hp => hsorted p (List.mem_cons_of_mem _ hp)) fun p hp => hmem p (List.mem_cons_of_mem _ hp))
    exact written_piece fl str_ o hnamed hids (hsorted piece List.mem_cons_self) (hmem piece List.mem_cons_self)
      (fun item hitem => hconverted item (hmem piece List.mem_cons_self item hitem)) answered

/-- The written messages, reconciled. -/
theorem reconciled_iff {items : List Val} (hnamed : Named items) {written messages : List Message}
    (hwritten : written_messages fl str_ o items = some written) (h : reconcile_tool_pairs written = some messages) :
    Paired callsOf answerOf messages ↔ Orderly fl str_ o items := by
  obtain ⟨ids, hids, hpieces⟩ := written_messages_eq fl str_ o hwritten
  have hmemids := mem_function_call_ids hnamed hids
  have hconverted : ∀ item ∈ items, Converted fl str_ o ids item := by
    obtain ⟨ids', hids', hrest⟩ := Option.bind_eq_some_iff.mp hwritten
    rw [hids] at hids'
    cases hids'
    obtain ⟨s, hrun, -⟩ := Option.bind_eq_some_iff.mp hrest
    exact converted_of_run fl str_ o hrun
  have hsorted := sorted_cut items
  have hmem : ∀ piece ∈ cut items, ∀ item ∈ piece.gather ++ piece.outputs, item ∈ items := by
    intro piece hpiece item hitem
    rw [← cut_flatten items]
    exact List.mem_flatMap.mpr ⟨piece, hpiece, hitem⟩
  have hfaithful : ∀ piece ∈ cut items, Faithful piece (pieceMessages fl str_ o ids piece) := fun piece hpiece =>
    faithful_piece fl str_ o hnamed (hsorted piece hpiece) (hmem piece hpiece)
      fun item hitem => hconverted item (hmem piece hpiece item hitem)
  obtain ⟨hanswered, hcalled⟩ := ids_pieces hsorted
  rw [cut_flatten] at hanswered hcalled
  have hproper : ∀ m ∈ written, Proper m := by
    intro m hm
    rw [hpieces] at hm
    obtain ⟨piece, hpiece, hm⟩ := List.mem_flatMap.mp hm
    exact (hfaithful piece hpiece).proper m hm
  have hanswers : written.filterMap answerOf = answeredIds items := by
    rw [hpieces, hanswered, List.filterMap_flatMap]
    exact List.flatMap_congr fun piece hpiece => (hfaithful piece hpiece).answered
  have hcalls : written.flatMap callsOf = calledIds items := by
    rw [hpieces, hcalled, List.flatMap_assoc]
    exact List.flatMap_congr fun piece hpiece => (hfaithful piece hpiece).called
  rw [reconcile_tool_pairs_eq hproper, hanswers, hcalls, hpieces, List.flatMap_assoc, List.flatMap_def] at h
  rw [← Option.some.inj h, paired_iff_settled (written_stretches fl str_ o hnamed hmemids hconverted hsorted hmem
    (answeredIds items))]
  rfl

/-- **The messages are paired if and only if the items are orderly.** -/
theorem paired_iff_orderly (items : List Val) (hnamed : Named items) (messages : List Message)
    (h : convert_output_to_messages fl str_ o (.list items) = some messages) :
    Paired callsOf answerOf messages ↔ Orderly fl str_ o items := by
  rw [convert_output_to_messages] at h
  by_cases hempty : items.isEmpty = true
  · -- nothing is stored, and nothing is written
    rw [if_pos hempty] at h
    rw [List.isEmpty_iff.mp hempty, ← Option.some.inj h]
    exact ⟨fun _ => ⟨rfl, trivial⟩, fun _ => .nil⟩
  · rw [if_neg hempty] at h
    obtain ⟨written, hwritten, hreconciled⟩ := Option.bind_eq_some_iff.mp h
    exact reconciled_iff fl str_ o hnamed hwritten hreconciled

end

/-! ## A reply with a word between two outputs -/

def callItem (id : Str) : Val := .dict [(py "type", .str (py "function_call")), (py "call_id", .str id)]

def outputItem (id : Str) : Val := .dict [(py "type", .str (py "function_call_output")), (py "call_id", .str id)]

/-- Two calls, the output of the first, a text, and the output of the second. -/
def interrupted : List Val :=
  [callItem (py "a"), callItem (py "b"), outputItem (py "a"),
    .dict [(py "type", .str (py "message")), (py "content", .list
      [.dict [(py "type", .str (py "output_text")), (py "text", .str (py "so far"))]])],
    outputItem (py "b")]

def plainOptions : Options := ⟨false, none, false⟩

/-- The second output stands after the text. -/
def interruptedMessages : List Message :=
  [.assistant [] [⟨.str (py "a"), .str [], py "\x7b\x7d"⟩, ⟨.str (py "b"), .str [], py "\x7b\x7d"⟩] none [],
    .tool (.str (py "a")) (.str []), .assistant (py "so far") [] none [], .tool (.str (py "b")) (.str [])]

theorem named_interrupted : Named interrupted := by
  have hid : ∀ items : List (Str × Val), ∀ s : Str, s ≠ [] → Dict.lookup items (py "call_id") = some (.str s) →
      ∃ s, s ≠ [] ∧ Dict.lookup (Val.dict items).items (py "call_id") = some (.str s) := fun _ s hne hs => ⟨s, hne, hs⟩
  intro item hitem
  simp only [interrupted, List.mem_cons, List.not_mem_nil, or_false] at hitem
  rcases hitem with rfl | rfl | rfl | rfl | rfl
  · exact fun _ => hid _ (py "a") (by decide) rfl
  · exact fun _ => hid _ (py "b") (by decide) rfl
  · exact fun _ => hid _ (py "a") (by decide) rfl
  · intro h
    exact absurd h (by decide)
  · exact fun _ => hid _ (py "b") (by decide) rfl

theorem convert_interrupted :
    convert_output_to_messages wholeFloats (fun _ => []) plainOptions (.list interrupted) = some interruptedMessages := rfl

theorem not_paired_interrupted : ¬Paired callsOf answerOf interruptedMessages := by
  intro h
  obtain ⟨⟨-, hmem⟩, -⟩ := (paired_cons_iff (by rfl) _).mp h
  have hb : py "b" ∈ [py "a"] := (hmem (py "b")).mpr (List.mem_cons_of_mem _ List.mem_cons_self)
  exact absurd hb (by decide)

/-- The condition at this reply. -/
theorem paired_iff_orderly_interrupted :
    Paired callsOf answerOf interruptedMessages ↔ Orderly wholeFloats (fun _ => []) plainOptions interrupted :=
  paired_iff_orderly wholeFloats (fun _ => []) plainOptions interrupted named_interrupted interruptedMessages
    convert_interrupted

/-- **An output that stands after a text is not with its call.** -/
theorem output_after_text : ¬∀ (fl : Floats) (str_ : Val → Str) (o : Options) (items : List Val) (messages : List Message),
    Named items → convert_output_to_messages fl str_ o (.list items) = some messages →
      Paired callsOf answerOf messages := by
  intro h
  exact not_paired_interrupted
    (h wholeFloats (fun _ => []) plainOptions interrupted interruptedMessages named_interrupted convert_interrupted)

end Replay
end MaterialOpenWebui
