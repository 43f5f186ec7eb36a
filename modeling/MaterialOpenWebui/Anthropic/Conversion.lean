import MaterialOpenWebui.Anthropic.Request
import MaterialOpenWebui.Lib.AllSome
import MaterialOpenWebui.Lib.Turns
import MaterialOpenWebui.Py.JsonRoundTrip

/-!
# `Anthropic.Conversion` — a request keeps its calls, their results and its texts

A request is valid if it has the types of the Anthropic API and every call is answered by the message after it. What the
conversion makes of one block is stated once (`convert_block_adds`) and summed up over the blocks of a message
(`convert_blocks_adds`); the tool messages of a message come before what is left of it, so that they stand right after
the calls of the message before (`convert_messages_paired`).
-/

namespace MaterialOpenWebui
namespace Anthropic
open Py Turns
open Responses (iterate)

/-! ## Reading a request -/

def typeOf (block : Val) : Val := (Dict.lookup block.items (py "type")).getD (.str (py "text"))

def ofType (type : Str) (blocks : List Val) : List Val := blocks.filter fun block => isText (typeOf block) type

/-- The blocks of a message. -/
def blocksOf (msg : Val) : List Val :=
  match msg.get (py "content") with
  | .list blocks => blocks
  | _ => []

/-- The text under a key. -/
def textAt (v : Val) (key : Str) : Str := (v.get key).text?.getD []

def callIds (msg : Val) : List Str := (ofType (py "tool_use") (blocksOf msg)).map fun block => textAt block (py "id")

def resultIds (msg : Val) : List Str :=
  (ofType (py "tool_result") (blocksOf msg)).map fun block => textAt block (py "tool_use_id")

/-- The texts of a message, in order. -/
def textsIn (msg : Val) : List Str :=
  match msg.get (py "content") with
  | .str s => [s]
  | .list blocks => (ofType (py "text") blocks).map fun block => textAt block (py "text")
  | _ => []

/-! ## Valid requests -/

def HasText (v : Val) (key : Str) : Prop := ∃ s, Dict.lookup v.items key = some (.str s)

/-- The source of an image or document, if there is one. -/
def ValidSource (block : Val) : Prop := ∀ source, Dict.lookup block.items (py "source") = some source → source.isDict = true

def ValidText (block : Val) : Prop := isText (typeOf block) (py "text") = true → HasText block (py "text")

/-- A block in the content of a tool result. -/
structure ValidResultBlock (block : Val) : Prop where
  isDict : block.isDict = true
  text : ValidText block
  image : isText (typeOf block) (py "image") = true → ValidSource block
  document : isText (typeOf block) (py "document") = true → ValidSource block
  search_result : isText (typeOf block) (py "search_result") = true →
    ∀ content, Dict.lookup block.items (py "content") = some content →
      ∃ blocks, content = .list blocks ∧ ∀ b ∈ blocks, b.isDict = true ∧ ValidText b

/-- The content of a tool result, if there is any. -/
def ValidResult (block : Val) : Prop :=
  ∀ content, Dict.lookup block.items (py "content") = some content →
    (∃ s, content = .str s) ∨ ∃ blocks, content = .list blocks ∧ ∀ b ∈ blocks, ValidResultBlock b

structure ValidCall (fl : Floats) (block : Val) : Prop where
  id : HasText block (py "id")
  nonempty : textAt block (py "id") ≠ []
  name : HasText block (py "name")
  input : ∃ input, Dict.lookup block.items (py "input") = some input ∧ input.isDict = true ∧ IsJson fl input

structure ValidBlock (fl : Floats) (block : Val) : Prop where
  isDict : block.isDict = true
  text : ValidText block
  image : isText (typeOf block) (py "image") = true → ValidSource block
  tool_use : isText (typeOf block) (py "tool_use") = true → ValidCall fl block
  tool_result : isText (typeOf block) (py "tool_result") = true → HasText block (py "tool_use_id") ∧ ValidResult block

/-- Calls are the assistant's, and results the user's. -/
structure ValidMessage (fl : Floats) (msg : Val) : Prop where
  isDict : msg.isDict = true
  role : Dict.lookup msg.items (py "role") = some (.str (py "user")) ∧ callIds msg = [] ∨
    Dict.lookup msg.items (py "role") = some (.str (py "assistant")) ∧ resultIds msg = []
  content : (∃ s, msg.get (py "content") = .str s) ∨
    ∃ blocks, msg.get (py "content") = .list blocks ∧ ∀ block ∈ blocks, ValidBlock fl block

/-- The results of a message are those of the calls in the message before, each once, and the ids of calls in one message
    are all different. -/
def Answered (pending : List Str) : List Val → Prop
  | [] => pending = []
  | msg :: msgs => (resultIds msg).Perm pending ∧ (callIds msg).Nodup ∧ Answered (callIds msg) msgs

structure ValidRequest (fl : Floats) (payload : Obj) (msgs : List Val) : Prop where
  messages : payload.get? (py "messages") = some (.list msgs)
  valid : ∀ msg ∈ msgs, ValidMessage fl msg
  answered : Answered [] msgs
  tools : ∀ tools, payload.get? (py "tools") = some tools → ∃ ts, tools = .list ts ∧ ∀ t ∈ ts, t.isDict = true

/-! ## Reading what is made of it -/

def partTexts (part : Val) : List Str :=
  if isText (part.get (py "type")) (py "text") then [textAt part (py "text")] else []

/-- The texts of a message, in order. -/
def textsOf (m : Val) : List Str :=
  match m.get (py "content") with
  | .str s => [s]
  | .list parts => parts.flatMap partTexts
  | _ => []

def toolCalls (m : Val) : List Val :=
  match m.get (py "tool_calls") with
  | .list calls => calls
  | _ => []

/-- The ids of the calls of a message. -/
def calledIds (m : Val) : List Str := (toolCalls m).map fun call => textAt call (py "id")

/-- The id that a tool message answers. -/
def answerOf (m : Val) : Option Str :=
  if isText (m.get (py "role")) (py "tool") then (m.get (py "tool_call_id")).text? else none

/-- Id and name are those of the block, and the arguments are read back as its input. -/
structure CallKeeps (fl : Floats) (block call : Val) : Prop where
  id : call.get (py "id") = block.get (py "id")
  name : (call.get (py "function")).get (py "name") = block.get (py "name")
  arguments : ((call.get (py "function")).get (py "arguments")).text?.bind (loads fl) =
    some (block.get (py "input"))

/-- What is made of a message has its calls, its results and its texts, in order. A message with calls and no text has
    the empty text as its content. -/
structure Keeps (fl : Floats) (msg : Val) (made : List Val) : Prop where
  calls : List.Forall₂ (CallKeeps fl) (ofType (py "tool_use") (blocksOf msg)) (made.flatMap toolCalls)
  results : made.filterMap answerOf = resultIds msg
  texts : (made.filter fun m => (answerOf m).isNone).flatMap textsOf = textsIn msg ∨
    textsIn msg = [] ∧ (made.filter fun m => (answerOf m).isNone).flatMap textsOf = [[]]

/-! ## Values -/

theorem field_type {block : Val} (h : block.isDict = true) :
    field block (py "type") (.str (py "text")) = some (typeOf block) := field_of_isDict h _ _

theorem HasText.get {v : Val} {key : Str} (h : HasText v key) : v.get key = .str (textAt v key) := by
  obtain ⟨s, hs⟩ := h
  rw [textAt, Val.get, hs]
  rfl

theorem HasText.lookup {v : Val} {key : Str} (h : HasText v key) : Dict.lookup v.items key = some (.str (textAt v key)) := by
  obtain ⟨s, hs⟩ := h
  rw [textAt, Val.get, hs]
  rfl

/-- A type other than the default is written in the block. -/
theorem get_type_of_typeOf {block : Val} {type : Str} (h : isText (typeOf block) type = true) (hne : type ≠ py "text") :
    block.get (py "type") = .str type := by
  rw [isText_iff] at h
  rw [Val.get]
  rw [typeOf] at h
  cases hlookup : Dict.lookup block.items (py "type") with
  | none =>
    rw [hlookup] at h
    exact absurd (Val.str.inj h).symm hne
  | some t =>
    rw [hlookup] at h
    exact h

/-! ## Parts -/

theorem get_copy_cache_control {key : Str} (h : key ≠ py "cache_control") (source target : Val) :
    (copy_cache_control source target).get key = target.get key := by
  rw [copy_cache_control]
  split
  · show (Dict.lookup (Dict.setItems target.items _ _) key).getD .none = _
    rw [Dict.lookup_setItems, if_neg h]
    rfl
  · rfl

theorem partTexts_copy (source target : Val) : partTexts (copy_cache_control source target) = partTexts target := by
  rw [partTexts, partTexts, textAt, textAt, get_copy_cache_control (by decide), get_copy_cache_control (by decide)]

theorem partTexts_textPart (s : Str) : partTexts (textPart (.str s)) = [s] := rfl

theorem partTexts_imagePart (url : Val) : partTexts (imagePart url) = [] := rfl

/-- A part of type text has a text. -/
def ProperPart (part : Val) : Prop := isText (part.get (py "type")) (py "text") = true → HasText part (py "text")

theorem properPart_textPart (s : Str) : ProperPart (textPart (.str s)) := fun _ => ⟨s, rfl⟩

theorem properPart_imagePart (url : Val) : ProperPart (imagePart url) := fun h => absurd h Bool.false_ne_true

theorem lookup_copy_cache_control {key : Str} (h : key ≠ py "cache_control") (source target : Val) :
    Dict.lookup (copy_cache_control source target).items key = Dict.lookup target.items key := by
  rw [copy_cache_control]
  split
  · show Dict.lookup (Dict.setItems target.items _ _) key = _
    rw [Dict.lookup_setItems, if_neg h]
  · rfl

theorem properPart_copy {target : Val} (h : ProperPart target) (source : Val) :
    ProperPart (copy_cache_control source target) := by
  intro htype
  rw [get_copy_cache_control (by decide)] at htype
  obtain ⟨s, hs⟩ := h htype
  exact ⟨s, by rw [lookup_copy_cache_control (by decide), hs]⟩

section
variable {fl : Floats} (str_ : Val → Str)

/-- The part of a text block is its text. -/
theorem text_part_eq {block : Val} (hdict : block.isDict = true) (h : HasText block (py "text")) :
    text_part block = some (copy_cache_control block (textPart (.str (textAt block (py "text"))))) := by
  rw [text_part, field_of_isDict hdict, h.lookup]
  rfl

/-- An image is no text. -/
theorem image_part_eq {block : Val} (hdict : block.isDict = true) (h : ValidSource block) :
    ∃ parts, image_part str_ block = some parts ∧ ∀ part ∈ parts, partTexts part = [] ∧ ProperPart part := by
  have hsource : ((Dict.lookup block.items (py "source")).getD (.dict [])).isDict = true := by
    cases hlookup : Dict.lookup block.items (py "source") with
    | none => rfl
    | some source => exact h source hlookup
  have hone : ∀ url, ∀ part ∈ [copy_cache_control block (imagePart url)], partTexts part = [] ∧ ProperPart part := by
    intro url part hpart
    rw [List.mem_singleton.mp hpart]
    exact ⟨(partTexts_copy block _).trans (partTexts_imagePart url), properPart_copy (properPart_imagePart url) block⟩
  rw [image_part, field_of_isDict hdict]
  simp only [Option.bind_eq_bind, Option.bind_some, field_of_isDict hsource]
  split
  · exact ⟨_, rfl, hone _⟩
  · split
    · exact ⟨_, rfl, hone _⟩
    · refine ⟨[], rfl, ?_⟩
      intro part hpart
      cases hpart

/-- A document is written as a text. -/
theorem document_part_eq {block : Val} (hdict : block.isDict = true) (h : ValidSource block) :
    ∃ text, document_part str_ block = some (textPart (.str text)) := by
  have hsource : ((Dict.lookup block.items (py "source")).getD (.dict [])).isDict = true := by
    cases hlookup : Dict.lookup block.items (py "source") with
    | none => rfl
    | some source => exact h source hlookup
  rw [document_part]
  simp only [field_of_isDict hdict, Option.bind_eq_bind, Option.bind_some, field_of_isDict hsource]
  exact ⟨_, rfl⟩

/-- Texts are joined. -/
theorem joinLines_of_texts {vs : List Val} (h : ∀ v ∈ vs, ∃ s, v = .str s) : ∃ text, joinLines vs = some text := by
  obtain ⟨texts, htexts, -⟩ := AllSome.exists_mapM (f := Val.text?) (Q := fun _ _ => True) fun v hv => by
    obtain ⟨s, rfl⟩ := h v hv
    exact ⟨s, rfl, trivial⟩
  exact ⟨_, by rw [joinLines, htexts]; rfl⟩

/-- A search result is written as a text. -/
theorem search_part_eq {block : Val} (hdict : block.isDict = true)
    (h : ∀ content, Dict.lookup block.items (py "content") = some content →
      ∃ blocks, content = .list blocks ∧ ∀ b ∈ blocks, b.isDict = true ∧ ValidText b) :
    ∃ text, search_part str_ block = some (textPart (.str text)) := by
  have hblocks : ∃ blocks, (Dict.lookup block.items (py "content")).getD (.list []) = .list blocks ∧
      ∀ b ∈ blocks, b.isDict = true ∧ ValidText b := by
    cases hlookup : Dict.lookup block.items (py "content") with
    | none =>
      refine ⟨[], rfl, ?_⟩
      intro b hb
      cases hb
    | some content => exact h content hlookup
  obtain ⟨blocks, hcontent, hvalid⟩ := hblocks
  have htexts : ∀ v ∈ search_texts blocks, ∃ s, v = .str s := by
    intro v hv
    obtain ⟨b, hb, rfl⟩ := List.mem_map.mp hv
    obtain ⟨hb, htype⟩ := List.mem_filter.mp hb
    have hty : isText (typeOf b) (py "text") = true := by
      rw [isText_iff, Val.get] at htype
      rw [isText_iff, typeOf]
      cases hlookup : Dict.lookup b.items (py "type") with
      | none => rfl
      | some t =>
        rw [hlookup] at htype
        exact htype
    exact ⟨_, by rw [((hvalid b hb).2 hty).lookup]; rfl⟩
  obtain ⟨body, hbody⟩ := joinLines_of_texts htexts
  rw [search_part]
  simp only [field_of_isDict hdict, Option.bind_eq_bind, Option.bind_some, hcontent, iterate, hbody]
  exact ⟨_, rfl⟩

/-! ## Tool results -/

/-- What the blocks of a tool result are turned into. -/
theorem result_parts_eq {block : Val} (h : ValidResultBlock block) :
    ∃ parts, result_parts str_ block = some parts ∧ ∀ part ∈ parts, ProperPart part := by
  have hone : ∀ text, ∀ part ∈ [textPart (.str text)], ProperPart part := by
    intro text part hpart
    rw [List.mem_singleton.mp hpart]
    exact properPart_textPart text
  rw [result_parts, if_pos h.isDict, field_type h.isDict]
  simp only [Option.bind_eq_bind, Option.bind_some]
  by_cases htext : isText (typeOf block) (py "text") = true
  · rw [if_pos htext, text_part_eq h.isDict (h.text htext)]
    refine ⟨_, rfl, ?_⟩
    intro part hpart
    rw [List.mem_singleton.mp hpart]
    exact properPart_copy (properPart_textPart _) block
  · rw [if_neg htext]
    by_cases himage : isText (typeOf block) (py "image") = true
    · rw [if_pos himage]
      obtain ⟨parts, hparts, hproper⟩ := image_part_eq str_ h.isDict (h.image himage)
      exact ⟨parts, hparts, fun part hpart => (hproper part hpart).2⟩
    · rw [if_neg himage]
      by_cases hdocument : isText (typeOf block) (py "document") = true
      · rw [if_pos hdocument]
        obtain ⟨text, hpart⟩ := document_part_eq str_ h.isDict (h.document hdocument)
        rw [hpart]
        exact ⟨_, rfl, hone text⟩
      · rw [if_neg hdocument]
        by_cases hsearch : isText (typeOf block) (py "search_result") = true
        · rw [if_pos hsearch]
          obtain ⟨text, hpart⟩ := search_part_eq str_ h.isDict (h.search_result hsearch)
          rw [hpart]
          exact ⟨_, rfl, hone text⟩
        · rw [if_neg hsearch]
          refine ⟨[], rfl, ?_⟩
          intro part hpart
          cases hpart

/-- Parts of which each text has one are flattened. -/
theorem flatten_parts_eq {parts : List Val} (h : ∀ part ∈ parts, ProperPart part) :
    ∃ content, flatten_parts parts = some content := by
  rw [flatten_parts]
  split
  · rename_i hall
    rw [Bool.and_eq_true, List.all_eq_true] at hall
    have htexts : ∀ v ∈ parts.map fun part => (Dict.lookup part.items (py "text")).getD (.str []), ∃ s, v = .str s := by
      intro v hv
      obtain ⟨part, hpart, rfl⟩ := List.mem_map.mp hv
      exact ⟨_, by rw [(h part hpart (hall.1 part hpart)).lookup]; rfl⟩
    obtain ⟨text, htext⟩ := joinLines_of_texts htexts
    rw [htext]
    exact ⟨_, rfl⟩
  · exact ⟨_, rfl⟩

theorem result_parts_mapM {blocks : List Val} (h : ∀ b ∈ blocks, ValidResultBlock b) :
    ∃ partss, blocks.mapM (result_parts str_) = some partss ∧ ∀ part ∈ partss.flatten, ProperPart part := by
  obtain ⟨partss, hpartss, hproper⟩ := AllSome.exists_mapM fun b hb => result_parts_eq str_ (h b hb)
  refine ⟨partss, hpartss, fun part hpart => ?_⟩
  obtain ⟨parts, hparts, hpart⟩ := List.mem_flatten.mp hpart
  obtain ⟨b, -, hall⟩ := (AllSome.forall_mem_of_forall₂ hproper).2 parts hparts
  exact hall part hpart

/-- **A tool result is a message that answers its id.** -/
theorem tool_message_eq {block : Val} (hdict : block.isDict = true) (hid : HasText block (py "tool_use_id"))
    (h : ValidResult block) :
    ∃ m, tool_message str_ block = some m ∧ answerOf m = some (textAt block (py "tool_use_id")) ∧ toolCalls m = [] := by
  have hcontent : ∃ content, tool_content str_ ((Dict.lookup block.items (py "content")).getD (.str [])) = some content := by
    cases hlookup : Dict.lookup block.items (py "content") with
    | none => exact ⟨_, rfl⟩
    | some content =>
      rcases h content hlookup with ⟨s, rfl⟩ | ⟨blocks, rfl, hvalid⟩
      · exact ⟨_, rfl⟩
      · obtain ⟨partss, hpartss, hproper⟩ := result_parts_mapM str_ hvalid
        obtain ⟨content, hflat⟩ := flatten_parts_eq hproper
        refine ⟨content, ?_⟩
        show (blocks.mapM (result_parts str_)).bind (fun parts => flatten_parts parts.flatten) = _
        rw [hpartss]
        exact hflat
  obtain ⟨content, hcontent⟩ := hcontent
  rw [tool_message]
  simp only [field_of_isDict hdict, Option.bind_eq_bind, Option.bind_some, hcontent, hid.lookup]
  exact ⟨_, rfl, rfl, rfl⟩

/-! ## Calls -/

/-- **A call keeps id, name and input.** -/
theorem tool_call_eq {block : Val} (hdict : block.isDict = true) (h : ValidCall fl block) :
    ∃ call, tool_call fl str_ block = some call ∧ CallKeeps fl block call ∧ textAt call (py "id") =
      textAt block (py "id") := by
  obtain ⟨input, hinput, hobject, hjson⟩ := h.input
  rw [tool_call]
  simp only [field_of_isDict hdict, Option.bind_eq_bind, Option.bind_some, h.id.lookup, h.name.lookup, hinput,
    Option.getD_some, if_pos hobject]
  refine ⟨_, rfl, ⟨?_, ?_, ?_⟩, ?_⟩
  · exact h.id.get.symm
  · exact h.name.get.symm
  · have hget : block.get (py "input") = input := by
      rw [Val.get, hinput]
      rfl
    rw [hget]
    exact loads_dumps hjson
  · rfl

/-! ## Blocks -/

/-- What is made of one part of the blocks after what was made of those before. -/
def Turn.append (turn made : Turn) : Turn :=
  ⟨turn.messages ++ made.messages, turn.openai_content ++ made.openai_content, turn.tool_calls ++ made.tool_calls⟩

/-- What blocks add: their results as messages, their texts as parts, and their calls. -/
structure Adds (fl : Floats) (blocks : List Val) (made : Turn) : Prop where
  results : made.messages.map answerOf =
    (ofType (py "tool_result") blocks).map fun block => some (textAt block (py "tool_use_id"))
  plain : ∀ m ∈ made.messages, toolCalls m = []
  proper : ∀ part ∈ made.openai_content, ProperPart part
  texts : made.openai_content.flatMap partTexts =
    (ofType (py "text") blocks).map fun block => textAt block (py "text")
  calls : List.Forall₂ (CallKeeps fl) (ofType (py "tool_use") blocks) made.tool_calls
  ids : made.tool_calls.map (fun call => textAt call (py "id")) =
    (ofType (py "tool_use") blocks).map fun block => textAt block (py "id")

theorem Adds.nil : Adds fl [] ⟨[], [], []⟩ where
  results := rfl
  plain := by
    intro m hm
    cases hm
  proper := by
    intro part hpart
    cases hpart
  texts := rfl
  calls := .nil
  ids := rfl

theorem ofType_append (type : Str) (blocks blocks' : List Val) :
    ofType type (blocks ++ blocks') = ofType type blocks ++ ofType type blocks' := List.filter_append ..

theorem Adds.append {blocks blocks' : List Val} {made made' : Turn} (h : Adds fl blocks made)
    (h' : Adds fl blocks' made') : Adds fl (blocks ++ blocks') (made.append made') where
  results := by
    rw [ofType_append, List.map_append, ← h.results, ← h'.results]
    exact List.map_append
  plain := fun m hm => (List.mem_append.mp hm).elim (h.plain m) (h'.plain m)
  proper := fun part hpart => (List.mem_append.mp hpart).elim (h.proper part) (h'.proper part)
  texts := by
    rw [ofType_append, List.map_append, ← h.texts, ← h'.texts]
    exact List.flatMap_append
  calls := by
    rw [ofType_append]
    exact List.rel_append h.calls h'.calls
  ids := by
    rw [ofType_append, List.map_append, ← h.ids, ← h'.ids]
    exact List.map_append

theorem ofType_pos {block : Val} {type : Str} (h : isText (typeOf block) type = true) : ofType type [block] = [block] :=
  List.filter_cons_of_pos h

theorem ofType_neg {block : Val} {type : Str} (h : ¬isText (typeOf block) type = true) : ofType type [block] = [] :=
  List.filter_cons_of_neg h

/-- A block has one type. -/
theorem not_isText_of_ne {v : Val} {t t' : Str} (h : isText v t = true) (hne : t ≠ t') : ¬isText v t' = true := by
  intro h'
  rw [isText_iff] at h h'
  exact hne (Val.str.inj (h.symm.trans h'))

/-- A block that neither calls nor answers adds to the content only. -/
theorem Adds.content {block : Val} {parts : List Val} (hcall : ¬isText (typeOf block) (py "tool_use") = true)
    (hresult : ¬isText (typeOf block) (py "tool_result") = true) (hproper : ∀ part ∈ parts, ProperPart part)
    (htexts : parts.flatMap partTexts = (ofType (py "text") [block]).map fun block => textAt block (py "text")) :
    Adds fl [block] ⟨[], parts, []⟩ where
  results := by
    rw [ofType_neg hresult, List.map_nil, List.map_nil]
  plain := by
    intro m hm
    cases hm
  proper := hproper
  texts := htexts
  calls := by
    rw [ofType_neg hcall]
    exact .nil
  ids := by
    rw [ofType_neg hcall]

theorem Adds.call {block call : Val} (htype : isText (typeOf block) (py "tool_use") = true)
    (hkeeps : CallKeeps fl block call) (hid : textAt call (py "id") = textAt block (py "id")) :
    Adds fl [block] ⟨[], [], [call]⟩ where
  results := by
    rw [ofType_neg (not_isText_of_ne htype (by decide))]
    rfl
  plain := by
    intro m hm
    cases hm
  proper := by
    intro part hpart
    cases hpart
  texts := by
    rw [ofType_neg (not_isText_of_ne htype (by decide))]
    rfl
  calls := by
    rw [ofType_pos htype]
    exact .cons hkeeps .nil
  ids := by
    rw [ofType_pos htype]
    exact congrArg (fun id => [id]) hid

theorem Adds.result {block m : Val} (htype : isText (typeOf block) (py "tool_result") = true)
    (hanswer : answerOf m = some (textAt block (py "tool_use_id"))) (hplain : toolCalls m = []) :
    Adds fl [block] ⟨[m], [], []⟩ where
  results := by
    rw [ofType_pos htype]
    exact congrArg (fun id => [id]) hanswer
  plain := by
    intro m' hm'
    rw [List.mem_singleton.mp hm']
    exact hplain
  proper := by
    intro part hpart
    cases hpart
  texts := by
    rw [ofType_neg (not_isText_of_ne htype (by decide))]
    rfl
  calls := by
    rw [ofType_neg (not_isText_of_ne htype (by decide))]
    exact .nil
  ids := by
    rw [ofType_neg (not_isText_of_ne htype (by decide))]

/-- What a text block adds. -/
theorem adds_text {block : Val} (htype : isText (typeOf block) (py "text") = true) :
    Adds fl [block] ⟨[], [copy_cache_control block (textPart (.str (textAt block (py "text"))))], []⟩ := by
  refine .content (not_isText_of_ne htype (by decide)) (not_isText_of_ne htype (by decide)) ?_ ?_
  · intro part hpart
    rw [List.mem_singleton.mp hpart]
    exact properPart_copy (properPart_textPart _) block
  · rw [ofType_pos htype, List.flatMap_singleton, partTexts_copy, partTexts_textPart]
    rfl

/-- What a thinking block adds is no text. -/
theorem adds_thinking {block : Val} {type : Str} (htype : isText (typeOf block) type = true)
    (hmem : type ∈ [py "thinking", py "redacted_thinking"]) : Adds fl [block] ⟨[], [copy_cache_control block block], []⟩ := by
  have hne : type ≠ py "text" ∧ type ≠ py "tool_use" ∧ type ≠ py "tool_result" := by
    have hall : ∀ t ∈ [py "thinking", py "redacted_thinking"],
        t ≠ py "text" ∧ t ≠ py "tool_use" ∧ t ≠ py "tool_result" := by decide
    exact hall type hmem
  have hget : ¬isText (block.get (py "type")) (py "text") = true := by
    rw [get_type_of_typeOf htype hne.1]
    exact not_isText_of_ne (isText_iff.mpr rfl) hne.1
  refine .content (not_isText_of_ne htype hne.2.1) (not_isText_of_ne htype hne.2.2) ?_ ?_
  · intro part hpart
    rw [List.mem_singleton.mp hpart]
    exact properPart_copy (fun h => absurd h hget) block
  · rw [ofType_neg (not_isText_of_ne htype hne.1), List.flatMap_singleton, partTexts_copy, partTexts, if_neg hget]
    rfl

/-- **One block.** Whatever its type, it adds what it should to what was made before. -/
theorem convert_block_adds {block : Val} (h : ValidBlock fl block) (turn : Turn) :
    ∃ made, convert_block fl str_ turn block = some (turn.append made) ∧ Adds fl [block] made := by
  have hcontent : ∀ parts, ({ turn with openai_content := turn.openai_content ++ parts } : Turn) =
      turn.append ⟨[], parts, []⟩ := by
    intro parts
    rw [Turn.append, List.append_nil, List.append_nil]
  rw [convert_block, field_type h.isDict]
  simp only [Option.bind_eq_bind, Option.bind_some]
  by_cases htext : isText (typeOf block) (py "text") = true
  · rw [if_pos htext, text_part_eq h.isDict (h.text htext)]
    exact ⟨_, congrArg some (hcontent _), adds_text htext⟩
  · rw [if_neg htext]
    by_cases hthinking : (isText (typeOf block) (py "thinking") || isText (typeOf block) (py "redacted_thinking")) = true
    · rw [if_pos hthinking]
      refine ⟨_, congrArg some (hcontent _), ?_⟩
      rcases Bool.or_eq_true_iff.mp hthinking with htype | htype
      · exact adds_thinking htype (by decide)
      · exact adds_thinking htype (by decide)
    · rw [if_neg hthinking]
      by_cases himage : isText (typeOf block) (py "image") = true
      · obtain ⟨parts, hparts, hproper⟩ := image_part_eq str_ h.isDict (h.image himage)
        rw [if_pos himage, hparts]
        refine ⟨_, congrArg some (hcontent parts), ?_⟩
        refine .content (not_isText_of_ne himage (by decide)) (not_isText_of_ne himage (by decide))
          (fun part hpart => (hproper part hpart).2) ?_
        rw [ofType_neg htext]
        exact List.flatMap_eq_nil_iff.mpr fun part hpart => (hproper part hpart).1
      · rw [if_neg himage]
        by_cases hcall : isText (typeOf block) (py "tool_use") = true
        · obtain ⟨call, hmade, hkeeps, hid⟩ := tool_call_eq str_ h.isDict (h.tool_use hcall)
          rw [if_pos hcall, hmade]
          refine ⟨⟨[], [], [call]⟩, ?_, .call hcall hkeeps hid⟩
          rw [Turn.append, List.append_nil, List.append_nil]
          rfl
        · rw [if_neg hcall]
          by_cases hresult : isText (typeOf block) (py "tool_result") = true
          · obtain ⟨m, hmade, hanswer, hplain⟩ := tool_message_eq str_ h.isDict (h.tool_result hresult).1
              (h.tool_result hresult).2
            rw [if_pos hresult, hmade]
            refine ⟨⟨[m], [], []⟩, ?_, .result hresult hanswer hplain⟩
            rw [Turn.append, List.append_nil, List.append_nil]
            rfl
          · rw [if_neg hresult]
            refine ⟨⟨[], [], []⟩, ?_, ?_⟩
            · rw [Turn.append, List.append_nil, List.append_nil, List.append_nil]
            · refine .content hcall hresult ?_ ?_
              · intro part hpart
                cases hpart
              · rw [ofType_neg htext]
                rfl

/-- **All blocks.** -/
theorem convert_blocks_adds {blocks : List Val} (h : ∀ block ∈ blocks, ValidBlock fl block) :
    ∀ turn, ∃ made, blocks.foldlM (convert_block fl str_) turn = some (turn.append made) ∧ Adds fl blocks made := by
  induction blocks with
  | nil =>
    intro turn
    refine ⟨⟨[], [], []⟩, ?_, Adds.nil⟩
    rw [Turn.append, List.append_nil, List.append_nil, List.append_nil]
    rfl
  | cons block blocks ih =>
    intro turn
    obtain ⟨made, hblock, hadds⟩ := convert_block_adds str_ (h block List.mem_cons_self) turn
    obtain ⟨rest, hrest, haddsrest⟩ := ih (fun b hb => h b (List.mem_cons_of_mem _ hb)) (turn.append made)
    refine ⟨made.append rest, ?_, hadds.append haddsrest⟩
    rw [List.foldlM_cons, hblock]
    show blocks.foldlM (convert_block fl str_) (turn.append made) = _
    rw [hrest, Turn.append, Turn.append, Turn.append, Turn.append, List.append_assoc, List.append_assoc,
      List.append_assoc]

/-! ## Messages -/

theorem get_role_message (role content : Val) (calls : List Val) : (message role content calls).get (py "role") = role := rfl

theorem get_content_message (role content : Val) (calls : List Val) :
    (message role content calls).get (py "content") = content := rfl

theorem toolCalls_message (role content : Val) (calls : List Val) : toolCalls (message role content calls) = calls := by
  cases calls with
  | nil => rfl
  | cons call calls => rfl

/-- The texts of the parts are those of the content they are made into. -/
theorem textsOf_finalize {parts : List Val} (hproper : ∀ part ∈ parts, ProperPart part) (hne : parts ≠ []) (role : Val)
    (calls : List Val) :
    textsOf (message role (finalize_openai_content parts) calls) = parts.flatMap partTexts := by
  rw [textsOf, get_content_message]
  cases parts with
  | nil => exact absurd rfl hne
  | cons part parts =>
    cases parts with
    | cons part' parts => rfl
    | nil =>
      rw [finalize_openai_content]
      by_cases hplain : (isText (part.get (py "type")) (py "text") && !has_cache_control [part]) = true
      · have htype := (Bool.and_eq_true_iff.mp hplain).1
        rw [if_pos hplain, (hproper part List.mem_cons_self htype).lookup, List.flatMap_singleton, partTexts,
          if_pos htype]
        rfl
      · rw [if_neg hplain]

/-- The shape of what is made of a message: its results, then what is left, with its calls. -/
structure Shape (msg : Val) (made : List Val) : Prop where
  split : ∃ results rest, made = results ++ rest ∧ results.map answerOf = (resultIds msg).map some ∧
    (rest = [] ∧ callIds msg = [] ∨ ∃ m, rest = [m] ∧ answerOf m = none ∧ calledIds m = callIds msg)

theorem answerOf_message {role : Val} (h : ¬isText role (py "tool") = true) (content : Val) (calls : List Val) :
    answerOf (message role content calls) = none := by
  rw [answerOf, get_role_message, if_neg h]

/-- A message that is a text. -/
theorem keeps_text {msg : Val} {s : Str} (h : msg.get (py "content") = .str s) {role : Val}
    (hrole : ¬isText role (py "tool") = true) :
    Keeps fl msg [message role (.str s) []] ∧ Shape msg [message role (.str s) []] := by
  have hblocks : blocksOf msg = [] := by rw [blocksOf, h]
  have hanswer := answerOf_message hrole (.str s) []
  have hresults : resultIds msg = [] := by rw [resultIds, hblocks]; rfl
  have hcalls : callIds msg = [] := by rw [callIds, hblocks]; rfl
  constructor
  · constructor
    · rw [hblocks]
      exact .nil
    · rw [hresults, List.filterMap_cons, hanswer]
      rfl
    · left
      rw [List.filter_cons_of_pos (by rw [hanswer]; rfl), textsIn, h]
      rfl
  · refine ⟨[], [message role (.str s) []], rfl, ?_, Or.inr ⟨_, rfl, hanswer, ?_⟩⟩
    · rw [hresults]
      rfl
    · rw [hcalls]
      rfl

/-- A message that is a list of blocks. -/
theorem keeps_blocks {msg : Val} {blocks : List Val} (h : msg.get (py "content") = .list blocks) {role : Val}
    (hrole : ¬isText role (py "tool") = true) {made : Turn} (hadds : Adds fl blocks made) :
    Keeps fl msg (made.messages ++ rest_message role made) ∧ Shape msg (made.messages ++ rest_message role made) := by
  have hblocks : blocksOf msg = blocks := by rw [blocksOf, h]
  have hcallIds : made.tool_calls.map (fun call => textAt call (py "id")) = callIds msg := by
    rw [callIds, hblocks, hadds.ids]
  have htexts : made.openai_content.flatMap partTexts = textsIn msg := by
    rw [textsIn, h]
    exact hadds.texts
  have hresultIds : made.messages.map answerOf = (resultIds msg).map some := by
    rw [hadds.results, resultIds, hblocks, List.map_map]
    rfl
  have hanswers : made.messages.filterMap answerOf = resultIds msg := by
    have hid : made.messages.filterMap answerOf = (made.messages.map answerOf).filterMap id := by
      rw [List.filterMap_map]
      rfl
    rw [hid, hresultIds, List.filterMap_map]
    exact List.filterMap_some
  have hnone : made.messages.filter (fun m => (answerOf m).isNone) = [] := by
    rw [List.filter_eq_nil_iff]
    intro m hm
    have hmem : answerOf m ∈ (resultIds msg).map some := hresultIds ▸ List.mem_map_of_mem hm
    obtain ⟨id, -, hid⟩ := List.mem_map.mp hmem
    rw [← hid]
    exact Bool.false_ne_true
  have hplain : made.messages.flatMap toolCalls = [] := List.flatMap_eq_nil_iff.mpr hadds.plain
  by_cases hrest : (made.tool_calls.isEmpty && made.openai_content.isEmpty) = true
  · -- nothing is left: there are neither calls nor parts
    rw [Bool.and_eq_true, List.isEmpty_iff, List.isEmpty_iff] at hrest
    have hmade : rest_message role made = [] := by
      rw [rest_message, hrest.1, hrest.2]
      rfl
    rw [hmade, List.append_nil]
    constructor
    · constructor
      · rw [hplain, hblocks]
        have hcalls := hadds.calls
        rw [hrest.1] at hcalls
        exact hcalls
      · exact hanswers
      · left
        rw [hnone, ← htexts, hrest.2]
        rfl
    · refine ⟨made.messages, [], (List.append_nil _).symm, hresultIds, Or.inl ⟨rfl, ?_⟩⟩
      rw [← hcallIds, hrest.1]
      rfl
  · have hmade : rest_message role made =
        [message role (finalize_openai_content made.openai_content) made.tool_calls] := if_neg hrest
    have hanswer := answerOf_message hrole (finalize_openai_content made.openai_content) made.tool_calls
    rw [hmade]
    constructor
    · constructor
      · rw [List.flatMap_append, hplain, List.nil_append, List.flatMap_singleton, toolCalls_message, hblocks]
        exact hadds.calls
      · rw [List.filterMap_append, hanswers, List.filterMap_cons, hanswer]
        exact List.append_nil _
      · rw [List.filter_append, hnone, List.nil_append, List.filter_cons_of_pos (by rw [hanswer]; rfl), List.filter_nil,
          List.flatMap_singleton]
        by_cases hparts : made.openai_content = []
        · right
          rw [hparts] at htexts ⊢
          exact ⟨htexts.symm, rfl⟩
        · left
          rw [textsOf_finalize hadds.proper hparts, htexts]
    · refine ⟨made.messages, _, rfl, hresultIds, Or.inr ⟨_, rfl, hanswer, ?_⟩⟩
      rw [calledIds, toolCalls_message, hcallIds]

/-- **One message.** -/
theorem convert_message_keeps {msg : Val} (h : ValidMessage fl msg) (messages : List Val) :
    ∃ made, convert_message fl str_ messages msg = some (messages ++ made) ∧ Keeps fl msg made ∧ Shape msg made := by
  obtain ⟨role, hlookup, hrole⟩ : ∃ role, Dict.lookup msg.items (py "role") = some role ∧
      ¬isText role (py "tool") = true := by
    rcases h.role with ⟨hrole, -⟩ | ⟨hrole, -⟩
    · exact ⟨_, hrole, by decide⟩
    · exact ⟨_, hrole, by decide⟩
  rw [convert_message, field_of_isDict h.isDict, field_of_isDict h.isDict, hlookup]
  show ∃ made, (match msg.get (py "content") with
    | .str s => some (messages ++ [message role (.str s) []])
    | .list blocks => (blocks.foldlM (convert_block fl str_) ⟨messages, [], []⟩).bind fun turn =>
      some (turn.messages ++ rest_message role turn)
    | content => some (messages ++ [message role (.str (if content.truthy then asText str_ content else [])) []])) =
      some (messages ++ made) ∧ _
  rcases h.content with ⟨s, hs⟩ | ⟨blocks, hblocks, hvalid⟩
  · rw [hs]
    exact ⟨_, rfl, keeps_text hs hrole⟩
  · obtain ⟨made, hmade, hadds⟩ := convert_blocks_adds str_ hvalid ⟨messages, [], []⟩
    rw [hblocks]
    refine ⟨made.messages ++ rest_message role made, ?_, keeps_blocks hblocks hrole hadds⟩
    dsimp only
    rw [hmade]
    show some (messages ++ made.messages ++ rest_message role made) = _
    rw [List.append_assoc]

/-- **All messages.** -/
theorem convert_messages_keeps {msgs : List Val} (h : ∀ msg ∈ msgs, ValidMessage fl msg) :
    ∀ messages, ∃ segments, msgs.foldlM (convert_message fl str_) messages = some (messages ++ segments.flatten) ∧
      List.Forall₂ (fun msg made => Keeps fl msg made ∧ Shape msg made) msgs segments := by
  induction msgs with
  | nil =>
    intro messages
    refine ⟨[], ?_, .nil⟩
    rw [List.flatten_nil, List.append_nil]
    rfl
  | cons msg msgs ih =>
    intro messages
    obtain ⟨made, hmade, hkeeps⟩ := convert_message_keeps str_ (h msg List.mem_cons_self) messages
    obtain ⟨segments, hsegments, hrest⟩ := ih (fun m hm => h m (List.mem_cons_of_mem _ hm)) (messages ++ made)
    refine ⟨made :: segments, ?_, .cons hkeeps hrest⟩
    rw [List.foldlM_cons, hmade]
    show msgs.foldlM (convert_message fl str_) (messages ++ made) = _
    rw [hsegments, List.flatten_cons, List.append_assoc]

/-! ## Adjacency -/

/-- **The results of a message stand right after the calls of the one before.** -/
theorem pairedFrom_segments {msgs : List Val} {segments : List (List Val)} (h : List.Forall₂ Shape msgs segments) :
    ∀ pending, Answered pending msgs → pending.Nodup → PairedFrom calledIds answerOf pending segments.flatten := by
  induction h with
  | nil =>
    intro pending hanswered hnodup
    rw [show pending = [] from hanswered]
    exact Paired.nil.from_nil
  | @cons msg made msgs segments hshape hrest ih =>
    intro pending hanswered hnodup
    obtain ⟨hperm, hcalls, hanswered⟩ := hanswered
    obtain ⟨results, rest, rfl, hresults, hcase⟩ := hshape.split
    have hfrom := ih (callIds msg) hanswered hcalls
    refine ⟨results, rest ++ segments.flatten, ?_, answers_of_perm hresults hperm hnodup, ?_⟩
    · rw [List.flatten_cons, List.append_assoc]
    · rcases hcase with ⟨rfl, hnone⟩ | ⟨m, rfl, hanswer, hids⟩
      · rw [hnone] at hfrom
        exact hfrom.paired
      · rw [← hids] at hfrom
        exact hfrom.cons hanswer

/-! ## The request -/

/-- The prompt is one message at most. -/
theorem mem_system_messages {system m : Val} (h : m ∈ system_messages system) :
    ∃ content, m = message (.str (py "system")) content [] := by
  unfold system_messages at h
  cases htrue : system.truthy with
  | false =>
    rw [htrue] at h
    cases h
  | true =>
    rw [htrue] at h
    cases system with
    | str s => exact ⟨_, List.mem_singleton.mp h⟩
    | list blocks => exact ⟨_, List.mem_singleton.mp h⟩
    | _ => cases h

theorem system_messages_plain {system : Val} : ∀ m ∈ system_messages system, calledIds m = [] ∧ answerOf m = none := by
  intro m hm
  obtain ⟨content, rfl⟩ := mem_system_messages hm
  exact ⟨rfl, answerOf_message (by decide) content []⟩

theorem get?_copy_param {payload : Obj} {param name key : Str} (h : key ≠ name) (openai_payload : Obj) :
    (copy_param payload openai_payload param name).get? key = openai_payload.get? key := by
  rw [copy_param]
  split
  · exact Dict.get?_set_of_ne _ _ h
  · rfl

theorem get?_foldl_copy_param {payload : Obj} {key : Str} {ps : List (Str × Str)} (h : ∀ p ∈ ps, key ≠ p.2) :
    ∀ openai_payload : Obj,
      (ps.foldl (fun openai_payload p => copy_param payload openai_payload p.1 p.2) openai_payload).get? key =
        openai_payload.get? key := by
  induction ps with
  | nil =>
    intro openai_payload
    rfl
  | cons p ps ih =>
    intro openai_payload
    rw [List.foldl_cons, ih fun q hq => h q (List.mem_cons_of_mem _ hq),
      get?_copy_param (h p List.mem_cons_self)]

/-- What is converted is not passed on. -/
theorem get?_pass_through {key : Str} (h : key ∈ ANTHROPIC_CONVERTED_REQUEST_PARAMS) (payload : Obj) (params : Val)
    (openai_payload : Obj) : (pass_through str_ payload params openai_payload).get? key = openai_payload.get? key := by
  have hcaptured : ∀ captured : Obj,
      captured = payload.filter (fun param _ => decide (param ∉ ANTHROPIC_CONVERTED_REQUEST_PARAMS)) →
      captured.get? key = none := by
    rintro captured rfl
    rw [Dict.get?_filter, decide_eq_false (not_not.mpr h)]
    cases payload.get? key <;> rfl
  rw [pass_through]
  split
  · rw [Dict.get?_update, hcaptured _ rfl]
    rfl
  · generalize passthrough_param_names str_ params = names
    induction names generalizing openai_payload with
    | nil => rfl
    | cons param names ih =>
      rw [List.foldl_cons, ih, copy_param]
      split
      · rename_i v hv
        refine Dict.get?_set_of_ne _ _ ?_
        rintro rfl
        rw [hcaptured _ rfl] at hv
        cases hv
      · rfl

theorem get?_output_options {key : Str} (heffort : key ≠ py "reasoning_effort") (hformat : key ≠ py "response_format")
    (payload openai_payload : Obj) : (output_options payload openai_payload).get? key = openai_payload.get? key := by
  rw [output_options]
  split
  · dsimp only
    repeat' split
    -- the two keys that the options may set are other keys
    all_goals simp only [Dict.get?_set_of_ne _ _ hformat, Dict.get?_set_of_ne _ _ heffort]
  · rfl

theorem convert_tool_isSome {tool : Val} (h : tool.isDict = true) : ∃ openai_tool, convert_tool tool = some openai_tool := by
  rw [convert_tool]
  simp only [field_of_isDict h, Option.bind_eq_bind, Option.bind_some]
  exact ⟨_, rfl⟩

/-- The tools are converted, and nothing else changes. -/
theorem get?_convert_tools {payload : Obj} (h : ∀ tools, payload.get? (py "tools") = some tools →
    ∃ ts, tools = .list ts ∧ ∀ t ∈ ts, t.isDict = true) {key : Str} (hkey : key ≠ py "tools") (openai_payload : Obj) :
    ∃ out, convert_tools payload openai_payload = some out ∧ out.get? key = openai_payload.get? key := by
  rw [convert_tools]
  cases htools : payload.get? (py "tools") with
  | none => exact ⟨_, rfl, rfl⟩
  | some tools =>
    obtain ⟨ts, rfl, hts⟩ := h tools htools
    obtain ⟨openai_tools, hmap, -⟩ := AllSome.exists_mapM (f := convert_tool) (Q := fun _ _ => True) fun t ht =>
      (convert_tool_isSome (hts t ht)).imp fun openai_tool htool => ⟨htool, trivial⟩
    refine ⟨openai_payload.set (py "tools") (.list openai_tools), ?_, Dict.get?_set_of_ne _ _ hkey⟩
    show (ts.mapM convert_tool).bind (fun openai_tools => some (openai_payload.set (py "tools") (.list openai_tools))) = _
    rw [hmap]
    rfl

/-- The messages of the request that is made are those made of its messages. -/
theorem convert_messages_get? {payload : Obj} {msgs : List Val} (h : ValidRequest fl payload msgs) {messages : List Val}
    (hmessages : convert_messages fl str_ payload = some messages) (params : Val) :
    ∃ out, convert_anthropic_to_openai_payload fl str_ payload params = some out ∧
      out.get? (py "messages") = some (.list messages) := by
  rw [convert_anthropic_to_openai_payload, hmessages]
  simp only [Option.bind_eq_bind, Option.bind_some]
  generalize hbase : Dict.ofList [(py "model", (payload.get? (py "model")).getD (.str [])),
    (py "messages", Val.list messages)] = base
  have hget : base.get? (py "messages") = some (.list messages) := by
    rw [← hbase]
    rfl
  obtain ⟨out, hout, hkeep⟩ := get?_convert_tools h.tools (show py "messages" ≠ py "tools" by decide)
    (common_params.foldl (fun openai_payload p => copy_param payload openai_payload p.1 p.2)
      (copy_param payload (output_options payload (pass_through str_ payload params
        (copy_param payload base (py "max_tokens") (py "max_tokens")))) (py "reasoning_effort") (py "reasoning_effort")))
  rw [get?_foldl_copy_param (by decide), get?_copy_param (by decide), get?_output_options (by decide) (by decide),
    get?_pass_through str_ (by decide), get?_copy_param (by decide), hget] at hkeep
  rw [hout, Option.bind_some]
  refine ⟨_, rfl, ?_⟩
  split
  · rw [Dict.get?_set_of_ne _ _ (by decide)]
    exact hkeep
  · exact hkeep

end

/-- **The conversion keeps calls, results and texts.** The messages of a valid request become segments, each with the calls,
    the results and the texts of its message, and every call is followed at once by exactly its results. -/
theorem convert_keeps_tools (fl : Floats) (str_ : Val → Str) (payload : Obj) (msgs : List Val)
    (h : ValidRequest fl payload msgs) (passthrough_params : Val) :
    ∃ out system segments, convert_anthropic_to_openai_payload fl str_ payload passthrough_params = some out ∧
      out.get? (py "messages") = some (.list (system ++ segments.flatten)) ∧
      (∀ m ∈ system, m.get (py "role") = .str (py "system")) ∧
      List.Forall₂ (Keeps fl) msgs segments ∧ Paired calledIds answerOf (system ++ segments.flatten) := by
  obtain ⟨segments, hsegments, hkeeps⟩ := convert_messages_keeps str_ h.valid
    (system_messages ((payload.get? (py "system")).getD .none))
  have hmessages : convert_messages fl str_ payload =
      some (system_messages ((payload.get? (py "system")).getD .none) ++ segments.flatten) := by
    rw [convert_messages, h.messages]
    exact hsegments
  obtain ⟨out, hout, hget⟩ := convert_messages_get? str_ h hmessages passthrough_params
  have hpaired : Paired calledIds answerOf segments.flatten :=
    (pairedFrom_segments (hkeeps.imp fun _ _ hboth => hboth.2) [] h.answered List.nodup_nil).paired
  refine ⟨out, _, segments, hout, hget, ?_, hkeeps.imp fun _ _ hboth => hboth.1,
    hpaired.append _ system_messages_plain⟩
  intro m hm
  obtain ⟨content, rfl⟩ := mem_system_messages hm
  rfl

/-- Two searches among text and thinking, and their results in the other order, an image between them. -/
def searches : List Val :=
  [.dict [(py "role", .str (py "assistant")), (py "content", .list
    [.dict [(py "type", .str (py "thinking")), (py "thinking", .str (py "hm"))],
      .dict [(py "type", .str (py "text")), (py "text", .str (py "I look"))],
      .dict [(py "type", .str (py "tool_use")), (py "id", .str (py "a")), (py "name", .str (py "search")),
        (py "input", .dict [(py "query", .str (py "x")), (py "limit", .float 2)])],
      .dict [(py "type", .str (py "text")), (py "text", .str (py "twice"))],
      .dict [(py "type", .str (py "tool_use")), (py "id", .str (py "b")), (py "name", .str (py "search")),
        (py "input", .dict [])]])],
    .dict [(py "role", .str (py "user")), (py "content", .list
      [.dict [(py "type", .str (py "text")), (py "text", .str (py "here"))],
        .dict [(py "type", .str (py "tool_result")), (py "tool_use_id", .str (py "b")), (py "content", .str (py "none"))],
        .dict [(py "type", .str (py "image")), (py "source", .dict [(py "type", .str (py "url"))])],
        .dict [(py "type", .str (py "tool_result")), (py "tool_use_id", .str (py "a"))]])]]

theorem validRequest_searches : ValidRequest wholeFloats (Dict.ofList [(py "messages", .list searches)]) searches where
  messages := rfl
  valid := by
    have hno : ∀ P : Prop, false = true → P := fun _ h => absurd h Bool.false_ne_true
    have hinput : IsJson wholeFloats (.dict [(py "query", .str (py "x")), (py "limit", .float 2)]) := by
      refine .dict (by decide) (by decide) ?_
      exact List.forall_mem_cons.mpr ⟨.str (by decide), List.forall_mem_cons.mpr ⟨.float rfl, List.forall_mem_nil _⟩⟩
    have hempty : IsJson wholeFloats (.dict []) := .dict List.nodup_nil (List.forall_mem_nil _) (List.forall_mem_nil _)
    have htext : ∀ text, ValidBlock wholeFloats (.dict [(py "type", .str (py "text")), (py "text", .str text)]) :=
      fun text => ⟨rfl, fun _ => ⟨text, rfl⟩, hno _, hno _, hno _⟩
    refine List.forall_mem_cons.mpr ⟨⟨rfl, Or.inr ⟨rfl, rfl⟩, Or.inr ⟨_, rfl, ?_⟩⟩,
      List.forall_mem_cons.mpr ⟨⟨rfl, Or.inl ⟨rfl, rfl⟩, Or.inr ⟨_, rfl, ?_⟩⟩, List.forall_mem_nil _⟩⟩
    · refine List.forall_mem_cons.mpr ⟨⟨rfl, hno _, hno _, hno _, hno _⟩, List.forall_mem_cons.mpr ⟨htext _,
        List.forall_mem_cons.mpr ⟨⟨rfl, hno _, hno _, fun _ => ?_, hno _⟩, List.forall_mem_cons.mpr ⟨htext _,
        List.forall_mem_cons.mpr ⟨⟨rfl, hno _, hno _, fun _ => ?_, hno _⟩, List.forall_mem_nil _⟩⟩⟩⟩⟩
      · exact ⟨⟨_, rfl⟩, by decide, ⟨_, rfl⟩, ⟨_, rfl, rfl, hinput⟩⟩
      · exact ⟨⟨_, rfl⟩, by decide, ⟨_, rfl⟩, ⟨_, rfl, rfl, hempty⟩⟩
    · refine List.forall_mem_cons.mpr ⟨htext _, List.forall_mem_cons.mpr ⟨⟨rfl, hno _, hno _, hno _, fun _ => ?_⟩,
        List.forall_mem_cons.mpr ⟨⟨rfl, hno _, fun _ => ?_, hno _, hno _⟩,
        List.forall_mem_cons.mpr ⟨⟨rfl, hno _, hno _, hno _, fun _ => ?_⟩, List.forall_mem_nil _⟩⟩⟩⟩
      · refine ⟨⟨_, rfl⟩, ?_⟩
        intro content hcontent
        cases hcontent
        exact Or.inl ⟨_, rfl⟩
      · intro source hsource
        cases hsource
        rfl
      · refine ⟨⟨_, rfl⟩, ?_⟩
        intro content hcontent
        cases hcontent
  answered := by
    refine ⟨.nil, by decide, ?_, .nil, rfl⟩
    exact .swap _ _ _
  tools := by
    intro tools htools
    cases htools

theorem convert_keeps_tools_searches :
    ∃ out system segments, convert_anthropic_to_openai_payload wholeFloats (fun _ => [])
        (Dict.ofList [(py "messages", .list searches)]) .none = some out ∧
      out.get? (py "messages") = some (.list (system ++ segments.flatten)) ∧
      (∀ m ∈ system, m.get (py "role") = .str (py "system")) ∧
      List.Forall₂ (Keeps wholeFloats) searches segments ∧ Paired calledIds answerOf (system ++ segments.flatten) :=
  convert_keeps_tools wholeFloats (fun _ => []) _ searches validRequest_searches .none

end Anthropic
end MaterialOpenWebui
