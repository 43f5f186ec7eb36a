import MaterialOpenWebui.Anthropic.Stream
import MaterialOpenWebui.Py.Json

/-!
# `Anthropic.Request` — an Anthropic request as an OpenAI one (`convert_anthropic_to_openai_payload` in `backend/open_webui/utils/anthropic.py`)

An Anthropic message is a list of blocks, of which one OpenAI message is made, its content the text, the images and the
thinking and its calls the blocks of type `tool_use`; a `tool_result` is a message of its own, put before it.

Nothing is returned where the code raises. What is left open is a parameter: the text that `str` makes of a value that is no
text, and the machine's floats. The names of the parameters to pass on are a set in the code, here in the order of the list:
the order of a set only decides the order of the keys.
-/

namespace MaterialOpenWebui
namespace Anthropic
open Py
open Responses (iterate)

/-! ## Python -/

/-- `v == text`. -/
def isText (v : Val) (text : Str) : Bool := v.text? = some text

theorem isText_iff {v : Val} {text : Str} : isText v text = true ↔ v = .str text := by
  rw [isText, decide_eq_true_iff]
  cases v with
  | str s => exact ⟨fun h => congrArg Val.str (Option.some.inj h), fun h => congrArg some (Val.str.inj h)⟩
  | _ =>
    constructor
    · intro h
      cases h
    · intro h
      cases h

theorem field_of_isDict {v : Val} (h : v.isDict = true) (key : Str) (default : Val) :
    field v key default = some ((Dict.lookup v.items key).getD default) := if_pos h

/-- `str(v)`: a text is itself. -/
def asText (str_ : Val → Str) : Val → Str
  | .str s => s
  | v => str_ v

/-- `'\n'.join(vs)`, of texts only. -/
def joinLines (vs : List Val) : Option Str := (vs.mapM Val.text?).map fun texts => [ofChar '\x0a'].intercalate texts

/-! ## Parts -/

def textPart (text : Val) : Val := .dict [(py "type", .str (py "text")), (py "text", text)]

def imagePart (url : Val) : Val :=
  .dict [(py "type", .str (py "image_url")), (py "image_url", .dict [(py "url", url)])]

def copy_cache_control (source target : Val) : Val :=
  match Dict.lookup source.items (py "cache_control") with
  | some v => .dict (Dict.setItems target.items (py "cache_control") v)
  | none => target

def has_cache_control (blocks : List Val) : Bool :=
  blocks.any fun block => (Dict.lookup block.items (py "cache_control")).isSome

def finalize_openai_content : List Val → Val
  | [] => .str []
  | [block] =>
    if isText (block.get (py "type")) (py "text") && !has_cache_control [block] then
      (Dict.lookup block.items (py "text")).getD (.str [])
    else .list [block]
  | blocks => .list blocks

section
variable (fl : Floats) (str_ : Val → Str)

/-- The part of a text block. -/
def text_part (block : Val) : Option Val := do
  let text ← field block (py "text") (.str [])
  some (copy_cache_control block (textPart text))

/-- The part of an image block, if its source is of a kind that there is. -/
def image_part (block : Val) : Option (List Val) := do
  let source ← field block (py "source") (.dict [])
  let source_type ← field source (py "type") .none
  if isText source_type (py "base64") then
    let media_type ← field source (py "media_type") (.str (py "image/png"))
    let data ← field source (py "data") (.str [])
    some [copy_cache_control block
      (imagePart (.str (py "data:" ++ asText str_ media_type ++ py ";base64," ++ asText str_ data)))]
  else if isText source_type (py "url") then
    let url ← field source (py "url") (.str [])
    some [copy_cache_control block (imagePart url)]
  else some []

def document_part (block : Val) : Option Val := do
  let source ← field block (py "source") (.dict [])
  let title ← field block (py "title") (.str (py "Document"))
  let context ← field block (py "context") (.str [])
  let source_type ← field source (py "type") .none
  let data ← field source (py "data") .none
  let head := py "[Document: " ++ asText str_ title ++ py "]"
  let middle := if context.truthy then ofChar '\x0a' :: asText str_ context else []
  let body := if isText source_type (py "text") && data.truthy then ofChar '\x0a' :: asText str_ data else []
  some (textPart (.str (head ++ middle ++ body)))

/-- The texts of the text blocks of a search result. -/
def search_texts (blocks : List Val) : List Val :=
  (blocks.filter fun block => isText (block.get (py "type")) (py "text")).map fun block =>
    (Dict.lookup block.items (py "text")).getD (.str [])

def search_part (block : Val) : Option Val := do
  let title ← field block (py "title") (.str [])
  let url ← field block (py "source") (.str [])
  let content ← field block (py "content") (.list [])
  let blocks ← iterate content
  let body ← joinLines (search_texts blocks)
  let head := py "[Search Result: " ++ asText str_ title ++ py "]"
  let middle := if url.truthy then py "\nSource: " ++ asText str_ url else []
  some (textPart (.str (head ++ middle ++ if body = [] then [] else ofChar '\x0a' :: body)))

/-- The parts of a block in the content of a tool result. -/
def result_parts (block : Val) : Option (List Val) :=
  if block.isDict then do
    let content_type ← field block (py "type") (.str (py "text"))
    if isText content_type (py "text") then (text_part block).map fun part => [part]
    else if isText content_type (py "image") then image_part str_ block
    else if isText content_type (py "document") then (document_part str_ block).map fun part => [part]
    else if isText content_type (py "search_result") then (search_part str_ block).map fun part => [part]
    else some []
  else some []

/-- The content of a tool message: one text if there is nothing but text. -/
def flatten_parts (parts : List Val) : Option Val :=
  if (parts.all fun part => isText (part.get (py "type")) (py "text")) && !has_cache_control parts then
    (joinLines (parts.map fun part => (Dict.lookup part.items (py "text")).getD (.str []))).map .str
  else some (.list parts)

def tool_content : Val → Option Val
  | .str s => some (.str s)
  | .list blocks => do
    let parts ← blocks.mapM (result_parts str_)
    flatten_parts parts.flatten
  | _ => some (.str [])

/-- With the status of a result that is an error. -/
def mark_error : Val → Val
  | .str s => .str (py "Error: " ++ s)
  | .list parts => .list (textPart (.str (py "Error: ")) :: parts)
  | v => v

/-! ## Blocks -/

/-- The message of a tool result. -/
def tool_message (block : Val) : Option Val := do
  let content ← field block (py "content") (.str [])
  let content ← tool_content str_ content
  let is_error ← field block (py "is_error") .none
  let id ← field block (py "tool_use_id") (.str [])
  let content := if is_error.truthy then mark_error content else content
  some (.dict [(py "role", .str (py "tool")), (py "tool_call_id", id), (py "content", content)])

def tool_call (block : Val) : Option Val := do
  let id ← field block (py "id") (.str [])
  let name ← field block (py "name") (.str [])
  let input ← field block (py "input") (.str (py "\x7b\x7d"))
  let arguments := if input.isDict then dumps fl input else asText str_ input
  some (.dict [(py "id", id), (py "type", .str (py "function")),
    (py "function", .dict [(py "name", name), (py "arguments", .str arguments)])])

/-- What is made of the blocks of a message. -/
structure Turn where
  messages : List Val
  openai_content : List Val
  tool_calls : List Val

def convert_block (turn : Turn) (block : Val) : Option Turn := do
  let block_type ← field block (py "type") (.str (py "text"))
  if isText block_type (py "text") then
    let part ← text_part block
    some { turn with openai_content := turn.openai_content ++ [part] }
  else if isText block_type (py "thinking") || isText block_type (py "redacted_thinking") then
    some { turn with openai_content := turn.openai_content ++ [copy_cache_control block block] }
  else if isText block_type (py "image") then
    let parts ← image_part str_ block
    some { turn with openai_content := turn.openai_content ++ parts }
  else if isText block_type (py "tool_use") then
    let call ← tool_call fl str_ block
    some { turn with tool_calls := turn.tool_calls ++ [call] }
  else if isText block_type (py "tool_result") then
    let message ← tool_message str_ block
    some { turn with messages := turn.messages ++ [message] }
  else some turn

/-! ## Messages -/

/-- A message, its calls only if there are any. -/
def message (role content : Val) (tool_calls : List Val) : Val :=
  .dict ([(py "role", role), (py "content", content)] ++
    if tool_calls.isEmpty then [] else [(py "tool_calls", .list tool_calls)])

def system_part (block : Val) : List Val :=
  match block with
  | .dict items =>
    if isText (block.get (py "type")) (py "text") then
      [copy_cache_control block (textPart ((Dict.lookup items (py "text")).getD (.str [])))]
    else []
  | .str s => [textPart (.str s)]
  | _ => []

def system_messages (system : Val) : List Val :=
  if system.truthy then
    match system with
    | .str s => [message (.str (py "system")) (.str s) []]
    | .list blocks => [message (.str (py "system")) (finalize_openai_content (blocks.flatMap system_part)) []]
    | _ => []
  else []

/-- The message of what is left of the blocks, if anything is. -/
def rest_message (role : Val) (turn : Turn) : List Val :=
  if turn.tool_calls.isEmpty && turn.openai_content.isEmpty then []
  else [message role (finalize_openai_content turn.openai_content) turn.tool_calls]

def convert_message (messages : List Val) (msg : Val) : Option (List Val) := do
  let role ← field msg (py "role") (.str (py "user"))
  let content ← field msg (py "content") .none
  match content with
  | .str s => some (messages ++ [message role (.str s) []])
  | .list blocks => do
    let turn ← blocks.foldlM (convert_block fl str_) ⟨messages, [], []⟩
    some (turn.messages ++ rest_message role turn)
  | content => some (messages ++ [message role (.str (if content.truthy then asText str_ content else [])) []])

/-! ## The request -/

def ANTHROPIC_CONVERTED_REQUEST_PARAMS : List Str :=
  [py "model", py "messages", py "system", py "max_tokens", py "temperature", py "top_p", py "top_k",
    py "stop_sequences", py "stream", py "metadata", py "service_tier", py "tools", py "tool_choice",
    py "reasoning_effort"]

/-- `openai_payload[name] = anthropic_payload[param]`, if it is there. -/
def copy_param (anthropic_payload openai_payload : Obj) (param name : Str) : Obj :=
  match anthropic_payload.get? param with
  | some v => openai_payload.set name v
  | none => openai_payload

/-- The parts of a text between commas. -/
def splitCommas : Str → List Str
  | [] => [[]]
  | c :: s =>
    match splitCommas s with
    | [] => []
    | t :: ts => if c = ofChar ',' then [] :: t :: ts else (c :: t) :: ts

def passthrough_param_names (passthrough_params : Val) : List Str :=
  let items := match passthrough_params with
    | .str s => splitCommas s
    | .list vs => vs.map (asText str_)
    | _ => []
  (items.map strip).filter fun name => !name.isEmpty

def pass_through (anthropic_payload : Obj) (passthrough_params : Val) (openai_payload : Obj) : Obj :=
  let captured := anthropic_payload.filter fun param _ => decide (param ∉ ANTHROPIC_CONVERTED_REQUEST_PARAMS)
  let names := passthrough_param_names str_ passthrough_params
  if py "*" ∈ names then openai_payload.update captured
  else names.foldl (fun openai_payload param => copy_param captured openai_payload param param) openai_payload

def json_schema_format (format_config : Val) : Val :=
  let copy := fun (items : List (Str × Val)) (key : Str) =>
    match Dict.lookup format_config.items key with
    | some v => Dict.setItems items key v
    | none => items
  .dict (copy (copy
    [(py "name", (Dict.lookup format_config.items (py "name")).getD (.str (py "response_schema"))),
      (py "schema", (Dict.lookup format_config.items (py "schema")).getD (.dict []))]
    (py "description")) (py "strict"))

def response_format (format_config : Val) : Option Val :=
  if isText (format_config.get (py "type")) (py "json_schema") then
    some (.dict [(py "type", .str (py "json_schema")), (py "json_schema", json_schema_format format_config)])
  else if isText (format_config.get (py "type")) (py "json_object") then
    some (.dict [(py "type", .str (py "json_object"))])
  else none

/-- What `output_config` sets, if it is a dictionary. -/
def output_options (anthropic_payload openai_payload : Obj) : Obj :=
  match anthropic_payload.get? (py "output_config") with
  | some (.dict items) =>
    let openai_payload := match Dict.lookup items (py "effort") with
      | some effort =>
        if py "reasoning_effort" ∈ anthropic_payload then openai_payload
        else openai_payload.set (py "reasoning_effort") effort
      | none => openai_payload
    match Dict.lookup items (py "format") with
    | some (.dict format_items) =>
      match response_format (.dict format_items) with
      | some format => openai_payload.set (py "response_format") format
      | none => openai_payload
    | _ => openai_payload
  | _ => openai_payload

def common_params : List (Str × Str) :=
  [(py "temperature", py "temperature"), (py "top_p", py "top_p"), (py "top_k", py "top_k"),
    (py "stop_sequences", py "stop"), (py "stream", py "stream"), (py "metadata", py "metadata"),
    (py "service_tier", py "service_tier")]

def convert_tool (tool : Val) : Option Val := do
  let name ← field tool (py "name") (.str [])
  let description ← field tool (py "description") (.str [])
  let parameters ← field tool (py "input_schema") (.dict [])
  some (copy_cache_control tool (.dict [(py "type", .str (py "function")),
    (py "function", .dict [(py "name", name), (py "description", description), (py "parameters", parameters)])]))

def convert_tools (anthropic_payload openai_payload : Obj) : Option Obj :=
  match anthropic_payload.get? (py "tools") with
  | none => some openai_payload
  | some tools => do
    let tools ← iterate tools
    let openai_tools ← tools.mapM convert_tool
    some (openai_payload.set (py "tools") (.list openai_tools))

def convert_tool_choice (tool_choice : Val) : Option Val :=
  if tool_choice.isDict then
    let tool_choice_type := (Dict.lookup tool_choice.items (py "type")).getD (.str (py "auto"))
    if isText tool_choice_type (py "auto") then some (.str (py "auto"))
    else if isText tool_choice_type (py "any") then some (.str (py "required"))
    else if isText tool_choice_type (py "tool") then
      some (.dict [(py "type", .str (py "function")),
        (py "function", .dict [(py "name", (Dict.lookup tool_choice.items (py "name")).getD (.str []))])])
    else none
  else none

/-- The messages of a request. -/
def convert_messages (anthropic_payload : Obj) : Option (List Val) := do
  let msgs ← iterate ((anthropic_payload.get? (py "messages")).getD (.list []))
  msgs.foldlM (convert_message fl str_) (system_messages ((anthropic_payload.get? (py "system")).getD .none))

def convert_anthropic_to_openai_payload (anthropic_payload : Obj) (passthrough_params : Val) : Option Obj := do
  let messages ← convert_messages fl str_ anthropic_payload
  let openai_payload := Dict.ofList
    [(py "model", (anthropic_payload.get? (py "model")).getD (.str [])), (py "messages", .list messages)]
  let openai_payload := copy_param anthropic_payload openai_payload (py "max_tokens") (py "max_tokens")
  let openai_payload := pass_through str_ anthropic_payload passthrough_params openai_payload
  let openai_payload := output_options anthropic_payload openai_payload
  let openai_payload := copy_param anthropic_payload openai_payload (py "reasoning_effort") (py "reasoning_effort")
  let openai_payload := common_params.foldl
    (fun openai_payload p => copy_param anthropic_payload openai_payload p.1 p.2) openai_payload
  let openai_payload ← convert_tools anthropic_payload openai_payload
  some (match (anthropic_payload.get? (py "tool_choice")).bind convert_tool_choice with
    | some tool_choice => openai_payload.set (py "tool_choice") tool_choice
    | none => openai_payload)

end

end Anthropic
end MaterialOpenWebui
