import MaterialOpenWebui.Anthropic.Request

/-!
# `Replay.Model` — stored output items as messages (`convert_output_to_messages` in `backend/open_webui/utils/misc.py`)

The items of a reply (texts, reasoning, function calls and their outputs, code) are turned back into the messages of a
conversation. What is no output of a function is gathered until one comes, or the end; then one assistant message is made of
it. `reconcile_tool_pairs` drops the calls that no message answers and the answers that no message called for.

Nothing is returned where the code raises. The text that `str` makes of a value that is no text and the machine's floats are
parameters. A message is a value of `Message`, of which a list without elements stands for a key that is not set.
-/

namespace MaterialOpenWebui
namespace Replay
open Py
open Anthropic (field isText asText Key key?)
open Responses (iterate)

/-! ## Messages -/

structure ToolCall where
  id : Val
  name : Val
  arguments : Str

inductive Message where
  | assistant (content : Str) (tool_calls : List ToolCall) (reasoning_content : Option Str) (reasoning_details : List Val)
  | tool (tool_call_id content : Val)
  | user (content : List Val)

/-- The arguments beside the output. -/
structure Options where
  raw : Bool
  reasoning_format : Option Str
  flatten_tool_images : Bool

/-- `'\n'.join(texts)`. -/
def joinTexts (texts : List Str) : Str := [ofChar '\x0a'].intercalate texts

/-! ## What is gathered -/

structure Pending where
  content : List Str
  tool_calls : List ToolCall
  reasoning : List Str
  reasoning_details : List Val

namespace Pending

def empty : Pending := ⟨[], [], [], []⟩

def append (p q : Pending) : Pending :=
  ⟨p.content ++ q.content, p.tool_calls ++ q.tool_calls, p.reasoning ++ q.reasoning,
    p.reasoning_details ++ q.reasoning_details⟩

def isEmpty (p : Pending) : Bool :=
  p.content.isEmpty && p.tool_calls.isEmpty && p.reasoning.isEmpty && p.reasoning_details.isEmpty

/-- The message that is made of it. -/
def message (p : Pending) : Message :=
  .assistant (joinTexts p.content) p.tool_calls (if p.reasoning.isEmpty then none else some (joinTexts p.reasoning))
    p.reasoning_details

/-- A text, if it is not empty. -/
def ofContent (text : Str) : Pending := { empty with content := if text = [] then [] else [text] }

end Pending

section
variable (fl : Floats) (str_ : Val → Str) (o : Options)

/-- The texts of the parts that are wanted, one after the other. -/
def part_texts (wanted : Val → Bool) : List Val → Option Str
  | [] => some []
  | part :: parts => do
    let _ ← field part (py "type") .none
    let text ← if wanted part then (field part (py "text") (.str [])).bind Val.text? else some []
    let rest ← part_texts wanted parts
    some (text ++ rest)

def is_output_text (part : Val) : Bool := isText (part.get (py "type")) (py "output_text")

def message_adds (item : Val) : Option Pending := do
  let content ← field item (py "content") (.list [])
  let content_parts ← iterate content
  let text ← part_texts is_output_text content_parts
  some (.ofContent text)

def call_adds (item : Val) : Option Pending := do
  let arguments ← field item (py "arguments") (.str (py "\x7b\x7d"))
  let id ← field item (py "call_id") (.str [])
  let name ← field item (py "name") (.str [])
  some { Pending.empty with tool_calls := [⟨id, name, (arguments.text?).getD (dumps fl arguments)⟩] }

/-- What the text of a reasoning item adds. -/
def reasoning_text_adds (item : Val) (text : Str) : Option Pending :=
  if text = [] then some .empty
  else if o.reasoning_format = some (py "think_tags") then do
    let start_tag ← field item (py "start_tag") (.str (py "<think>"))
    let end_tag ← field item (py "end_tag") (.str (py "</think>"))
    some (.ofContent (asText str_ start_tag ++ text ++ asText str_ end_tag))
  else if o.reasoning_format = some (py "reasoning_content") then some { Pending.empty with reasoning := [text] }
  else some .empty

/-- The details of a reasoning item as a list. -/
def details_list (reasoning_details : Val) : List Val :=
  if reasoning_details.truthy then
    match reasoning_details with
    | .list details => details
    | details => [details]
  else []

def reasoning_adds (item : Val) : Option Pending := do
  let stored ← field item (py "reasoning_details") .none
  let reasoning_details := if o.raw then stored else .none
  if (o.reasoning_format.getD []).isEmpty && !reasoning_details.truthy then some .empty
  else
    let summary ← field item (py "summary") (.list [])
    let content ← field item (py "content") (.list [])
    let parts ← iterate (if summary.truthy then summary else content)
    let text ← part_texts (fun part => is_output_text part || (Dict.lookup part.items (py "text")).isSome) parts
    let adds ← reasoning_text_adds str_ o item text
    some (adds.append { Pending.empty with reasoning_details := details_list reasoning_details })

/-- What is printed of the output of code. -/
def code_output_text (code_output : Val) : Val :=
  if code_output.isDict then
    let stdout := (Dict.lookup code_output.items (py "stdout")).getD (.str [])
    let result := (Dict.lookup code_output.items (py "result")).getD (.str [])
    if stdout.truthy then stdout else result
  else .str (asText str_ code_output)

def code_adds (item : Val) : Option Pending := do
  let code ← field item (py "code") (.str [])
  let code_output ← field item (py "output") (.str [])
  let written := if code.truthy then
    Pending.ofContent (py "<code_interpreter>\n" ++ asText str_ code ++ py "\n</code_interpreter>") else .empty
  let output_text := code_output_text str_ code_output
  let printed := if code_output.truthy && output_text.truthy then
    Pending.ofContent (py "<code_interpreter_output>\n" ++ asText str_ output_text ++ py "\n</code_interpreter_output>")
    else .empty
  some (written.append printed)

/-- What an item adds that is no output of a function. -/
def adds (item : Val) : Option Pending := do
  let item_type ← field item (py "type") (.str [])
  if isText item_type (py "message") then message_adds item
  else if isText item_type (py "function_call") then call_adds fl item
  else if isText item_type (py "reasoning") then reasoning_adds str_ o item
  else if isText item_type (py "open_webui:code_interpreter") then code_adds str_ item
  else item_type.text?.map fun _ => .empty

/-! ## Outputs -/

/-- The text and the images of an output. -/
def output_content : List Val → Option (Str × List Val)
  | [] => some ([], [])
  | part :: parts => do
    let part_type ← field part (py "type") .none
    let text ← field part (py "text") (.str [])
    let url ← field part (py "image_url") (.str [])
    let (content, image_urls) ← output_content parts
    if isText part_type (py "input_text") then some (asText str_ text ++ content, image_urls)
    else if isText part_type (py "input_image") && url.truthy then some (content, url :: image_urls)
    else some (content, image_urls)

/-- The content of a tool message. -/
def tool_content (content : Str) (image_urls : List Val) : Val :=
  if o.flatten_tool_images || image_urls.isEmpty then .str content
  else .list (.dict [(py "type", .str (py "input_text")), (py "text", .str content)] ::
    image_urls.map fun url => .dict [(py "type", .str (py "input_image")), (py "image_url", url)])

/-- The message of an output, and the images that are put in a message of their own. -/
def convert_call_output (function_call_ids : List Key) (item : Val) : Option (Message × List Val) := do
  let output ← field item (py "output") (.list [])
  let output_parts ← iterate output
  let (content, image_urls) ← output_content str_ output_parts
  let id ← field item (py "call_id") (.str [])
  let message := Message.tool id (tool_content o content image_urls)
  if o.flatten_tool_images then
    let call_id ← key? (item.get (py "call_id"))
    some (message, if call_id ∈ function_call_ids then image_urls else [])
  else some (message, [])

/-! ## The loop -/

structure State where
  messages : List Message
  pending : Pending
  pending_tool_image_urls : List Val

def flush_pending (s : State) : State :=
  if s.pending.isEmpty then s else { s with messages := s.messages ++ [s.pending.message], pending := .empty }

def image_message (urls : List Val) : Message :=
  .user (.dict [(py "type", .str (py "text")),
      (py "text", .str (py "Here are the images from the tool results above. Please analyze them."))] ::
    urls.map fun url => .dict [(py "type", .str (py "image_url")), (py "image_url", .dict [(py "url", url)])])

def flush_tool_images (s : State) : State :=
  if s.pending_tool_image_urls.isEmpty then s
  else { s with messages := s.messages ++ [image_message s.pending_tool_image_urls], pending_tool_image_urls := [] }

def is_call_output (item : Val) : Bool := isText (item.get (py "type")) (py "function_call_output")

def convert_item (function_call_ids : List Key) (s : State) (item : Val) : Option State :=
  if is_call_output item then do
    let s := flush_pending s
    let (message, urls) ← convert_call_output str_ o function_call_ids item
    some { s with messages := s.messages ++ [message], pending_tool_image_urls := s.pending_tool_image_urls ++ urls }
  else do
    let s := flush_tool_images s
    let added ← adds fl str_ o item
    some { s with pending := s.pending.append added }

/-- The id of a function call, if it has one. -/
def call_key (item : Val) : Option (Option Key) := do
  let item_type ← field item (py "type") .none
  let call_id ← field item (py "call_id") .none
  if isText item_type (py "function_call") && call_id.truthy then (key? call_id).map some else some none

def function_call_ids (output : List Val) : Option (List Key) :=
  (output.mapM call_key).map fun ids => ids.filterMap id

/-! ## Reconciling -/

/-- The key of an id that is true. -/
def id_key (id : Val) : Option (List Key) := if id.truthy then (key? id).map fun key => [key] else some []

/-- The id that a message answers. -/
def completed_keys : Message → Option (List Key)
  | .tool id _ => id_key id
  | _ => some []

/-- The ids that a message calls for. -/
def requested_keys : Message → Option (List Key)
  | .assistant _ tool_calls _ _ => (tool_calls.mapM fun call => id_key call.id).map List.flatten
  | _ => some []

def completed_tool_call_ids (messages : List Message) : Option (List Key) :=
  (messages.mapM completed_keys).map List.flatten

def requested_tool_call_ids (messages : List Message) : Option (List Key) :=
  (messages.mapM requested_keys).map List.flatten

/-- What is kept of a message. -/
def reconcile_message (completed requested : List Key) : Message → Option (List Message)
  | .tool id content => (key? id).map fun key => if key ∈ requested then [.tool id content] else []
  | .user content => some [.user content]
  | .assistant content tool_calls reasoning_content reasoning_details => do
    if tool_calls.isEmpty then some [.assistant content tool_calls reasoning_content reasoning_details]
    else
      let keyed ← tool_calls.mapM fun call => (key? call.id).map fun key => (key, call)
      let valid_tool_calls := (keyed.filter fun p => decide (p.1 ∈ completed)).map Prod.snd
      if !valid_tool_calls.isEmpty then
        some [.assistant content valid_tool_calls reasoning_content reasoning_details]
      else if strip content ≠ [] ∨ (reasoning_content.getD []) ≠ [] then
        some [.assistant content [] reasoning_content reasoning_details]
      else some []

def reconcile_tool_pairs (messages : List Message) : Option (List Message) := do
  let completed ← completed_tool_call_ids messages
  let requested ← requested_tool_call_ids messages
  let kept ← messages.mapM (reconcile_message completed requested)
  some kept.flatten

/-! ## All of it -/

/-- The messages before they are reconciled. -/
def written_messages (output : List Val) : Option (List Message) := do
  let ids ← function_call_ids output
  let s ← output.foldlM (convert_item fl str_ o ids) ⟨[], .empty, []⟩
  some (flush_pending (flush_tool_images s)).messages

def convert_output_to_messages (output : Val) : Option (List Message) :=
  match output with
  | .list items =>
    if items.isEmpty then some [] else (written_messages fl str_ o items).bind reconcile_tool_pairs
  | _ => some []

end

end Replay
end MaterialOpenWebui
