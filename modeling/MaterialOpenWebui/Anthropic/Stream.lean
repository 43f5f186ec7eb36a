import MaterialOpenWebui.Lib.Raising
import MaterialOpenWebui.Responses.Event

/-!
# `Anthropic.Stream` — an OpenAI stream as an Anthropic one (`openai_stream_to_anthropic_stream` in `backend/open_webui/utils/anthropic.py`)

The chunks of a completion are turned into the events of an Anthropic message. The generator keeps a running number of the
blocks it has started, whether a thinking or a text block is open, and a table of the tool calls; an exception, of the source
or on a chunk that is not as expected, ends the loop, and the events that close the message are sent all the same.

What is left open is a parameter: what `bytes.decode` and `json.loads` return (nothing where it raises a `JSONDecodeError`),
and how the difference of two floats is rounded. An exception carries the state in which it was raised. An id drawn by
`uuid4` is a new one. The limits of the interpreter on recursion and on the digits of an integer are left out.
-/

namespace MaterialOpenWebui
namespace Anthropic
open Py Raising
open Responses (iterate)

/-! ## Python -/

/-- What a hashable value is as a key: numbers that are equal are one key. -/
inductive Key where
  | none
  | number (x : Rat)
  | str (s : Str)
  deriving DecidableEq

def key? : Val → Option Key
  | .none => some .none
  | .str s => some (.str s)
  | v => v.number?.map .number

/-- `v.get(key, default)`, which only a dictionary has. -/
def field (v : Val) (key : Str) (default : Val) : Option Val :=
  if v.isDict then some ((Dict.lookup v.items key).getD default) else none

/-- The first that is true, and else a value that is not. -/
def firstTruthy (vs : List Val) : Val := (vs.find? Val.truthy).getD .none

/-- `w if v is None else v`. -/
def orElse (v w : Val) : Val := if v.isNone then w else v

def negate : Val → Val
  | .bool b => .int (if b then -1 else 0)
  | .int n => .int (-n)
  | .float x => .float (-x)
  | v => v

/-- `a - b`. -/
def sub (round : Rat → Rat) (a b : Val) : Option Val :=
  if a.number?.isSome && b.number?.isSome then some (Val.plus round a (negate b)) else none

/-- `max(v, 0)`. -/
def atLeastZero (v : Val) : Val := if (v.number?.getD 0).num < 0 then .int 0 else v

/-! ## Events -/

/-- The key under which a tool call is tracked: the id it came with, or one that was drawn for it. -/
inductive ToolId where
  | given (id : Key)
  | fallback (n : Nat)
  deriving DecidableEq

inductive ContentBlock where
  | thinking
  | text
  | tool_use (id : ToolId) (name : Val)

inductive Delta where
  | thinking_delta (thinking : Val)
  | text_delta (text : Val)
  | input_json_delta (partial_json : Str)

inductive Event where
  | message_start (id model : Str) (input_tokens : Val)
  | content_block_start (index : Nat) (content_block : ContentBlock)
  | content_block_delta (index : Nat) (delta : Delta)
  | content_block_stop (index : Nat)
  | message_delta (stop_reason : Str) (usage : List (Str × Val))
  | message_stop

/-! ## State -/

structure Tool where
  id : ToolId
  name : Val
  arguments : Str
  /-- Without meaning until the block is started. -/
  block_index : Nat
  started : Bool
  stopped : Bool

structure Usage where
  input_tokens : Val
  output_tokens : Val
  cache_creation_input_tokens : Val
  cache_read_input_tokens : Val
  output_tokens_details : Val
  server_tool_use : Val
  service_tier : Val

structure Stream where
  events : List Event
  usage : Usage
  stop_reason : Str
  current_block_index : Nat
  thinking_block_open : Bool
  text_block_open : Bool
  tracked_tool_calls : Dict ToolId Tool
  index_to_tool_id : Dict Key ToolId
  has_tool_calls : Bool
  /-- How many ids were drawn. -/
  drawn : Nat

def Stream.emit (s : Stream) (event : Event) : Stream := { s with events := s.events ++ [event] }

def Stream.track (s : Stream) (call : ToolId) (tool : Tool) : Stream :=
  { s with tracked_tool_calls := s.tracked_tool_calls.set call tool }

/-! ## Blocks -/

def close_thinking_block (s : Stream) : Stream :=
  if s.thinking_block_open then
    { s.emit (.content_block_stop s.current_block_index) with
      thinking_block_open := false, current_block_index := s.current_block_index + 1 }
  else s

def close_text_block (s : Stream) : Stream :=
  if s.text_block_open then
    { s.emit (.content_block_stop s.current_block_index) with
      text_block_open := false, current_block_index := s.current_block_index + 1 }
  else s

def open_thinking_block (s : Stream) : Stream :=
  if s.thinking_block_open then s
  else { s.emit (.content_block_start s.current_block_index .thinking) with thinking_block_open := true }

def open_text_block (s : Stream) : Stream :=
  if s.text_block_open then s
  else { s.emit (.content_block_start s.current_block_index .text) with text_block_open := true }

/-! ## Reasoning and text -/

/-- What a delta says in thought, or the whole message that some providers send: nothing that is true if it says none. -/
def reasoning_content (delta message : Val) : Option Val :=
  if !delta.isDict then none
  else
    let own := firstTruthy [delta.get (py "reasoning_content"), delta.get (py "reasoning"), delta.get (py "thinking")]
    if own.truthy then some own
    else if !message.isDict then none
    else
      let whole := firstTruthy [message.get (py "reasoning_content"), message.get (py "reasoning")]
      if whole.truthy then some whole
      else
        let thinking_blocks :=
          (delta.get (py "thinking_blocks")).or ((message.get (py "thinking_blocks")).or (.list []))
        (iterate thinking_blocks).map fun blocks => firstTruthy (blocks.map fun block =>
          firstTruthy [block.get (py "thinking"), block.get (py "content"), block.get (py "text")])

def handle_reasoning (s : Stream) (delta message : Val) : Except Stream Stream :=
  match reasoning_content delta message with
  | none => .error s
  | some reasoning =>
    if reasoning.truthy && !s.text_block_open && !s.has_tool_calls then
      let s := open_thinking_block s
      .ok (s.emit (.content_block_delta s.current_block_index (.thinking_delta reasoning)))
    else .ok s

def handle_content (s : Stream) (delta : Val) : Except Stream Stream :=
  let content := delta.get (py "content")
  if content.truthy && !s.has_tool_calls then
    let s := open_text_block (close_thinking_block s)
    .ok (s.emit (.content_block_delta s.current_block_index (.text_delta content)))
  else .ok s

/-! ## Tool calls -/

/-- The fields of a tool call that are read. -/
structure ToolCall where
  index : Val
  id : Val
  name : Val
  arguments : Val

def toolCall? (tool_call : Val) : Option ToolCall :=
  (field tool_call (py "index") (.int 0)).bind fun index =>
    (field tool_call (py "id") (.str [])).bind fun id =>
      let function := (tool_call.get (py "function")).or (.dict [])
      (field function (py "name") (.str [])).bind fun name =>
        (field function (py "arguments") (.str [])).map fun arguments => ⟨index, id, name, arguments⟩

def newTool (id : ToolId) (name : Val) : Tool :=
  { id, name, arguments := [], block_index := 0, started := false, stopped := false }

/-- Which tracked tool call a delta belongs to: that of its id, or the latest at its index. -/
def resolve (s : Stream) (c : ToolCall) : Except Stream (Stream × ToolId) :=
  if c.id.truthy then
    match key? c.id with
    | none => .error s
    | some id =>
      let call := ToolId.given id
      let s := if call ∈ s.tracked_tool_calls then s else s.track call (newTool call c.name)
      match key? c.index with
      | none => .error s
      | some index => .ok ({ s with index_to_tool_id := s.index_to_tool_id.set index call }, call)
  else
    match key? c.index with
    | none => .error s
    | some index =>
      match s.index_to_tool_id.get? index with
      | some call => .ok (s, call)
      | none =>
        let call := ToolId.fallback s.drawn
        let s := { s.track call (newTool call c.name) with drawn := s.drawn + 1 }
        .ok ({ s with index_to_tool_id := s.index_to_tool_id.set index call }, call)

/-- The name is taken from a later delta. -/
def name_tool (s : Stream) (call : ToolId) (name : Val) : Stream :=
  match s.tracked_tool_calls.get? call with
  | some tool => if name.truthy && !tool.name.truthy then s.track call { tool with name } else s
  | none => s

/-- The block is started once there is a name. -/
def start_tool (s : Stream) (call : ToolId) : Stream :=
  match s.tracked_tool_calls.get? call with
  | some tool =>
    if !tool.started && tool.name.truthy then
      let s := s.track call { tool with block_index := s.current_block_index, started := true }
      { s.emit (.content_block_start s.current_block_index (.tool_use tool.id tool.name)) with
        current_block_index := s.current_block_index + 1, has_tool_calls := true }
    else s
  | none => s

section
variable (loads : Str → Option Val)

/-- The arguments are buffered, and sent once the block is started; it is closed once they are complete JSON. -/
def add_fragment (s : Stream) (call : ToolId) (fragment : Str) : Stream :=
  match s.tracked_tool_calls.get? call with
  | some tool =>
    let tool := { tool with arguments := tool.arguments ++ fragment }
    if tool.started && !tool.stopped then
      let s := (s.track call tool).emit (.content_block_delta tool.block_index (.input_json_delta fragment))
      if (loads tool.arguments).isSome then
        (s.track call { tool with stopped := true }).emit (.content_block_stop tool.block_index)
      else s
    else s.track call tool
  | none => s

def add_arguments (s : Stream) (call : ToolId) (arguments : Val) : Except Stream Stream :=
  if arguments.truthy then
    match arguments with
    | .str fragment => .ok (add_fragment loads s call fragment)
    | _ => .error s
  else .ok s

def handle_tool_call (s : Stream) (tool_call : Val) : Except Stream Stream :=
  match toolCall? tool_call with
  | none => .error s
  | some c =>
    match resolve s c with
    | .error s => .error s
    | .ok (s, call) => add_arguments loads (start_tool (name_tool s call c.name) call) call c.arguments

/-- The tool calls of a delta, or of the whole message that some providers send. -/
def tool_calls (delta message : Val) : Option Val :=
  let tool_calls := delta.get (py "tool_calls")
  if tool_calls.truthy then some tool_calls
  else if !message.isDict then none
  else some (message.get (py "tool_calls"))

def handle_tool_calls (s : Stream) (delta message : Val) : Except Stream Stream :=
  match tool_calls delta message with
  | none => .error s
  | some calls =>
    if calls.truthy then
      let s := close_text_block (close_thinking_block s)
      match iterate calls with
      | none => .error s
      | some calls => calls.foldlM (handle_tool_call loads) s
    else .ok s

/-! ## A chunk -/

def stop_reason_map (finish_reason : Val) : Str :=
  if finish_reason.text? = some (py "length") then py "max_tokens"
  else if finish_reason.text? = some (py "tool_calls") then py "tool_use"
  else py "end_turn"

def handle_finish_reason (s : Stream) (finish_reason : Val) : Except Stream Stream :=
  if finish_reason.isNone then .ok s
  else if (key? finish_reason).isNone then .error s
  else .ok { s with stop_reason := stop_reason_map finish_reason }

def handle_choice (s : Stream) (choice : Val) : Except Stream Stream :=
  match field choice (py "delta") (.dict []) with
  | none => .error s
  | some delta => do
    let message := (choice.get (py "message")).or (.dict [])
    let s ← handle_reasoning s delta message
    let s ← handle_content s delta
    let s ← handle_tool_calls loads s delta message
    handle_finish_reason s (choice.get (py "finish_reason"))

end

section
variable (round : Rat → Rat)

/-- The tokens of the input that were not cached. -/
def usage_input (usage_data cache_creation cache_read : Val) : Option Val :=
  let input_tokens := usage_data.get (py "input_tokens")
  let prompt_tokens := usage_data.get (py "prompt_tokens")
  if !input_tokens.isNone || prompt_tokens.isNone then some input_tokens
  else
    (sub round prompt_tokens (cache_creation.or (.int 0))).bind fun n =>
      (sub round n (cache_read.or (.int 0))).map atLeastZero

def read_usage (u : Usage) (usage_data : Val) : Option Usage :=
  let cache_creation := usage_data.get (py "cache_creation_input_tokens")
  let prompt_details := usage_data.get (py "prompt_tokens_details")
  let cache_read := orElse (usage_data.get (py "cache_read_input_tokens"))
    (if prompt_details.isDict then prompt_details.get (py "cached_tokens") else .none)
  let usage_output := orElse (usage_data.get (py "output_tokens")) (usage_data.get (py "completion_tokens"))
  (usage_input round usage_data cache_creation cache_read).map fun usage_input =>
    { input_tokens := orElse usage_input u.input_tokens
      output_tokens := orElse usage_output u.output_tokens
      cache_creation_input_tokens := orElse cache_creation u.cache_creation_input_tokens
      cache_read_input_tokens := orElse cache_read u.cache_read_input_tokens
      output_tokens_details :=
        if (usage_data.get (py "output_tokens_details")).isDict then usage_data.get (py "output_tokens_details")
        else u.output_tokens_details
      server_tool_use :=
        if (usage_data.get (py "server_tool_use")).isDict then usage_data.get (py "server_tool_use")
        else u.server_tool_use
      service_tier := orElse (usage_data.get (py "service_tier")) u.service_tier }

def handle_usage (s : Stream) (data : Val) : Except Stream Stream :=
  match field data (py "usage") .none with
  | none => .error s
  | some usage_data =>
    if usage_data.isDict then
      match read_usage round s.usage usage_data with
      | none => .error s
      | some usage => .ok { s with usage }
    else .ok s

end

/-- What the source sends, and whether it raises in the end. -/
inductive Chunk where
  | bytes (bytes : List UInt8)
  | text (text : Str)

structure Source where
  chunks : List Chunk
  raises : Bool

structure Settings where
  decode : List UInt8 → Str
  loads : Str → Option Val
  round : Rat → Rat

section
variable (settings : Settings)

/-- `choices[0]`. -/
def first? : Val → Option Val
  | .list (v :: _) => some v
  | _ => none

def handle_choices (s : Stream) (choices : Val) : Except Stream Stream :=
  if choices.truthy then
    match first? choices with
    | none => .error s
    | some choice => handle_choice settings.loads s choice
  else .ok s

def handle_data (s : Stream) (data : Val) : Except Stream Stream := do
  let s ← handle_usage settings.round s data
  match field data (py "choices") (.list []) with
  | none => .error s
  | some choices => handle_choices settings s choices

/-- What is read of a line; a line that is no data, or whose data is no JSON, is passed over. -/
def data? (line : Str) : Option Val :=
  let line := strip line
  if line = [] ∨ !(py "data:").isPrefixOf line then none
  else
    let data_string := strip (line.drop 5)
    if data_string = py "[DONE]" ∨ data_string = py "{}" then none else settings.loads data_string

def handle_line (s : Stream) (line : Str) : Except Stream Stream :=
  match data? settings line with
  | none => .ok s
  | some data => handle_data settings s data

def lines : Chunk → List Str
  | .bytes bytes => (strip (settings.decode bytes)).splitOn (ofChar '\n')
  | .text text => (strip text).splitOn (ofChar '\n')

def handle_chunk (s : Stream) (chunk : Chunk) : Except Stream Stream :=
  (lines settings chunk).foldlM (handle_line settings) s

def consume (s : Stream) (source : Source) : Except Stream Stream := do
  let s ← source.chunks.foldlM (handle_chunk settings) s
  if source.raises then .error s else .ok s

/-! ## The generator -/

/-- A tool call that has a name and whose block was never started. -/
def flush_tool (s : Stream) (call : ToolId) : Stream :=
  match s.tracked_tool_calls.get? call with
  | some tool =>
    if !tool.started && tool.name.truthy then
      let tool := { tool with block_index := s.current_block_index, started := true }
      let s := (s.track call tool).emit (.content_block_start tool.block_index (.tool_use tool.id tool.name))
      let s := { s with current_block_index := s.current_block_index + 1 }
      if tool.arguments ≠ [] then
        s.emit (.content_block_delta tool.block_index (.input_json_delta tool.arguments))
      else s
    else s
  | none => s

def flush_tools (s : Stream) : Stream := s.tracked_tool_calls.keys.foldl flush_tool s

def close_tool (s : Stream) (tool : Tool) : Stream :=
  if tool.started && !tool.stopped then s.emit (.content_block_stop tool.block_index) else s

def close_tools (s : Stream) : Stream := (s.tracked_tool_calls.items.map Prod.snd).foldl close_tool s

def final_usage (u : Usage) : List (Str × Val) :=
  (py "output_tokens", u.output_tokens) ::
    [(py "input_tokens", u.input_tokens), (py "cache_creation_input_tokens", u.cache_creation_input_tokens),
      (py "cache_read_input_tokens", u.cache_read_input_tokens), (py "output_tokens_details", u.output_tokens_details),
      (py "server_tool_use", u.server_tool_use), (py "service_tier", u.service_tier)].filter fun p => !p.2.isNone

def finish (s : Stream) : Stream :=
  let s := close_tools (close_text_block (flush_tools (close_thinking_block s)))
  (s.emit (.message_delta s.stop_reason (final_usage s.usage))).emit .message_stop

/-- Before the first chunk, with the start of the message sent. -/
def initial (message_id model : Str) (input_tokens : Val) : Stream where
  events := [.message_start message_id model (input_tokens.or (.int 0))]
  usage := ⟨input_tokens, .int 0, .none, .none, .none, .none, .none⟩
  stop_reason := py "end_turn"
  current_block_index := 0
  thinking_block_open := false
  text_block_open := false
  tracked_tool_calls := Dict.empty
  index_to_tool_id := Dict.empty
  has_tool_calls := false
  drawn := 0

def openai_stream_to_anthropic_stream (source : Source) (message_id model : Str) (input_tokens : Val) : List Event :=
  (finish (ending (consume settings (initial message_id model input_tokens) source))).events

end

end Anthropic
end MaterialOpenWebui
