import MaterialOpenWebui.Py.Number
import MaterialOpenWebui.Lib.Pieces

/-!
# `Responses.Event` — one event of a Responses stream (`handle_responses_streaming_event` in `backend/open_webui/utils/middleware.py`)

A model server sends a reply as a sequence of events; each adds an item to the output, or a part to an item, or text to
a part. The handler takes an event and the output so far. It is meant to be pure: it copies what it changes.

What is left open is a parameter: the text that `str` gives of a value that is no string.
-/

namespace MaterialOpenWebui
namespace Responses
open Py

/-! ## Events -/

/-- The fields have the types of the protocol; those that are indices may hold anything. -/
structure Typed (data : Obj) : Prop where
  type : ∀ v, data.get? (py "type") = some v → v.text?.isSome
  item : ∀ v, data.get? (py "item") = some v → v.isDict
  part : ∀ v, data.get? (py "part") = some v → v.isDict
  response : ∀ v, data.get? (py "response") = some v → v.isDict ∧
    ((v.get (py "output")).isNone ∨ ∃ items, v.get (py "output") = .list items ∧ ∀ item ∈ items, item.isDict)

structure Event where
  data : Obj
  typed : Typed data

namespace Event
variable (e : Event)

def type : Str := ((e.data.get? (py "type")).bind Val.text?).getD []

def item : Option Obj := (e.data.get? (py "item")).bind Val.obj?

def part : Option Obj := (e.data.get? (py "part")).bind Val.obj?

def response : Obj := ((e.data.get? (py "response")).bind Val.obj?).getD Dict.empty

/-- The items of `data['response']['output']`, when that is not `None`. -/
def final_output : Option (List Obj) :=
  match e.response.get? (py "output") with
  | some (.list items) => some (items.filterMap Val.obj?)
  | _ => none

def delta : Val := (e.data.get? (py "delta")).getD (.str [])

/-- Of `n` items, the last if there is none in the event. -/
def output_index (n : Nat) : Val := (e.data.get? (py "output_index")).getD (.int (n - 1))

def content_index : Val := (e.data.get? (py "content_index")).getD (.int 0)

def summary_index : Val := (e.data.get? (py "summary_index")).getD (.int 0)

end Event

/-! ## Python -/

/-- `type.split('.')`. -/
def split (s : Str) : List Str := s.splitOn (ofChar '.')

mutual
def deep_merge (target : Val) : Val → Val
  | .dict source =>
    match target with
    | .dict items => .dict (mergeItems [] (Dict.firsts items) source).items
    | _ => .dict source
  | .str s =>
    match target with
    | .str t => .str (t ++ s)
    | _ => .str s
  | v => v

/-- The items of the source, but for the keys that were seen. -/
def mergeItems (seen : List Str) (target : Obj) : List (Str × Val) → Obj
  | [] => target
  | (k, v) :: source =>
    if k ∈ seen then mergeItems seen target source
    else
      let merged := match target.get? k with
        | some w => deep_merge w v
        | none => v
      mergeItems (k :: seen) (target.set k merged) source
end

/-- `list(v)`. -/
def iterate : Val → Option (List Val)
  | .list vs => some vs
  | .str s => some (s.map fun c => .str [c])
  | .dict items => some ((Dict.firsts items).keys.map .str)
  | _ => none

/-- `0 <= index < n`. -/
def within (index : Val) (n : Nat) : Option Bool :=
  index.number?.map fun x => decide (0 ≤ x.num) && decide (x.num < (n : Int) * x.den)

/-- The place of `xs[index]` in a list of `n`. -/
def place (index : Val) (n : Nat) : Option Nat :=
  index.integer?.bind fun i =>
    if 0 ≤ i then if i < n then some i.toNat else none
    else if 0 ≤ i + n then some (i + n).toNat else none

/-! ## Items -/

def isType (item : Obj) (type : Str) : Bool := (item.get? (py "type")).bind Val.text? = some type

/-- `list(item[key])`, and an empty list where there is none. -/
def listField (item : Obj) (key : Str) : Option (List Val) :=
  match item.get? key with
  | some v => iterate v
  | none => some []

/-- Parts are added until there is one at the index. -/
def padded (parts : List Val) (i : Int) (part : Val) : List Val :=
  parts ++ List.replicate (i + 1 - parts.length).toNat part

/-- A changed copy of a part, in a copy of the list. -/
def changePart (item : Obj) (key : Str) (parts : List Val) (index : Val) (change : Obj → Obj) : Option Obj :=
  (place index parts.length).bind fun p =>
    (parts[p]?.bind Val.obj?).map fun part => item.set key (.list (parts.set p (.dict (change part).items)))

/-- A changed copy of the part at the index, which is added if it is not there. -/
def changeOrAddPart (item : Obj) (key : Str) (index : Val) (added : Obj) (change : Obj → Obj) : Option Obj :=
  (listField item key).bind fun parts =>
    index.integer?.bind fun i => changePart item key (padded parts i (.dict added.items)) index change

/-- `{'type': type, 'text': ''}`. -/
def emptyPart (type : Str) : Obj := (Dict.empty.set (py "type") (.str type)).set (py "text") (.str [])

/-- A changed copy of the item at the index, in a copy of the list. -/
def changeItem (current_output : List Obj) (index : Val) (change : Obj → Option Obj) : Option (List Obj) :=
  (place index current_output.length).bind fun p =>
    current_output[p]?.bind fun item => (change item).map fun item => current_output.set p item

/-! ## The handler -/

/-- The output and the metadata that are returned; nothing if it raises, or returns `None`. -/
abbrev Reply := Option (List Obj × Option Obj)

def output_item_added (e : Event) (current_output : List Obj) : Reply :=
  match e.item with
  | some item => some (if item.items ≠ [] then current_output ++ [item] else current_output, none)
  | none => some (current_output, none)

/-- `current_output and 0 <= output_index < len(current_output)`. -/
def addresses (e : Event) (current_output : List Obj) : Option Bool :=
  if current_output = [] then some false else within (e.output_index current_output.length) current_output.length

/-- The item that is addressed is changed, and nothing if there is none. -/
def changeAddressed (e : Event) (current_output : List Obj) (change : Obj → Option Obj) : Reply :=
  (addresses e current_output).bind fun found =>
    if found then
      (changeItem current_output (e.output_index current_output.length) change).map fun output => (output, none)
    else some (current_output, none)

def content_part_added (e : Event) (item : Obj) : Option Obj :=
  (listField item (py "content")).map fun content =>
    item.set (py "content")
      (.list (if isType item (py "reasoning") then content else content ++ [.dict (e.part.getD Dict.empty).items]))

def reasoning_summary_part_added (e : Event) (item : Obj) : Option Obj :=
  (listField item (py "summary")).map fun summary =>
    item.set (py "summary") (.list (summary ++ [.dict (e.part.getD Dict.empty).items]))

/-- `text` of a delta of text, and else the name of what the delta is of. -/
def textKey (type : Str) : Str := if type = py "text" ∨ type = py "output_text" then py "text" else type

/-- The value under a key with the delta, beginning with a value of its type. -/
def merged (value : Option Val) (delta : Val) : Val :=
  let value := value.getD .none
  deep_merge (if value.isNone then if delta.isDict then .dict [] else .str [] else value) delta

section
variable (str_ : Val → Str)

/-- `str(v)`. -/
def str : Val → Str
  | .str s => s
  | v => str_ v

def delta_item (e : Event) (delta_type : Str) (item : Obj) : Option Obj :=
  if delta_type = py "function_call_arguments" then
    if isType item (py "function_call") then
      match (item.get? (py "arguments")).getD (.str []) with
      | .str s => some (item.set (py "arguments") (.str (s ++ str str_ e.delta)))
      | _ => none
    else some item
  else if isType item (py "message") then
    if delta_type = py "reasoning_text" ∨ delta_type = py "reasoning_summary_text" then some item
    else changeOrAddPart item (py "content") e.content_index (emptyPart (py "text"))
      fun part => part.set (textKey delta_type) (merged (part.get? (textKey delta_type)) e.delta)
  else if isType item (py "reasoning") then
    if delta_type = py "reasoning_summary_text" then
      changeOrAddPart item (py "summary") e.summary_index (emptyPart (py "summary_text"))
        fun part => part.set (py "text") (deep_merge ((part.get? (py "text")).getD (.str [])) e.delta)
    else if delta_type = py "reasoning_text" then
      changeOrAddPart item (py "content") e.content_index (emptyPart (py "text"))
        fun part => part.set (py "text") (deep_merge ((part.get? (py "text")).getD (.str [])) e.delta)
    else some item
  else some (item.set (textKey delta_type) (merged (item.get? (textKey delta_type)) e.delta))

/-- `response.*.delta`. Without an item at the index the output that is to be returned was never assigned; and an event
with a shorter name falls off the end of the function. -/
def response_delta (e : Event) (current_output : List Obj) : Reply :=
  match split e.type with
  | _ :: delta_type :: _ :: _ =>
    (addresses e current_output).bind fun found =>
      if found then
        (changeItem current_output (e.output_index current_output.length) (delta_item str_ e delta_type)).map
          fun output => (output, none)
      else none
  | _ => none

end

/-- The part at the index is replaced, if it is there. -/
def replacePart (key : Str) (index : Option Val) (part item : Obj) : Option (Option Obj) :=
  match item.get? key with
  | none => some none
  | some v =>
    (iterate v).bind fun parts =>
      let index := index.getD (.int (parts.length - 1))
      (within index parts.length).bind fun found =>
        if found then
          (place index parts.length).map fun p => some (item.set key (.list (parts.set p (.dict part.items))))
        else some none

/-- `response.content_part.done` and `response.reasoning_summary_part.done`. -/
def part_done (key : Str) (index : Option Val) (e : Event) (current_output : List Obj) : Reply :=
  match e.part with
  | none => some (current_output, none)
  | some part =>
    if part.items = [] then some (current_output, none)
    else
      (addresses e current_output).bind fun found =>
        if found then
          (place (e.output_index current_output.length) current_output.length).bind fun p =>
            current_output[p]?.bind fun item =>
              (replacePart key index part item).map fun replaced =>
                match replaced with
                | some item => (current_output.set p item, some Dict.empty)
                | none => (current_output, none)
        else some (current_output, none)

/-- The key that the final value is under, in the event and in the item. -/
def doneKey (type_name : Str) : Str :=
  if type_name = py "function_call_arguments" then py "arguments"
  else if type_name = py "text" ∨ type_name = py "output_text" ∨ type_name = py "reasoning_text" ∨
      type_name = py "reasoning_summary_text" then py "text"
  else type_name

def done_item (e : Event) (type_name : Str) (final_value : Val) (item : Obj) : Option Obj :=
  if type_name = py "function_call_arguments" then
    some (if isType item (py "function_call") then item.set (py "arguments") final_value else item)
  else if isType item (py "message") then
    match item.get? (py "content") with
    | none => some item
    | some v =>
      (iterate v).bind fun content =>
        e.content_index.number?.bind fun x =>
          if x.num < (content.length : Int) * x.den then
            changePart item (py "content") content e.content_index fun part => part.set (doneKey type_name) final_value
          else some (item.set (py "content") (.list content))
  else if isType item (py "reasoning") then some (item.set (py "status") (.str (py "completed")))
  else some (item.set (doneKey type_name) final_value)

/-- `response.*.done` with the final value of a field. -/
def field_done (e : Event) (type_name : Str) (current_output : List Obj) : Reply :=
  (addresses e current_output).bind fun found =>
    if found then
      match e.data.get? (doneKey type_name) with
      | none => some (current_output, none)
      | some final_value =>
        (changeItem current_output (e.output_index current_output.length) (done_item e type_name final_value)).map
          fun output => (output, some Dict.empty)
    else some (current_output, none)

/-- `response.*.done`. That an item is done is to be handled by the branch after this one. -/
def response_done (e : Event) (current_output : List Obj) : Reply :=
  match split e.type with
  | _ :: type_name :: _ :: _ =>
    if type_name = py "content_part" then
      part_done (py "content") (e.data.get? (py "content_index")) e current_output
    else if type_name = py "reasoning_summary_part" then
      part_done (py "summary") (e.data.get? (py "summary_index")) e current_output
    else if type_name = py "output_item" then some (current_output, none)
    else if type_name = py "completed" ∨ type_name = py "failed" then some (current_output, none)
    else field_done e type_name current_output
  | _ => some (current_output, none)

def output_item_done (e : Event) (current_output : List Obj) : Reply :=
  match e.item with
  | none => some (current_output, some Dict.empty)
  | some item =>
    if item.items = [] then some (current_output, some Dict.empty)
    else
      (within (e.output_index current_output.length) current_output.length).bind fun found =>
        if found then
          (place (e.output_index current_output.length) current_output.length).map fun p =>
            (current_output.set p item, some Dict.empty)
        else some (current_output ++ [item], some Dict.empty)

/-- A reasoning item is marked where it is, in the list that it came in. -/
def markCompleted (item : Obj) : Obj :=
  if isType item (py "reasoning") ∧ (item.get? (py "status")).bind Val.text? ≠ some (py "completed") then
    item.set (py "status") (.str (py "completed"))
  else item

def completedMetadata (e : Event) : Obj :=
  ((Dict.empty.set (py "usage") ((e.response.get? (py "usage")).getD .none)).set (py "done") (.bool true)).set
    (py "response_id") ((e.response.get? (py "id")).getD .none)

/-- What a call returns, and what the list that it was given holds afterwards. -/
structure Outcome where
  reply : Reply
  current_output : List Obj

def response_completed (e : Event) (current_output : List Obj) : Outcome :=
  match e.final_output with
  | some final_output => ⟨some (final_output.map markCompleted, some (completedMetadata e)), current_output⟩
  | none =>
    ⟨some (current_output.map markCompleted, some (completedMetadata e)), current_output.map markCompleted⟩

/-- `event_type.startswith('response.') and event_type.endswith(suffix)`. -/
def isResponse (suffix type : Str) : Bool := (py "response.").isPrefixOf type && suffix.isSuffixOf type

/-- One event. -/
def handle_responses_streaming_event (str_ : Val → Str) (e : Event) (current_output : List Obj) : Outcome :=
  if e.type = py "response.output_item.added" then ⟨output_item_added e current_output, current_output⟩
  else if e.type = py "response.content_part.added" then
    ⟨changeAddressed e current_output (content_part_added e), current_output⟩
  else if e.type = py "response.reasoning_summary_part.added" then
    ⟨changeAddressed e current_output (reasoning_summary_part_added e), current_output⟩
  else if isResponse (py ".delta") e.type then ⟨response_delta str_ e current_output, current_output⟩
  else if isResponse (py ".done") e.type then ⟨response_done e current_output, current_output⟩
  else if e.type = py "response.output_item.done" then ⟨output_item_done e current_output, current_output⟩
  else if e.type = py "response.completed" then response_completed e current_output
  else if e.type = py "response.in_progress" then ⟨some (current_output, none), current_output⟩
  else if e.type = py "response.failed" then
    let error := (e.response.get? (py "error")).getD (.dict [])
    ⟨some (current_output, some (Dict.empty.set (py "error") error)), current_output⟩
  else ⟨some (current_output, none), current_output⟩

end Responses
end MaterialOpenWebui
