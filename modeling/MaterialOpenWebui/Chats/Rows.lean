import MaterialOpenWebui.Chats.Usage

/-!
# `Chats.Rows` — the table `chat_message` (`backend/open_webui/models/chat_messages.py`)

Every message of a chat has a row of its own, under the id of the chat and the id of the message. `upsert_message`
writes one from a message as the history stores it; `get_messages_map_by_chat_id` makes messages of rows again.

A write is `none` where it raises before the commit: a value that its column does not take (a text column takes
text without surrogates or NULL, a boolean one what equals a boolean), a role that is NULL, a usage that cannot
be counted. What `ChatMessageModel` refuses is raised after the commit, when the row has changed already; so
that is a predicate of its own, `Row.validates`.
-/

namespace MaterialOpenWebui
namespace Chats
open Py

/-! ## Keys -/

def kContent : Str := py "content"
def kModel : Str := py "model"
def kFiles : Str := py "files"
def kSources : Str := py "sources"
def kEmbeds : Str := py "embeds"
def kMeta : Str := py "meta"
def kDone : Str := py "done"
def kStatusHistory : Str := py "statusHistory"
def kError : Str := py "error"
def kContextSummary : Str := py "contextSummary"

/-- The names of four columns, which `upsert_message` accepts as keys before those of a message. -/
def cParentId : Str := py "parent_id"
def cModelId : Str := py "model_id"
def cStatusHistory : Str := py "status_history"
def cContextSummary : Str := py "context_summary"

/-! ## Rows -/

structure Row where
  chat_id : Str
  user_id : Str
  role : Str
  parent_id : Option Str
  content : Val
  output : Val
  model_id : Option Str
  files : Val
  sources : Val
  embeds : Val
  meta_ : Val
  done : Option Bool
  status_history : Val
  error : Val
  usage : Val
  context_summary : Option Str
  created_at : Option Int
  updated_at : Int

def optional (p : Val → Bool) (v : Val) : Bool := v.isNone || p v

/-- `ChatMessageModel.model_validate`. -/
def Row.validates (row : Row) : Bool :=
  optional Val.isList row.output && optional Val.isList row.files && optional Val.isList row.sources &&
    optional Val.isList row.embeds && optional Val.isDict row.meta_ && row.done.isSome &&
    optional Val.isList row.status_history && optional (fun v => v.isDict || v.text?.isSome) row.error &&
    optional Val.isDict row.usage && row.created_at.isSome

/-- `f'{chat_id}-'`. -/
def idPrefix (chat_id : Str) : Str := chat_id ++ py "-"

def compositeId (chat_id message_id : Str) : Str := idPrefix chat_id ++ message_id

theorem compositeId_inj {chat_id message_id message_id' : Str}
    (h : compositeId chat_id message_id = compositeId chat_id message_id') : message_id = message_id' :=
  List.append_cancel_left h

/-! ## Writing -/

/-- What a text column takes. -/
def asText : Val → Option (Option Str)
  | .none => some none
  | .str s => if s.all fun c => !(0xD800 ≤ c.val && c.val ≤ 0xDFFF) then some (some s) else none
  | _ => none

/-- What a boolean column takes. -/
def asBool (v : Val) : Option (Option Bool) :=
  if v.isNone then some none
  else if v.number? = some 0 then some (some false)
  else if v.number? = some 1 then some (some true)
  else none

/-- What an integer column takes. -/
def asInt (v : Val) : Option (Option Int) :=
  if v.isNone then some none
  else match v.number? with
    | some x => if x.den = 1 then some (some x.num) else none
    | none => none

/-- The value for a column, if the message has one of its keys, and else what it holds. -/
def column {α : Type} (data : Obj) (keys : List Str) (value : Option α) (held : α) : Option α :=
  if keys.any fun k => decide (k ∈ data) then value else some held

section
variable (round : Rat → Rat) (parseInt : Str → Option Int)

/-- What counts as stored. -/
def storedUsage (stored : Val) : Option Obj :=
  if stored.truthy then stored.obj?.bind (normalize_usage round parseInt) else some .empty

/-- The usage column, with the usage of a message counted in. -/
def accumulate (stored : Val) (data : Obj) : Option Val :=
  (get_usage round parseInt data).bind fun usage =>
    match usage with
    | none => some stored
    | some usage =>
      if usage.items = [] then some stored
      else (storedUsage round parseInt stored).bind fun existing_usage =>
        if (Val.dict usage.items).eq (.dict existing_usage.items) then some (.dict existing_usage.items)
        else (merge_usage round parseInt existing_usage usage).map fun usage => .dict usage.items

def updateRow (existing : Row) (data : Obj) (now : Int) : Option Row := do
  let role ← column data [kRole] (asText (field data kRole)).join existing.role
  let parent_id ← column data [cParentId, kParentId]
    (asText ((field data cParentId).or (field data kParentId))) existing.parent_id
  let content ← column data [kContent] (some (field data kContent)) existing.content
  let output ← column data [kOutput] (some (field data kOutput)) existing.output
  let model_id ← column data [cModelId, kModel]
    (asText ((field data cModelId).or (field data kModel))) existing.model_id
  let files ← column data [kFiles] (some (field data kFiles)) existing.files
  let sources ← column data [kSources] (some (field data kSources)) existing.sources
  let embeds ← column data [kEmbeds] (some (field data kEmbeds)) existing.embeds
  let meta_ ← column data [kMeta] (some (field data kMeta)) existing.meta_
  let done ← column data [kDone] (asBool (field data kDone)) existing.done
  let status_history ← column data [cStatusHistory, kStatusHistory]
    (some ((field data cStatusHistory).or (field data kStatusHistory))) existing.status_history
  let error ← column data [kError] (some (field data kError)) existing.error
  let context_summary ← column data [cContextSummary, kContextSummary]
    (asText ((field data cContextSummary).or (field data kContextSummary))) existing.context_summary
  let usage ← accumulate round parseInt existing.usage data
  some { existing with role, parent_id, content, output, model_id, files, sources, embeds, meta_, done,
                       status_history, error, context_summary, usage, updated_at := now }

def insertRow (chat_id user_id : Str) (data : Obj) (now : Int) : Option Row := do
  let usage ← get_usage round parseInt data
  let role ← (asText ((data.get? kRole).getD (.str (py "user")))).join
  let parent_id ← asText ((field data cParentId).or (field data kParentId))
  let model_id ← asText ((field data cModelId).or (field data kModel))
  let done ← asBool ((data.get? kDone).getD (.bool true))
  let context_summary ← asText ((field data cContextSummary).or (field data kContextSummary))
  let created_at ← asInt ((data.get? kTimestamp).getD (.int now))
  some { chat_id, user_id, role, parent_id, content := field data kContent, output := field data kOutput, model_id,
         files := field data kFiles, sources := field data kSources, embeds := field data kEmbeds,
         meta_ := field data kMeta,
         -- None is no value for a new row: the column has its default then
         done := some (done.getD true),
         status_history := (field data cStatusHistory).or (field data kStatusHistory), error := field data kError,
         usage := (usage.map fun usage => Val.dict usage.items).getD .none, context_summary, created_at,
         updated_at := now }

/-- What an update makes of each column. -/
structure Updated (existing : Row) (data : Obj) (now : Int) (row : Row) : Prop where
  role : column data [kRole] (asText (field data kRole)).join existing.role = some row.role
  parent_id : column data [cParentId, kParentId]
    (asText ((field data cParentId).or (field data kParentId))) existing.parent_id = some row.parent_id
  content : column data [kContent] (some (field data kContent)) existing.content = some row.content
  output : column data [kOutput] (some (field data kOutput)) existing.output = some row.output
  model_id : column data [cModelId, kModel]
    (asText ((field data cModelId).or (field data kModel))) existing.model_id = some row.model_id
  files : column data [kFiles] (some (field data kFiles)) existing.files = some row.files
  sources : column data [kSources] (some (field data kSources)) existing.sources = some row.sources
  embeds : column data [kEmbeds] (some (field data kEmbeds)) existing.embeds = some row.embeds
  meta_ : column data [kMeta] (some (field data kMeta)) existing.meta_ = some row.meta_
  done : column data [kDone] (asBool (field data kDone)) existing.done = some row.done
  status_history : column data [cStatusHistory, kStatusHistory]
    (some ((field data cStatusHistory).or (field data kStatusHistory))) existing.status_history =
      some row.status_history
  error : column data [kError] (some (field data kError)) existing.error = some row.error
  context_summary : column data [cContextSummary, kContextSummary]
    (asText ((field data cContextSummary).or (field data kContextSummary))) existing.context_summary =
      some row.context_summary
  usage : accumulate round parseInt existing.usage data = some row.usage
  chat_id : row.chat_id = existing.chat_id
  user_id : row.user_id = existing.user_id
  created_at : row.created_at = existing.created_at
  updated_at : row.updated_at = now

theorem updateRow_iff {existing row : Row} {data : Obj} {now : Int} :
    updateRow round parseInt existing data now = some row ↔ Updated round parseInt existing data now row := by
  constructor
  · intro h
    rw [updateRow] at h
    obtain ⟨role, hrole, h⟩ := Option.bind_eq_some_iff.mp h
    obtain ⟨parent_id, hparent, h⟩ := Option.bind_eq_some_iff.mp h
    obtain ⟨content, hcontent, h⟩ := Option.bind_eq_some_iff.mp h
    obtain ⟨output, houtput, h⟩ := Option.bind_eq_some_iff.mp h
    obtain ⟨model_id, hmodel, h⟩ := Option.bind_eq_some_iff.mp h
    obtain ⟨files, hfiles, h⟩ := Option.bind_eq_some_iff.mp h
    obtain ⟨sources, hsources, h⟩ := Option.bind_eq_some_iff.mp h
    obtain ⟨embeds, hembeds, h⟩ := Option.bind_eq_some_iff.mp h
    obtain ⟨meta_, hmeta, h⟩ := Option.bind_eq_some_iff.mp h
    obtain ⟨done, hdone, h⟩ := Option.bind_eq_some_iff.mp h
    obtain ⟨status_history, hstatus, h⟩ := Option.bind_eq_some_iff.mp h
    obtain ⟨error, herror, h⟩ := Option.bind_eq_some_iff.mp h
    obtain ⟨context_summary, hsummary, h⟩ := Option.bind_eq_some_iff.mp h
    obtain ⟨usage, husage, h⟩ := Option.bind_eq_some_iff.mp h
    cases h
    exact ⟨hrole, hparent, hcontent, houtput, hmodel, hfiles, hsources, hembeds, hmeta, hdone, hstatus, herror,
      hsummary, husage, rfl, rfl, rfl, rfl⟩
  · rintro ⟨hrole, hparent, hcontent, houtput, hmodel, hfiles, hsources, hembeds, hmeta, hdone, hstatus, herror,
      hsummary, husage, hchat, huser, hcreated, hupdated⟩
    simp only [updateRow, Option.bind_eq_bind, hrole, hparent, hcontent, houtput, hmodel, hfiles, hsources, hembeds,
      hmeta, hdone, hstatus, herror, hsummary, husage, Option.bind_some, Option.some.injEq]
    cases row
    simp_all

/-- What a new row holds. -/
structure Inserted (chat_id user_id : Str) (data : Obj) (now : Int) (row : Row) : Prop where
  role : (asText ((data.get? kRole).getD (.str (py "user")))).join = some row.role
  parent_id : asText ((field data cParentId).or (field data kParentId)) = some row.parent_id
  content : row.content = field data kContent
  output : row.output = field data kOutput
  model_id : asText ((field data cModelId).or (field data kModel)) = some row.model_id
  files : row.files = field data kFiles
  sources : row.sources = field data kSources
  embeds : row.embeds = field data kEmbeds
  meta_ : row.meta_ = field data kMeta
  done : ∃ done, asBool ((data.get? kDone).getD (.bool true)) = some done ∧ row.done = some (done.getD true)
  status_history : row.status_history = (field data cStatusHistory).or (field data kStatusHistory)
  error : row.error = field data kError
  context_summary : asText ((field data cContextSummary).or (field data kContextSummary)) = some row.context_summary
  usage : ∃ usage, get_usage round parseInt data = some usage ∧
    row.usage = (usage.map fun usage => Val.dict usage.items).getD .none
  chat_id : row.chat_id = chat_id
  user_id : row.user_id = user_id
  updated_at : row.updated_at = now

theorem insertRow_spec {chat_id user_id : Str} {row : Row} {data : Obj} {now : Int}
    (h : insertRow round parseInt chat_id user_id data now = some row) :
    Inserted round parseInt chat_id user_id data now row := by
  simp only [insertRow, Option.bind_eq_bind, Option.bind_eq_some_iff, Option.some.injEq] at h
  obtain ⟨usage, husage, role, hrole, parent_id, hparent, model_id, hmodel, done, hdone, context_summary, hsummary,
    created_at, hcreated, rfl⟩ := h
  exact ⟨hrole, hparent, rfl, rfl, hmodel, rfl, rfl, rfl, rfl, ⟨done, hdone, rfl⟩, rfl, rfl, hsummary,
    ⟨usage, husage, rfl⟩, rfl, rfl, rfl⟩

/-- The row of a message after `upsert_message`. -/
def upsertRow (existing : Option Row) (chat_id user_id : Str) (data : Obj) (now : Int) : Option Row :=
  match existing with
  | some row => updateRow round parseInt row data now
  | none => insertRow round parseInt chat_id user_id data now

def upsert_message (table : Dict Str Row) (message_id chat_id user_id : Str) (data : Obj) (now : Int) :
    Option (Dict Str Row) :=
  (upsertRow round parseInt (table.get? (compositeId chat_id message_id)) chat_id user_id data now).map
    fun row => table.set (compositeId chat_id message_id) row

end

/-! ## Reading -/

def textVal : Option Str → Val
  | some s => .str s
  | none => .none

/-- The columns that a message is made of, under the keys of a message. -/
def columns : List (Str × (Row → Val)) :=
  [(kRole, fun row => .str row.role), (kParentId, fun row => textVal row.parent_id),
    (kContent, Row.content), (kOutput, Row.output), (kModel, fun row => textVal row.model_id),
    (kFiles, Row.files), (kSources, Row.sources), (kEmbeds, Row.embeds), (kMeta, Row.meta_),
    (kDone, fun row => row.done.elim .none .bool), (kStatusHistory, Row.status_history), (kError, Row.error),
    (kUsage, Row.usage), (kContextSummary, fun row => textVal row.context_summary),
    (kTimestamp, fun row => row.created_at.elim .none .int)]

/-- A column that is not NULL. -/
def columnValue (row : Row) (key : Str) : Option Val :=
  (Dict.lookup columns key).bind fun column => if (column row).isNone then none else some (column row)

/-- The message of a row. -/
def rowMessage (message_id : Str) (row : Row) : Obj :=
  let message := (Dict.empty.set kId (.str message_id)).setEach (columnValue row) (columns.map Prod.fst)
  let message := if kContent ∈ message then message else message.set kContent (.str [])
  match message.get? kUsage with
  | some usage => message.set kInfo (.dict [(kUsage, usage)])
  | none => message

/-- The message with one more child. -/
def listChild (parent : Obj) (id : Str) : Obj :=
  match parent.get? kChildrenIds with
  | some (.list children) =>
    if children.any (·.eq (.str id)) then parent else parent.set kChildrenIds (.list (children ++ [.str id]))
  | _ => parent.set kChildrenIds (.list [.str id])

/-- Adds a message to the children of its parent, if that is there. -/
def adoptChild (messages : Dict Str Obj) (p : Str × Obj) : Dict Str Obj :=
  match field p.2 kParentId with
  | .str parent_id =>
    match if parent_id = [] then none else messages.get? parent_id with
    | some parent => messages.set parent_id (listChild parent p.1)
    | none => messages
  | _ => messages

/-- The messages, with the lists of children that their parents give. -/
def relinked (messages : Dict Str Obj) : Dict Str Obj :=
  (messages.items.foldl adoptChild messages).map fun _ message =>
    if kChildrenIds ∈ message then message else message.set kChildrenIds (.list [])

/-- `row.id[prefix_len:] if row.id.startswith(prefix) else row.id`. -/
def messageId (chat_id id : Str) : Str :=
  if (idPrefix chat_id).isPrefixOf id then id.drop (idPrefix chat_id).length else id

/-- The messages of the rows of a chat, in whichever order the database has them. -/
def get_messages_map_by_chat_id (chat_id : Str) (rows : List (Str × Row)) : Option (Dict Str Obj) :=
  if rows = [] then none
  else some (relinked (Dict.ofList (rows.map fun p => (messageId chat_id p.1, rowMessage (messageId chat_id p.1) p.2))))

end Chats
end MaterialOpenWebui
