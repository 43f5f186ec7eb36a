import MaterialOpenWebui.Chats.Rows
import MaterialOpenWebui.Py.Sanitize

/-!
# `Chats.Store` — saving a message (`backend/open_webui/models/chats.py`)

A chat is one row whose JSON holds the whole history, and beside it columns that are derived from the JSON.
`upsert_message_to_chat_by_id_and_message_id` reads the row, puts the message into the history, writes the row
back, and then writes the message to its row of `chat_message`.

The JSON is taken apart into the history and its other keys; a chat without a history has the empty one. Left
out are chats whose JSON has a second key that only sanitizing makes `history`, `messages` or `currentId`.
-/

namespace MaterialOpenWebui
namespace Chats
open Py

def kType : Str := py "type"
def kText : Str := py "text"
def kTitle : Str := py "title"
def kCurrentId : Str := py "currentId"
def kBranchPointMessageId : Str := py "branchPointMessageId"
def kMessages : Str := py "messages"

/-! ## The text of an output -/

section
-- `str(v)` of what is no string
variable (str_ : Val → Str)

/-- The text of one item, if it is a message that has any. -/
def itemText (item : Val) : Option Str :=
  if item.isDict && (item.get kType).eq (.str (py "message")) then
    match (item.get kContent).or (.list []) with
    | .list parts =>
      let text := (parts.filterMap fun part =>
        if part.isDict && !(part.get kText).isNone then
          some (match part.get kText with | .str s => s | v => str_ v)
        else none).flatten
      if strip text = [] then none else some text
    | _ => none
  else none

def get_output_text (output : Val) : Str :=
  match output with
  | .list items => ((items.filterMap (itemText str_)).intersperse (py "\n")).flatten
  | _ => []

/-- The message with its content: the text of its output where it has none, and sanitized. -/
def prepared (message : Obj) : Obj :=
  let output_text := get_output_text str_ (field message kOutput)
  let message :=
    if (field message kContent).truthy || output_text = [] then message
    else message.set kContent (.str output_text)
  match field message kContent with
  | .str s => message.set kContent (.str (sanitize_text_for_db s))
  | _ => message

end

/-! ## The row of a chat -/

structure Chat where
  user_id : Str
  title : Option Str
  history : History
  /-- The other keys of the JSON. -/
  others : Obj
  current_message_id : Option Str
  updated_at : Int

def cleanMessages (messages : Dict Str Obj) : Dict Str Obj :=
  Dict.ofList (messages.items.map fun p => (sanitize_text_for_db p.1, sanitizeObj p.2))

def cleanHistory (h : History) : History where
  messages := cleanMessages h.messages
  currentId := h.currentId.sanitize_data_for_db
  others := sanitizeObj h.others

def _sanitize_chat_row (chat : Chat) : Chat :=
  { chat with title := chat.title.map sanitize_text_for_db
              history := cleanHistory chat.history
              others := sanitizeObj chat.others }

/-- `a > b` of two numbers; other values raise here. -/
def greater (a b : Val) : Option Bool := do
  let x ← a.number?
  let y ← b.number?
  some (decide (y < x))

/-- The leaf with the latest timestamp, and its timestamp. -/
def latestLeaf : List (Str × Obj) → Option Str → Val → Option (Option Str)
  | [], latest_leaf_id, _ => some latest_leaf_id
  | (message_id, message) :: items, latest_leaf_id, latest_timestamp =>
    let timestamp := (field message kTimestamp).or (.int 0)
    let leaf := match field message kChildrenIds with
      | .list (_ :: _) => false
      | _ => true
    if !(field message kRole).truthy || !leaf then latestLeaf items latest_leaf_id latest_timestamp
    else (greater timestamp latest_timestamp).bind fun later =>
      if later then latestLeaf items (some message_id) timestamp
      else latestLeaf items latest_leaf_id latest_timestamp

/-- The current message is one that an output wrote where no message was. -/
def isBadLeaf (messages : Dict Str Obj) (message : Obj) (output : List Val) : Bool :=
  (outputRole output).eq (.str (py "assistant")) && (field message kParentId).isNone &&
    !(field message kTimestamp).truthy && 1 < messages.size

/-- The history with a current id that is that of a message, if there is any; `none` where it raises. -/
def _repair_chat_current_id (h : History) : Option History :=
  (find? h.messages h.currentId).bind fun current_message =>
  ((current_message.map fun message => iterate ((field message kOutput).or (.list []))).getD (some [])).bind
    fun output =>
  if current_message.any fun message => (field message kId).truthy && (field message kRole).truthy &&
      !isBadLeaf h.messages message output then some h
  else (latestLeaf h.messages.items none (.int (-1))).map fun latest_leaf_id =>
    match latest_leaf_id with
    | some id => if id = [] ∨ (Val.str id).eq h.currentId then h else { h with currentId := .str id }
    | none => h

def get_current_message_id (h : History) (others : Obj) : Val :=
  let current_id := h.currentId.or ((field others kCurrentId).or (field others kBranchPointMessageId))
  if current_id.truthy then current_id
  else match field others kMessages with
    | .list messages =>
      ((messages.reverse.find? fun message => message.isDict && (message.get kId).truthy).map (·.get kId)).getD .none
    | _ => .none

/-! ## Saving -/

/-- The row with another history, as it is committed; `none` where a column does not take its value. -/
def committed (chat : Chat) (history : History) (touch : Bool) (now : Int) : Option Chat := do
  let history := cleanHistory history
  let others := sanitizeObj chat.others
  let title ← asText ((others.get? kTitle).elim (.str (py "New Chat")) Val.sanitize_data_for_db)
  let current_message_id ← asText (get_current_message_id history others)
  some { chat with title, history, others, current_message_id
                   updated_at := if touch then now else chat.updated_at }

/-- `ChatModel.model_validate`, which is after the commit. -/
def Chat.validates (chat : Chat) : Bool := chat.title.isSome

/-- The row of the chat with the message in it, and the message as it is stored in the history. -/
def upsert_message_to_chat_by_id_and_message_id (str_ : Val → Str) (chat : Chat) (message_id : Str) (message : Obj)
    (touch : Bool) (now : Int) : Option (Chat × Obj) :=
  let chat := _sanitize_chat_row chat
  (_repair_chat_current_id chat.history).bind fun history =>
  (upsert_message_to_history history message_id (prepared str_ message) now).bind fun stored =>
  (committed chat stored.1 touch now).map fun chat => (chat, stored.2)

/-- The row of a chat and the rows of its messages. -/
structure Store where
  chat : Chat
  rows : Dict Str Row

structure Call where
  message_id : Str
  message : Obj
  touch : Bool
  now : Int

/-- A call of which both writes succeed. -/
def saveMessage (round : Rat → Rat) (parseInt : Str → Option Int) (str_ : Val → Str) (chat_id : Str) (s : Store)
    (call : Call) : Option Store :=
  (upsert_message_to_chat_by_id_and_message_id str_ s.chat call.message_id call.message call.touch call.now).bind
    fun stored =>
  (upsertRow round parseInt (s.rows.get? (compositeId chat_id call.message_id)) chat_id s.chat.user_id stored.2
    call.now).bind fun row =>
  if stored.1.validates && row.validates then
    some ⟨stored.1, s.rows.set (compositeId chat_id call.message_id) row⟩
  else none

/-! ## Sanitizing a history -/

/-- Ids that can be stored are kept. -/
theorem cleanMessages_of_storable {messages : Dict Str Obj} (h : StorableKeys messages) :
    cleanMessages messages = messages.map fun _ message => sanitizeObj message := by
  have hitems : messages.items.map (fun p => (sanitize_text_for_db p.1, sanitizeObj p.2)) =
      (messages.map fun _ message => sanitizeObj message).items := by
    refine List.map_congr_left fun p hp => ?_
    rw [sanitize_text_for_db_of_storable (h p.1 (List.mem_map_of_mem hp))]
  rw [cleanMessages, hitems, Dict.ofList_items]

theorem get?_cleanMessages {messages : Dict Str Obj} (h : StorableKeys messages) (id : Str) :
    (cleanMessages messages).get? id = (messages.get? id).map sanitizeObj := by
  rw [cleanMessages_of_storable h, Dict.get?_map]

theorem storableKeys_cleanMessages (messages : Dict Str Obj) : StorableKeys (cleanMessages messages) := by
  intro k hk
  rw [cleanMessages, Dict.mem_ofList, List.map_map] at hk
  obtain ⟨p, -, rfl⟩ := List.mem_map.mp hk
  exact storable_sanitize p.1

/-! ## What a save does -/

/-- Repairing writes the current id only. -/
theorem repair_spec {h h' : History} (hrepair : _repair_chat_current_id h = some h') :
    h'.messages = h.messages ∧ h'.others = h.others := by
  rw [_repair_chat_current_id, Option.bind_eq_some_iff] at hrepair
  obtain ⟨current_message, -, hrepair⟩ := hrepair
  obtain ⟨output, -, hrepair⟩ := Option.bind_eq_some_iff.mp hrepair
  split at hrepair
  · cases hrepair
    exact ⟨rfl, rfl⟩
  · obtain ⟨latest_leaf_id, -, hrepair⟩ := Option.map_eq_some_iff.mp hrepair
    rw [← hrepair]
    cases latest_leaf_id with
    | none => exact ⟨rfl, rfl⟩
    | some id =>
      simp only
      split <;> exact ⟨rfl, rfl⟩

/-- How the message is stored. -/
def IsSaved (messages : Dict Str Obj) (message_id : Str) (message : Obj) (now : Int) (saved : Obj) : Prop :=
  match messages.get? message_id with
  | some existing => saved = existing.update message
  | none => newMessage messages message_id message now = some saved

theorem upsert_history_spec {h h' : History} {message_id : Str} {message saved : Obj} {now : Int}
    (hupsert : upsert_message_to_history h message_id message now = some (h', saved)) :
    IsSaved h.messages message_id message now saved ∧
      h' = ⟨h.messages.set message_id saved, .str message_id, h.others⟩ := by
  unfold IsSaved
  cases hget : h.messages.get? message_id with
  | none =>
    rw [upsert_message_to_history, hget] at hupsert
    obtain ⟨stored, hstored, heq⟩ := Option.bind_eq_some_iff.mp hupsert
    cases heq
    exact ⟨hstored, rfl⟩
  | some existing =>
    rw [upsert_message_to_history, hget] at hupsert
    cases hupsert
    exact ⟨rfl, rfl⟩

/-- The row of a chat after a message was put into it. -/
structure Upserted (str_ : Val → Str) (chat : Chat) (message_id : Str) (message : Obj) (touch : Bool) (now : Int)
    (chat' : Chat) (saved : Obj) : Prop where
  stored : IsSaved (cleanMessages chat.history.messages) message_id (prepared str_ message) now saved
  history : chat'.history = cleanHistory ⟨(cleanMessages chat.history.messages).set message_id saved,
    .str message_id, sanitizeObj chat.history.others⟩
  others : chat'.others = sanitizeObj chat.others
  title : asText ((chat'.others.get? kTitle).elim (.str (py "New Chat")) Val.sanitize_data_for_db) = some chat'.title
  current_message_id : asText (get_current_message_id chat'.history chat'.others) = some chat'.current_message_id
  user_id : chat'.user_id = chat.user_id
  updated_at : chat'.updated_at = if touch then now else chat.updated_at

/-- **What `upsert_message_to_chat_by_id_and_message_id` writes to the row of the chat.** -/
theorem upsert_chat_spec {str_ : Val → Str} {chat chat' : Chat} {message_id : Str} {message saved : Obj} {touch : Bool}
    {now : Int} (h : upsert_message_to_chat_by_id_and_message_id str_ chat message_id message touch now =
      some (chat', saved)) : Upserted str_ chat message_id message touch now chat' saved := by
  simp only [upsert_message_to_chat_by_id_and_message_id, Option.bind_eq_some_iff] at h
  obtain ⟨history, hrepair, ⟨history', message'⟩, hupsert, h⟩ := h
  obtain ⟨row, hcommitted, heq⟩ := Option.map_eq_some_iff.mp h
  cases heq
  obtain ⟨hmessages, hothers⟩ := repair_spec hrepair
  obtain ⟨hsaved, hstored⟩ := upsert_history_spec hupsert
  rw [hmessages] at hsaved hstored
  rw [hothers] at hstored
  simp only [committed, Option.bind_eq_bind, Option.bind_eq_some_iff, Option.some.injEq] at hcommitted
  obtain ⟨title, htitle, current_message_id, hcurrent, rfl⟩ := hcommitted
  exact
    { stored := hsaved
      history := congrArg cleanHistory hstored
      others := sanitizeObj_idem chat.others
      title := htitle
      current_message_id := hcurrent
      user_id := rfl
      updated_at := rfl }

theorem storableKeys_set {α : Type} {d : Dict Str α} (h : StorableKeys d) {key : Str} (hkey : Storable key) (v : α) :
    StorableKeys (d.set key v) := by
  intro k hk
  rcases Dict.mem_set.mp hk with rfl | hk
  · exact hkey
  · exact h k hk

/-- The messages after a save: the one as it is stored, the others as they were, all of them sanitized. -/
theorem Upserted.get? {str_ : Val → Str} {chat chat' : Chat} {message_id : Str} {message saved : Obj} {touch : Bool}
    {now : Int} (h : Upserted str_ chat message_id message touch now chat' saved)
    (hids : StorableKeys chat.history.messages) (hid : Storable message_id) (id : Str) :
    chat'.history.messages.get? id = if id = message_id then some (sanitizeObj saved)
      else (chat.history.messages.get? id).map sanitizeObj := by
  have hkeys := storableKeys_set (storableKeys_cleanMessages chat.history.messages) hid saved
  rw [h.history]
  show (cleanMessages _).get? id = _
  rw [get?_cleanMessages hkeys, Dict.get?_set]
  split
  · rfl
  · rw [get?_cleanMessages hids, Option.map_map]
    cases chat.history.messages.get? id with
    | none => rfl
    | some message => simp [sanitizeObj_idem]

end Chats
end MaterialOpenWebui
