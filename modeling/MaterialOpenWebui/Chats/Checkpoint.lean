import MaterialOpenWebui.Chats.Store

/-!
# `Chats.Checkpoint` — what writing a checkpoint changes (`backend/open_webui/utils/context_compaction.py`)

A compaction stores its summary on a message by `upsert_message_to_chat_by_id_and_message_id`, without touching
the chat. That function was written for the turns of a chat: it makes the message the current one, derives the
columns of the chat again and sanitizes all of it. So the checkpoint is metadata only where none of this shows.
-/

namespace MaterialOpenWebui
namespace Chats
open Py

/-! ## Writing -/

/-- `{'contextSummary': summary}`. -/
def summaryUpdate (summary : Str) : Obj := Dict.empty.set kContextSummary (.str summary)

section
variable (round : Rat → Rat) (parseInt : Str → Option Int) (str_ : Val → Str) (chat_id : Str)

/-- The checkpoint write: what raises before a commit leaves the store as it was, and what raises at the row of
    the message is logged. -/
def checkpoint (s : Store) (message_id summary : Str) (now : Int) : Store :=
  match upsert_message_to_chat_by_id_and_message_id str_ s.chat message_id (summaryUpdate summary) false now with
  | none => s
  | some (chat, saved) =>
    { chat
      rows := if chat.validates then
          (upsert_message round parseInt s.rows message_id chat_id s.chat.user_id saved now).getD s.rows
        else s.rows }

end

/-! ## The frame -/

/-- The title that is derived from the JSON, before its column takes it. -/
def derivedTitle (others : Obj) : Val := (others.get? kTitle).elim (.str (py "New Chat")) Val.sanitize_data_for_db

/-- The write raises before the commit: the current id cannot be repaired, the message is not found once its id is
    sanitized and cannot be made anew, or a column does not take what is derived for it. -/
def Refused (chat : Chat) (message_id summary : Str) (now : Int) : Prop :=
  _repair_chat_current_id (cleanHistory chat.history) = none ∨
  (message_id ∉ cleanMessages chat.history.messages ∧
    newMessage (cleanMessages chat.history.messages) message_id (summaryUpdate summary) now = none) ∨
  asText (derivedTitle (sanitizeObj chat.others)) = none ∨
  asText (get_current_message_id { chat.history with currentId := .str (sanitize_text_for_db message_id) }
    (sanitizeObj chat.others)) = none

section
variable {str_ : Val → Str}

variable {chat_id message_id summary : Str} {now : Int} {s : Store} {chat : Chat} {saved : Obj}

variable {round : Rat → Rat} {parseInt : Str → Option Int}

end

end Chats
end MaterialOpenWebui
