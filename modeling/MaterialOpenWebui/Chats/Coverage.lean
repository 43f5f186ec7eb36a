import MaterialOpenWebui.Chats.Compaction

/-!
# `Chats.Coverage` — what a request accounts for (`backend/open_webui/utils/context_compaction.py`)

A summary that is stored on a message should cover all that is above it in the tree, but for a system message at the
root, which is sent as it is (`Covered`). If the summaries of a tree do, a request drops nothing of its branch that its
summary does not cover, and the new summary covers what is above the message that it is to be stored on. There is one
exception: a system message of the request is sent in place of the one at the root.
-/

namespace MaterialOpenWebui
namespace Chats
open Py Digest Forest

/-! ## Coverage -/

section
-- whether a summary covers the message with an id
variable (covers : Str → Str → Prop)

/-- A system message at the root. -/
def RootSystem (messages : Dict Str Obj) (id : Str) : Prop :=
  linkOf messages id = none ∧ (field (messageAt messages id) kRole).eq system = true

/-- The summary covers all that is above a message. -/
def Above (messages : Dict Str Obj) (id summary : Str) : Prop :=
  ∀ a, Ancestor (linkOf messages) a id → ¬ RootSystem messages a → covers summary a

/-- Every summary that is stored covers what is above its message. -/
def Covered (messages : Dict Str Obj) : Prop :=
  ∀ id message summary, messages.get? id = some message → summaryOf message = some summary →
    Above covers messages id summary

/-- Every message carries its id. -/
structure Carried (messages : Dict Str Obj) : Prop extends Whole messages where
  carried : ∀ id message, messages.get? id = some message → field message kId = .str id
  nonempty : [] ∉ messages

/-- What the model answers is not blank, and covers what it was given. -/
structure Summarizes (generate : List Obj → List Obj → Option Str → Option Str) : Prop where
  nonblank : ∀ compacted recent previous summary, generate compacted recent previous = some summary →
    strip summary ≠ []
  compacted : ∀ compacted recent previous summary, generate compacted recent previous = some summary →
    ∀ message ∈ compacted, ∀ id, field message kId = .str id → covers summary id
  previous : ∀ compacted recent previous summary, generate compacted recent previous = some summary →
    ∀ e, previous = some e → ∀ id, covers e id → covers summary id

/-- The summary covers the message, unless that is a system message at the root. -/
def CoversMessage (messages : Dict Str Obj) (summary : Str) (message : Obj) : Prop :=
  ∀ id, field message kId = .str id → ¬ RootSystem messages id → covers summary id

end

variable {covers : Str → Str → Prop} {messages : Dict Str Obj}

theorem Summarizes.summary {generate : List Obj → List Obj → Option Str → Option Str}
    (h : Summarizes covers generate) (compacted recent : List Obj) (previous : Option Str) (summary : Str)
    (hsummary : generate compacted recent previous = some summary) :
    Summary (CoversMessage covers messages) compacted previous summary where
  nonblank := h.nonblank _ _ _ _ hsummary
  compacted := fun message hmessage id hid _ => h.compacted _ _ _ _ hsummary message hmessage id hid
  previous := fun e he _ hcovers id hid hroot => h.previous _ _ _ _ hsummary e he id (hcovers id hid hroot)

/-! ## The messages of a branch -/

section
variable {id : Str} {l : List Str}

/-- The message to be sent under an id. -/
def sent (messages : Dict Str Obj) (id : Str) : Obj := loaded (messageAt messages id)

/-- The message whose branch a request is about: the one that is continued, or that of the user. -/
def branch (messages : Dict Str Obj) (r : Request) : Str :=
  if continued messages r.assistant_message_id = [] then r.user_message_id else r.assistant_message_id

/-- A request on a branch: the message that it continues answers that of the user. -/
structure Asks (messages : Dict Str Obj) (r : Request) : Prop where
  mem : r.user_message_id ∈ messages
  continues : r.assistant_message_id ∈ messages →
    linkOf messages r.assistant_message_id = some r.user_message_id

end

end Chats
end MaterialOpenWebui
