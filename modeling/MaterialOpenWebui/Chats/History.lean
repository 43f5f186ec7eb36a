import MaterialOpenWebui.Py.Value
import Mathlib.Data.List.Infix

/-!
# `Chats.History` — the message tree of a chat (`backend/open_webui/models/chats.py`)

The history of a chat is a dictionary of messages and the id of the current one. Each message stores the id of
its parent and the list of the ids of its children, so every link is stored twice; three operations write
them. A message is a dictionary whose values may be any JSON: where Python would raise, because a value is not
iterable or not hashable, the operation is `none`, and its callers store nothing.

A chat whose `history` is no dictionary of dictionaries is left out; the operations raise on it.
-/

namespace MaterialOpenWebui
namespace Chats
open Py

/-! ## Data -/

def kId : Str := py "id"
def kParentId : Str := py "parentId"
def kChildrenIds : Str := py "childrenIds"
def kRole : Str := py "role"
def kOutput : Str := py "output"
def kTimestamp : Str := py "timestamp"

/-- `message.get(key)`. -/
def field (message : Obj) (key : Str) : Val := (message.get? key).getD .none

theorem field_eq {message : Obj} {key : Str} {v : Val} (h : message.get? key = some v) : field message key = v := by
  rw [field, h, Option.getD_some]

theorem field_set (message : Obj) (key : Str) (v : Val) (key' : Str) :
    field (message.set key v) key' = if key' = key then v else field message key' := by
  rw [field, field, Dict.get?_set]
  split <;> rfl

structure History where
  messages : Dict Str Obj
  /-- `None` if it is not there. -/
  currentId : Val
  /-- The other keys of the dictionary. -/
  others : Obj

def History.empty : History := ⟨.empty, .none, .empty⟩

/-! ## Python's ways with any value -/

/-- `for x in v`. -/
def iterate : Val → Option (List Val)
  | .list vs => some vs
  | .str s => some (s.map fun c => .str [c])
  | .dict items => some (items.map fun p => .str p.1)
  | _ => none

/-- `s in v`. -/
def contains (v : Val) (s : Str) : Option Bool :=
  match v with
  | .list vs => some (vs.any fun w => w.eq (.str s))
  | .str t => some (decide (s <:+: t))
  | .dict items => some (decide (s ∈ items.map Prod.fst))
  | _ => none

/-- `d.get(v)`: lists and dictionaries are no keys. -/
def find? {α : Type} (d : Dict Str α) : Val → Option (Option α)
  | .str s => some (d.get? s)
  | .list _ => none
  | .dict _ => none
  | _ => some none

/-! ## `upsert_message_to_history` -/

/-- The first message that lists the id among its children. -/
def listedBy (message_id : Str) : List (Str × Obj) → Option Val
  | [] => some .none
  | (existing_id, existing) :: items => do
    if ← contains ((existing.get? kChildrenIds).getD (.list [])) message_id then some (.str existing_id)
    else listedBy message_id items

/-- The first role that an item of the output names. -/
def outputRole (items : List Val) : Val :=
  ((items.find? fun item => item.isDict && (item.get kRole).truthy).map (·.get kRole)).getD .none

/-- The role of a new message, by what it says itself, or else by turns. -/
def newRole (message : Obj) (parent : Option Obj) (output : List Val) : Val :=
  let role := (field message kRole).or (outputRole output)
  if role.truthy then role
  else
    match parent with
    | some p =>
      if (field p kRole).eq (.str (py "user")) then .str (py "assistant")
      else if (field p kRole).eq (.str (py "assistant")) then .str (py "user")
      else .str (py "assistant")
    | none => .str (py "assistant")

/-- The parent that a new message names, or else that lists it. -/
def newParentId (messages : Dict Str Obj) (message_id : Str) (message : Obj) : Option Val :=
  if (field message kParentId).isNone then listedBy message_id messages.items
  else some (field message kParentId)

/-- `messages.get(parent_id) if parent_id else None`. -/
def parentMessage (messages : Dict Str Obj) (parent_id : Val) : Option (Option Obj) :=
  if parent_id.truthy then find? messages parent_id else some none

/-- The message as it is stored when it is new. -/
def newMessage (messages : Dict Str Obj) (message_id : Str) (message : Obj) (now : Int) : Option Obj := do
  let parent_id ← newParentId messages message_id message
  let parent ← parentMessage messages parent_id
  let output ← iterate ((field message kOutput).or (.list []))
  let children := field message kChildrenIds
  some <| ((((message.set kId ((field message kId).or (.str message_id))).set kParentId parent_id).set
    kChildrenIds (if children.isList then children else .list [])).set
    kRole (newRole message parent output)).set
    kTimestamp ((field message kTimestamp).or (.int now))

/-- The history with the message in it, and the message as it is stored. -/
def upsert_message_to_history (h : History) (message_id : Str) (message : Obj) (now : Int) :
    Option (History × Obj) := do
  let saved ← match h.messages.get? message_id with
    | some existing => some (existing.update message)
    | none => newMessage h.messages message_id message now
  some ({ h with messages := h.messages.set message_id saved, currentId := .str message_id }, saved)

/-! ## `merge_history` -/

/-- Adds the id to the children of the message it names as its parent, if that is there. -/
def adopt (merged : Dict Str Obj) (p : Str × Obj) : Option (Dict Str Obj) := do
  match field p.2 kParentId, ← find? merged (field p.2 kParentId) with
  | .str parent_id, some parent =>
    let children ← iterate (field parent kChildrenIds)
    some (merged.set parent_id (parent.set kChildrenIds (.list (children ++ [.str p.1]))))
  | _, _ => some merged

def merge_history (existing incoming : Option History) : Option History := do
  let existing := existing.getD .empty
  let incoming := incoming.getD .empty
  let merged := (existing.messages.update incoming.messages).map
    fun _ message => message.set kChildrenIds (.list [])
  let merged ← merged.items.foldlM adopt merged
  let current_id ← match ← find? merged incoming.currentId with
    | some _ => some incoming.currentId
    | none =>
      match ← find? merged existing.currentId with
      | some _ => some existing.currentId
      | none => some .none
  some ⟨merged, current_id, existing.others.update incoming.others⟩

/-! ## `delete_message_from_history` -/

/-- Those of the values that are ids of messages. -/
def present (messages : Dict Str Obj) : List Val → Option (List Str)
  | [] => some []
  | v :: vs => do
    let found ← find? messages v
    let rest ← present messages vs
    match v, found with
    | .str id, some _ => some (id :: rest)
    | _, _ => some rest

/-- `message.get('childrenIds') or []`, of which those that are messages. -/
def childIds (messages : Dict Str Obj) (message : Obj) : Option (List Str) := do
  present messages (← iterate ((field message kChildrenIds).or (.list [])))

/-- `messages[id][key] = v`. -/
def assign (messages : Dict Str Obj) (id key : Str) (v : Val) : Dict Str Obj :=
  match messages.get? id with
  | some message => messages.set id (message.set key v)
  | none => messages

/-- `v[-1]`. -/
def lastOf : Val → Option Val
  | .list vs => vs.getLast?
  | .str s => s.getLast?.map fun c => .str [c]
  | _ => none

/-- Follows the last child of the last child. Where it meets a message twice, it would not end. -/
def descend (messages : Dict Str Obj) : Nat → Val → Val → Option Val
  | 0, _, _ => none
  | fuel + 1, current_id, child_ids =>
    if child_ids.truthy then do
      let current_id ← lastOf child_ids
      let children := match ← find? messages current_id with
        | some message => (message.get? kChildrenIds).getD (.list [])
        | none => .list []
      descend messages fuel current_id children
    else some current_id

/-- The parent lists the grandchildren in place of the message. -/
def relist (messages : Dict Str Obj) (message_id : Str) (parent_id : Val) (grandchild_ids : List Str) :
    Option (Dict Str Obj) := do
  match parent_id, ← find? messages parent_id with
  | .str id, some parent =>
    let siblings ← iterate ((field parent kChildrenIds).or (.list []))
    some (messages.set id (parent.set kChildrenIds
      (.list (siblings.filter (fun v => !v.eq (.str message_id)) ++ grandchild_ids.map .str))))
  | _, _ => some messages

/-- The messages without the one, its children taken out with it and theirs moved up to its parent. -/
def splice (messages : Dict Str Obj) (message_id : Str) (message : Obj) (child_ids grandchild_ids : List Str) :
    Option (Dict Str Obj) :=
  let parent_id := field message kParentId
  (relist messages message_id parent_id grandchild_ids).map fun messages =>
    let messages := grandchild_ids.foldl (fun messages id => assign messages id kParentId parent_id) messages
    (message_id :: child_ids).foldl Dict.erase messages

/-- The messages that `current_id` starts from in the search for a new current message: the roots, or the
    children of the deleted message's parent. -/
def startingChildren (messages : Dict Str Obj) (current_id : Val) : Option Val :=
  if current_id.isNone then
    some (.list ((messages.items.filter fun p => (field p.2 kParentId).isNone).map fun p => .str p.1))
  else (find? messages current_id).map fun found =>
    match found with
    | some message => (message.get? kChildrenIds).getD (.list [])
    | none => .list []

/-- The history without the message, and the ids of what was deleted. -/
def delete_message_from_history (h : History) (message_id : Str) : Option (History × List Str) :=
  match h.messages.get? message_id with
  | none => some (h, [])
  | some message => do
    let child_ids ← childIds h.messages message
    let grandchild_ids ← child_ids.mapM fun id => childIds h.messages ((h.messages.get? id).getD .empty)
    let messages ← splice h.messages message_id message child_ids grandchild_ids.flatten
    let parent_id := field message kParentId
    let current_id ← descend messages (messages.size + 2) parent_id (← startingChildren messages parent_id)
    let found ← find? messages current_id
    some ({ h with messages, currentId := if found.isSome then current_id else .none },
      message_id :: child_ids)

/-! ## How the callers link a new message (`backend/open_webui/main.py`) -/

/-- Adds the ids to the children of the message, if it is there. -/
def linkChildren (h : History) (message_id : Str) (ids : List Str) (now : Int) : Option History :=
  match h.messages.get? message_id with
  | none => some h
  | some message =>
    match (message.get? kChildrenIds).getD (.list []) with
    | .list child_ids =>
      let child_ids := ids.foldl (fun (vs : List Val) id =>
        if vs.any (·.eq (.str id)) then vs else vs ++ [.str id]) child_ids
      (upsert_message_to_history h message_id (Dict.empty.set kChildrenIds (.list child_ids)) now).map Prod.fst
    | _ => none

/-- A user message is saved, and then linked from its parent. -/
def saveUserMessage (h : History) (id : Str) (message : Obj) (now : Int) : Option History :=
  if id = [] then some h
  else do
    let (h, _) ← upsert_message_to_history h id message now
    match field message kParentId with
    | .str parent_id => if parent_id = [] then some h else linkChildren h parent_id [id] now
    | _ => some h

/-- The replies to a user message are linked from it, and then saved. -/
def saveReplies (h : History) (user_message_id : Str) (replies : List (Str × Obj)) (now : Int) :
    Option History :=
  let replies := replies.filter fun p => p.1 ≠ []
  let linked := if user_message_id = [] ∨ replies = [] then some h
    else linkChildren h user_message_id (replies.map Prod.fst) now
  linked.bind fun h => replies.foldlM (fun h p => (upsert_message_to_history h p.1 p.2 now).map Prod.fst) h

end Chats
end MaterialOpenWebui
