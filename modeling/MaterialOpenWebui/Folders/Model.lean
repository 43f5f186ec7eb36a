import MaterialOpenWebui.Access.Grants
import MaterialOpenWebui.Lib.Dict
import MaterialOpenWebui.Lib.Forest
import MaterialOpenWebui.Lib.Run
import MaterialOpenWebui.Lib.Walk

/-!
# `Folders.Model` — folders of chats (`backend/open_webui/models/folders.py`, `routers/folders.py`)

A folder has an owner and may have a parent, which the update-parent endpoint takes from the request as it is. Three
recursions go along the parents without a set of what they have seen: the subtree walk, the deletion, and the search for
access that is inherited.

What an endpoint reads beside the folders (the configuration, the grants, who may attach which files or delete which chats) is
a `World`, and every request has its own. A recursion has a budget of steps, and no result where it runs out.
-/

namespace MaterialOpenWebui
namespace Folders
open Py

/-! ## The table -/

structure Folder where
  parent_id : Option Str
  user_id : Str
  name : Str
  deriving DecidableEq

/-- The folders by their ids. -/
abbrev Rows := Dict Str Folder

def parentOf (rows : Rows) (id : Str) : Option Str := (rows.get? id).bind Folder.parent_id

structure User where
  id : Str
  role : Str

structure FolderForm where
  name : Str
  parent_id : Option Str
  /-- the ids of the files, where the form has any -/
  files : Option (List Str)

structure HTTPException where
  status_code : Nat
  detail : String
  deriving DecidableEq

def ACCESS_PROHIBITED : HTTPException :=
  ⟨403, "You do not have permission to access this resource. Please contact your administrator for assistance."⟩

def NOT_FOUND : HTTPException := ⟨404, "We could not find what you're looking for :/"⟩

def FOLDER_EXISTS : HTTPException := ⟨400, "[ERROR: Folder already exists]"⟩

/-- What a request meets beside the folders. -/
structure World where
  /-- `name ILIKE pattern` -/
  ilike : Str → Str → Bool
  tables : Access.Tables
  /-- the folders feature is on, and on for the user -/
  folders_permission : User → Bool
  user_exists : Str → Bool
  can_read_all_folder_files : List Str → Str → Bool
  /-- the chats of a user in some folders -/
  count_chats : List Str → Str → Nat
  chat_delete_permission : User → Bool

/-! ## Queries -/

def get_folders_by_parent_id_and_user_id (rows : Rows) (parent_id : Option Str) (user_id : Str) : List (Str × Folder) :=
  rows.items.filter fun row => row.2.parent_id = parent_id && row.2.user_id = user_id

/-- The ids of a user's folders in a folder. -/
def childIds (rows : Rows) (user_id id : Str) : List Str :=
  (get_folders_by_parent_id_and_user_id rows (some id) user_id).map Prod.fst

def get_folder_by_parent_id_and_user_id_and_name (w : World) (rows : Rows) (parent_id : Option Str) (user_id name : Str) :
    Option (Str × Folder) :=
  (get_folders_by_parent_id_and_user_id rows parent_id user_id).find? fun row => w.ilike row.2.name name

def get_folder_by_id_and_user_id (rows : Rows) (id user_id : Str) : Option Folder :=
  (rows.get? id).filter fun folder => folder.user_id = user_id

/-- The loop takes the folder that was found last, and adds its children. -/
def get_folder_ids_by_id_and_user_id_in_subtree (rows : Rows) (id user_id : Str) : Option (List Str) :=
  match get_folder_by_id_and_user_id rows id user_id with
  | none => some []
  | some _ => Walk.walk (childIds rows user_id) (rows.size + 1) [id] [id]

/-- `has_folder_access`: the user's own folder, or a grant on it or on one above it. -/
def has_folder_access (tables : Access.Tables) (rows : Rows) (user_id permission : Str) : Nat → Str → Folder → Option Bool
  | 0, _, _ => none
  | fuel + 1, id, folder =>
      if folder.user_id = user_id then some true
      else if Access.has_access tables user_id (py "folder") id permission none then some true
      else match folder.parent_id.filter (· ≠ []) with
        | none => some false
        | some parent_id =>
            match rows.get? parent_id with
            | some parent => has_folder_access tables rows user_id permission fuel parent_id parent
            | none => some false

/-! ## Changes -/

def insert_new_folder (rows : Rows) (id user_id : Str) (form_data : FolderForm) : Rows :=
  rows.set id ⟨form_data.parent_id, user_id, form_data.name⟩

def update_folder_parent_id_by_id_and_user_id (rows : Rows) (id user_id : Str) (parent_id : Option Str) : Rows :=
  match get_folder_by_id_and_user_id rows id user_id with
  | some folder => rows.set id { folder with parent_id }
  | none => rows

/-- Every child is deleted after its own children; the ids of what was deleted are gathered. -/
def delete_children (user_id : Str) : Nat → Str → Rows × List Str → Option (Rows × List Str)
  | 0, _, _ => none
  | fuel + 1, id, (rows, folder_ids) =>
      (childIds rows user_id id).foldlM (fun s child => do
        let (rows, folder_ids) ← delete_children user_id fuel child s
        pure (rows.erase child, folder_ids ++ [child])) (rows, folder_ids)

def delete_folder_by_id_and_user_id (rows : Rows) (id user_id : Str) : Option (Rows × List Str) :=
  match get_folder_by_id_and_user_id rows id user_id with
  | none => some (rows, [])
  | some _ => (delete_children user_id (rows.size + 1) id (rows, [id])).map fun s => (s.1.erase id, s.2)

/-! ## Endpoints -/

/-- What an endpoint comes back with, if it does: the folders, or an error. -/
abbrev Response := Option (Except HTTPException Rows)

/-- `POST /`. The id is the one that `uuid4` draws. -/
def create_folder (w : World) (rows : Rows) (user : User) (form_data : FolderForm) (id : Str) : Response :=
  if !w.folders_permission user then some (.error ACCESS_PROHIBITED)
  else if (get_folder_by_parent_id_and_user_id_and_name w rows form_data.parent_id user.id form_data.name).isSome then
    some (.error FOLDER_EXISTS)
  else
    let own : Response :=
      if form_data.files.any fun files => !w.can_read_all_folder_files files user.id then some (.error ACCESS_PROHIBITED)
      else some (.ok (insert_new_folder rows id user.id form_data))
    match form_data.parent_id.filter (· ≠ []) with
    | none => own
    | some parent_id =>
        match rows.get? parent_id with
        | none => own
        | some parent =>
            if parent.user_id = user.id then own
            else
              let access := if user.role = py "admin" then some true
                else has_folder_access w.tables rows user.id (py "write") (rows.size + 1) parent_id parent
              -- a folder that is made in another user's belongs to that user
              access.bind fun access =>
              if !access then some (.error ACCESS_PROHIBITED)
              else if form_data.files.isSome && !w.user_exists parent.user_id then some (.error NOT_FOUND)
              else if form_data.files.any fun files => !w.can_read_all_folder_files files parent.user_id then
                some (.error ACCESS_PROHIBITED)
              else some (.ok (insert_new_folder rows id parent.user_id form_data))

/-- `POST /{id}/update/parent`. -/
def update_folder_parent_id_by_id (w : World) (rows : Rows) (user : User) (id : Str) (parent_id : Option Str) : Response :=
  if !w.folders_permission user then some (.error ACCESS_PROHIBITED)
  else match get_folder_by_id_and_user_id rows id user.id with
    | none => some (.error NOT_FOUND)
    | some folder =>
        if (get_folder_by_parent_id_and_user_id_and_name w rows parent_id user.id folder.name).isSome then
          some (.error FOLDER_EXISTS)
        else some (.ok (update_folder_parent_id_by_id_and_user_id rows id user.id parent_id))

/-- `DELETE /{id}`. -/
def delete_folder_by_id (w : World) (rows : Rows) (user : User) (id : Str) : Response :=
  if !w.folders_permission user then some (.error ACCESS_PROHIBITED)
  else match rows.get? id with
    | none => some (.error NOT_FOUND)
    | some folder =>
        if folder.user_id ≠ user.id ∧ user.role ≠ py "admin" then some (.error ACCESS_PROHIBITED)
        else do
          let folder_ids ← get_folder_ids_by_id_and_user_id_in_subtree rows id folder.user_id
          if w.count_chats folder_ids folder.user_id ≠ 0 && user.role ≠ py "admin" && !w.chat_delete_permission user then
            some (.error ACCESS_PROHIBITED)
          else do
            let s ← delete_folder_by_id_and_user_id rows id folder.user_id
            some (.ok s.1)

/-- `GET /`, which takes a folder out of a parent that is not among the user's folders. -/
def get_folders (w : World) (rows : Rows) (user : User) : Response :=
  if !w.folders_permission user then some (.error ACCESS_PROHIBITED)
  else
    let folder_ids := (rows.items.filter fun row => row.2.user_id = user.id).map Prod.fst
    some (.ok (rows.map fun _ folder =>
      if folder.user_id = user.id ∧ (folder.parent_id.filter fun p => p ≠ [] ∧ p ∉ folder_ids).isSome then
        { folder with parent_id := none }
      else folder))

/-! ## The system -/

inductive Request where
  | create (user : User) (form_data : FolderForm) (id : Str)
  | update_parent (user : User) (id : Str) (parent_id : Option Str)
  | delete (user : User) (id : Str)
  | list (user : User)

structure Action where
  world : World
  request : Request

/-- No folder has the id, no folder names it as its parent, and the form does not either. -/
def Unused (rows : Rows) (form_data : FolderForm) (id : Str) : Prop :=
  id ∉ rows ∧ (∀ row ∈ rows.items, row.2.parent_id ≠ some id) ∧ form_data.parent_id ≠ some id

instance (rows : Rows) (form_data : FolderForm) (id : Str) : Decidable (Unused rows form_data id) :=
  inferInstanceAs (Decidable (_ ∧ _ ∧ _))

/-- `uuid4` draws no id that is in use. -/
def respond (rows : Rows) (a : Action) : Response :=
  match a.request with
  | .create user form_data id => if Unused rows form_data id then create_folder a.world rows user form_data id else none
  | .update_parent user id parent_id => update_folder_parent_id_by_id a.world rows user id parent_id
  | .delete user id => delete_folder_by_id a.world rows user id
  | .list user => get_folders a.world rows user

/-- A request that fails, or does not come back, leaves the folders as they are. -/
def step (rows : Rows) (a : Action) : Rows :=
  match respond rows a with
  | some (.ok rows') => rows'
  | _ => rows

end Folders
end MaterialOpenWebui
