import MaterialOpenWebui.Folders.Model

/-!
# `Folders.Forest` — when the folders are a forest, and what ends then

What a request does to the parents is one of three things (`Change`): it takes some away, it hangs a new leaf on the forest,
or it moves a folder. The first two leave a forest; a move does if the new parent is neither the folder nor below it, which
the update-parent endpoint does not ask. In a forest the subtree walk, the deletion and the search for inherited access come
to an end, within as many steps as there are folders.
-/

namespace MaterialOpenWebui
namespace Folders
open Py
open Forest (IsParent Ancestor Rooted)

/-! ## Below and above -/

theorem mem_childIds {rows : Rows} {user_id id child : Str} :
    child ∈ childIds rows user_id id ↔ ∃ folder, rows.get? child = some folder ∧ folder.parent_id = some id ∧
      folder.user_id = user_id := by
  simp only [childIds, get_folders_by_parent_id_and_user_id, List.mem_map, List.mem_filter, Bool.and_eq_true,
    decide_eq_true_eq]
  constructor
  · rintro ⟨⟨_, folder⟩, ⟨hmem, hparent, huser⟩, rfl⟩
    exact ⟨folder, Dict.get?_eq_some_iff.mpr hmem, hparent, huser⟩
  · rintro ⟨folder, hget, hparent, huser⟩
    exact ⟨(child, folder), ⟨Dict.get?_eq_some_iff.mp hget, hparent, huser⟩, rfl⟩

theorem parentOf_of_mem_childIds {rows : Rows} {user_id id child : Str} (h : child ∈ childIds rows user_id id) :
    parentOf rows child = some id := by
  obtain ⟨folder, hget, hparent, -⟩ := mem_childIds.mp h
  rw [parentOf, hget]
  exact hparent

theorem nodup_childIds (rows : Rows) (user_id id : Str) : (childIds rows user_id id).Nodup :=
  List.Nodup.sublist (List.Sublist.map _ List.filter_sublist) rows.nodup_keys

theorem childIds_subset (rows : Rows) (user_id id : Str) : childIds rows user_id id ⊆ rows.keys := by
  intro child h
  obtain ⟨folder, hget, -⟩ := mem_childIds.mp h
  exact Dict.mem_iff_mem_keys.mp (Dict.mem_of_get? hget)

theorem childIds_once {rows : Rows} {user_id : Str} (a b c : Str) (ha : c ∈ childIds rows user_id a)
    (hb : c ∈ childIds rows user_id b) : a = b :=
  Option.some.inj ((parentOf_of_mem_childIds ha).symm.trans (parentOf_of_mem_childIds hb))

theorem length_keys (rows : Rows) : rows.keys.length = rows.size := List.length_map _

theorem acyclic_childIds {rows : Rows} (h : Rooted (parentOf rows)) (user_id : Str) : Walk.Acyclic (childIds rows user_id) :=
  Walk.acyclic_down h fun _ _ hedge => parentOf_of_mem_childIds hedge

/-- The parent of a folder, if there is such a folder. -/
def upIds (rows : Rows) (id : Str) : List Str := ((parentOf rows id).filter (· ∈ rows)).toList

theorem mem_upIds {rows : Rows} {id parent : Str} :
    parent ∈ upIds rows id ↔ parentOf rows id = some parent ∧ parent ∈ rows := by
  rw [upIds, Option.mem_toList, Option.filter_eq_some_iff, decide_eq_true_eq]

theorem acyclic_upIds {rows : Rows} (h : Rooted (parentOf rows)) : Walk.Acyclic (upIds rows) :=
  Walk.acyclic_up h fun _ _ hedge => (mem_upIds.mp hedge).1

/-! ## What ends -/

/-- **The subtree walk** ends, with the folder and what is below it, each once. -/
theorem subtree_ends {rows : Rows} (h : Rooted (parentOf rows)) (id user_id : Str) :
    ∃ ids, get_folder_ids_by_id_and_user_id_in_subtree rows id user_id = some ids ∧ ids.Nodup := by
  rw [get_folder_ids_by_id_and_user_id_in_subtree]
  split
  · exact ⟨[], rfl, List.nodup_nil⟩
  · rename_i folder hfolder
    have hmem : id ∈ rows.keys :=
      Dict.mem_iff_mem_keys.mp (Dict.mem_of_get? (Option.filter_eq_some_iff.mp hfolder).1)
    obtain ⟨ids, hwalk, hnodup, -⟩ := Walk.walk_spec (acyclic_childIds h user_id) (nodup_childIds rows user_id)
      childIds_once (childIds_subset rows user_id) hmem
    rw [length_keys] at hwalk
    exact ⟨ids, hwalk, hnodup⟩

/-- Some of the folders. -/
def Within (rows' rows : Rows) : Prop := ∀ id folder, rows'.get? id = some folder → rows.get? id = some folder

theorem Within.erase {rows' rows : Rows} (h : Within rows' rows) (id : Str) : Within (rows'.erase id) rows := by
  intro id' folder hget
  rw [Dict.get?_erase] at hget
  split at hget
  · cases hget
  · exact h id' folder hget

theorem Within.childIds_subset {rows' rows : Rows} (h : Within rows' rows) (user_id id : Str) :
    childIds rows' user_id id ⊆ childIds rows user_id id := by
  intro child hchild
  obtain ⟨folder, hget, hparent⟩ := mem_childIds.mp hchild
  exact mem_childIds.mpr ⟨folder, h child folder hget, hparent⟩

/-- The recursion over what is below a folder, while folders go. -/
theorem delete_children_ends (user_id : Str) {fuel : Nat} {id : Str} {rows : Rows}
    (hdeep : Walk.Deep (childIds rows user_id) fuel id) (folder_ids : List Str) :
    ∃ rows' folder_ids', delete_children user_id fuel id (rows, folder_ids) = some (rows', folder_ids') ∧
      Within rows' rows := by
  induction fuel generalizing id rows folder_ids with
  | zero => exact False.elim hdeep
  | succ fuel ih =>
    rw [delete_children]
    -- the loop over the children, each with what the earlier ones left
    suffices hloop : ∀ (children : List Str) (now : Rows) (ids : List Str), Within now rows →
        (∀ child ∈ children, child ∈ childIds rows user_id id) →
        ∃ rows' ids', children.foldlM (fun s child => (delete_children user_id fuel child s).bind fun left =>
          some (left.1.erase child, left.2 ++ [child])) (now, ids) = some (rows', ids') ∧ Within rows' rows from
      hloop _ rows folder_ids (fun _ _ hget => hget) (fun _ hchild => hchild)
    intro children
    induction children with
    | nil => exact fun now ids hnow _ => ⟨now, ids, rfl, hnow⟩
    | cons child children ihchildren =>
      intro now ids hnow hchildren
      have hchild : Walk.Deep (childIds rows user_id) fuel child := hdeep child (hchildren child List.mem_cons_self)
      obtain ⟨now', ids', hdelete, hwithin⟩ := ih (hchild.mono (hnow.childIds_subset user_id)) ids
      have hwithin' : Within now' rows := fun k folder hget => hnow k folder (hwithin k folder hget)
      rw [List.foldlM_cons, hdelete]
      exact ihchildren _ _ (hwithin'.erase child) fun c hc => hchildren c (List.mem_cons_of_mem _ hc)

/-- **The deletion** ends, and leaves some of the folders. -/
theorem delete_ends {rows : Rows} (h : Rooted (parentOf rows)) (id user_id : Str) :
    ∃ rows' ids, delete_folder_by_id_and_user_id rows id user_id = some (rows', ids) ∧ Within rows' rows := by
  rw [delete_folder_by_id_and_user_id]
  split
  · exact ⟨rows, [], rfl, fun _ _ hget => hget⟩
  · have hdeep := Walk.deep_of_acyclic (acyclic_childIds h user_id) (childIds_subset rows user_id) id
    rw [length_keys] at hdeep
    obtain ⟨rows', ids, hdelete, hwithin⟩ := delete_children_ends user_id hdeep [id]
    exact ⟨rows'.erase id, ids, by rw [hdelete]; rfl, hwithin.erase id⟩

theorem has_folder_access_ends (tables : Access.Tables) {rows : Rows} (user_id permission : Str) {fuel : Nat} {id : Str}
    {folder : Folder} (hdeep : Walk.Deep (upIds rows) fuel id) (hget : rows.get? id = some folder) :
    ∃ access, has_folder_access tables rows user_id permission fuel id folder = some access := by
  induction fuel generalizing id folder with
  | zero => exact False.elim hdeep
  | succ fuel ih =>
    rw [has_folder_access]
    split
    · exact ⟨true, rfl⟩
    split
    · exact ⟨true, rfl⟩
    split
    · exact ⟨false, rfl⟩
    · rename_i parent_id hparent
      split
      · rename_i parent hgetp
        refine ih (hdeep parent_id (mem_upIds.mpr ⟨?_, Dict.mem_of_get? hgetp⟩)) hgetp
        rw [parentOf, hget]
        exact (Option.filter_eq_some_iff.mp hparent).1
      · exact ⟨false, rfl⟩

/-- **The search for inherited access** ends, from every folder. -/
theorem access_ends {rows : Rows} (h : Rooted (parentOf rows)) (tables : Access.Tables) (user_id permission : Str) {id : Str}
    {folder : Folder} (hget : rows.get? id = some folder) :
    ∃ access, has_folder_access tables rows user_id permission (rows.size + 1) id folder = some access := by
  have hdeep : Walk.Deep (upIds rows) (rows.keys.length + 1) id := Walk.deep_of_acyclic (acyclic_upIds h)
    (fun _ _ hmem => Dict.mem_iff_mem_keys.mp (mem_upIds.mp hmem).2) id
  rw [length_keys] at hdeep
  exact has_folder_access_ends tables user_id permission hdeep hget

/-! ## Changes -/

theorem parentOf_set (rows : Rows) (id : Str) (folder : Folder) (c : Str) :
    parentOf (rows.set id folder) c = if c = id then folder.parent_id else parentOf rows c := by
  rw [parentOf, Dict.get?_set]
  split
  · rfl
  · rfl

/-- A move that the endpoint makes. -/
def Accepted (w : World) (rows : Rows) (user : User) (id : Str) (parent_id : Option Str) : Prop :=
  w.folders_permission user = true ∧ ∃ folder, get_folder_by_id_and_user_id rows id user.id = some folder ∧
    get_folder_by_parent_id_and_user_id_and_name w rows parent_id user.id folder.name = none

/-- What a request does to the parents. -/
inductive Change (rows : Rows) (a : Action) : Rows → Prop
  /-- no parent is new -/
  | fewer {rows' : Rows} (h : ∀ c p, parentOf rows' c = some p → parentOf rows c = some p) : Change rows a rows'
  /-- a folder is new, and nobody's parent -/
  | leaf {form_data : FolderForm} {id user_id : Str} (hunused : Unused rows form_data id) :
      Change rows a (insert_new_folder rows id user_id form_data)
  /-- a folder is moved -/
  | moved {user : User} {id : Str} {parent_id : Option Str} {folder : Folder}
      (hrequest : a.request = .update_parent user id parent_id) (haccepted : Accepted a.world rows user id parent_id) :
      Change rows a (rows.set id { folder with parent_id })

theorem Change.refl (rows : Rows) (a : Action) : Change rows a rows := .fewer fun _ _ h => h

theorem create_change {w : World} {rows rows' : Rows} {user : User} {form_data : FolderForm} {id : Str}
    (h : create_folder w rows user form_data id = some (.ok rows')) :
    ∃ user_id, rows' = insert_new_folder rows id user_id form_data := by
  have hown : ∀ {r}, (if form_data.files.any (fun files => !w.can_read_all_folder_files files user.id) = true then
      some (.error ACCESS_PROHIBITED) else some (.ok (insert_new_folder rows id user.id form_data)) : Response) =
        some (.ok r) →
      ∃ user_id, r = insert_new_folder rows id user_id form_data := by
    intro r hr
    split at hr
    · cases hr
    · cases hr
      exact ⟨user.id, rfl⟩
  rw [create_folder] at h
  split at h
  · cases h
  split at h
  · cases h
  dsimp only at h
  split at h
  · exact hown h
  split at h
  · exact hown h
  · rename_i parent _
    split at h
    · exact hown h
    · obtain ⟨access, -, h⟩ := Option.bind_eq_some_iff.mp h
      split at h
      · cases h
      split at h
      · cases h
      split at h
      · cases h
      · cases h
        exact ⟨parent.user_id, rfl⟩

theorem delete_change {w : World} {rows rows' : Rows} (hrooted : Rooted (parentOf rows)) {user : User} {id : Str}
    (h : delete_folder_by_id w rows user id = some (.ok rows')) : Within rows' rows := by
  rw [delete_folder_by_id] at h
  split at h
  · cases h
  split at h
  · cases h
  rename_i folder _
  split at h
  · cases h
  obtain ⟨folder_ids, -, h⟩ := Option.bind_eq_some_iff.mp h
  split at h
  · cases h
  obtain ⟨s, hs, h⟩ := Option.bind_eq_some_iff.mp h
  cases h
  obtain ⟨left, ids, hdelete, hwithin⟩ := delete_ends hrooted id folder.user_id
  rw [hdelete] at hs
  cases hs
  exact hwithin

theorem Within.parentOf {rows' rows : Rows} (h : Within rows' rows) {c p : Str} (hp : Folders.parentOf rows' c = some p) :
    Folders.parentOf rows c = some p := by
  obtain ⟨folder, hget, hparent⟩ := Option.bind_eq_some_iff.mp hp
  rw [Folders.parentOf, h c folder hget]
  exact hparent

/-- **What a request can do.** -/
theorem step_change {rows : Rows} (hrooted : Rooted (parentOf rows)) (a : Action) : Change rows a (step rows a) := by
  rw [step]
  split
  · rename_i rows' hresponse
    rw [respond] at hresponse
    split at hresponse
    · split at hresponse
      · rename_i hunused
        obtain ⟨user_id, rfl⟩ := create_change hresponse
        exact .leaf hunused
      · cases hresponse
    · rename_i user id parent_id hrequest
      rw [update_folder_parent_id_by_id] at hresponse
      split at hresponse
      · cases hresponse
      split at hresponse
      · cases hresponse
      split at hresponse
      · cases hresponse
      rename_i hpermission _ folder hfolder hname
      cases hresponse
      rw [update_folder_parent_id_by_id_and_user_id, hfolder]
      refine .moved hrequest ⟨by simpa using hpermission, folder, hfolder, ?_⟩
      exact Option.not_isSome_iff_eq_none.mp hname
    · exact .fewer fun c p hp => (delete_change hrooted hresponse).parentOf hp
    · -- a listing repairs folders whose parent is gone: they lose it
      rename_i user _
      rw [get_folders] at hresponse
      split at hresponse
      · cases hresponse
      cases hresponse
      refine .fewer fun c p hp => ?_
      obtain ⟨folder, hget, hparent⟩ := Option.bind_eq_some_iff.mp hp
      rw [Dict.get?_map] at hget
      obtain ⟨folder', hget', rfl⟩ := Option.map_eq_some_iff.mp hget
      rw [parentOf, hget']
      split at hparent
      · cases hparent
      · exact hparent
  · exact Change.refl rows a

/-! ## Runs -/

/-- A move that is made gives a parent that is neither the folder nor below it. -/
def MovesApart (rows : Rows) (a : Action) : Prop :=
  ∀ user id parent_id, a.request = .update_parent user id (some parent_id) →
    Accepted a.world rows user id (some parent_id) → parent_id ≠ id ∧ ¬Ancestor (parentOf rows) id parent_id

/-- **One request keeps the forest.** -/
theorem rooted_change {rows rows' : Rows} {a : Action} (hrooted : Rooted (parentOf rows)) (h : Change rows a rows')
    (hapart : MovesApart rows a) : Rooted (parentOf rows') := by
  cases h with
  | fewer hfewer => exact Forest.rooted_of_ancestors hrooted fun p c hp => Forest.ancestor_of_parent (hfewer c p hp)
  | @leaf form_data id user_id hunused =>
    obtain ⟨-, hunnamed, hform⟩ := hunused
    refine Forest.rooted_leaf hrooted id ?_ ?_ ?_
    · -- the id is new, so nothing hangs on it
      intro c hc
      obtain ⟨folder, hget, hparent⟩ := Option.bind_eq_some_iff.mp hc
      exact hunnamed (c, folder) (Dict.get?_eq_some_iff.mp hget) hparent
    · rw [insert_new_folder, parentOf_set, if_pos rfl]
      exact hform
    · intro c hc
      rw [insert_new_folder, parentOf_set, if_neg hc]
  | @moved user id parent_id folder hrequest haccepted =>
    refine Forest.rooted_rehang hrooted id ?_ ?_
    · intro c hc
      rw [parentOf_set, if_neg hc]
    · intro p hp
      rw [parentOf_set, if_pos rfl] at hp
      have hparent : parent_id = some p := hp
      subst hparent
      exact hapart user id p hrequest haccepted

/-- No folder is above itself, and what goes along the parents ends. -/
structure Sound (rows : Rows) : Prop where
  acyclic : ∀ id, ¬Ancestor (parentOf rows) id id
  subtree : ∀ id user_id, get_folder_ids_by_id_and_user_id_in_subtree rows id user_id ≠ none
  deletion : ∀ id user_id, delete_folder_by_id_and_user_id rows id user_id ≠ none
  access : ∀ tables user_id permission id folder, rows.get? id = some folder →
    has_folder_access tables rows user_id permission (rows.size + 1) id folder ≠ none

theorem sound_of_rooted {rows : Rows} (h : Rooted (parentOf rows)) : Sound rows where
  acyclic := h.irrefl
  subtree := by
    intro id user_id
    obtain ⟨ids, hids, -⟩ := subtree_ends h id user_id
    rw [hids]
    exact Option.some_ne_none ids
  deletion := by
    intro id user_id
    obtain ⟨rows', ids, hdelete, -⟩ := delete_ends h id user_id
    rw [hdelete]
    exact Option.some_ne_none _
  access := by
    intro tables user_id permission id folder hget
    obtain ⟨access, haccess⟩ := access_ends h tables user_id permission hget
    rw [haccess]
    exact Option.some_ne_none access

/-- **The folders stay a forest** in every run whose moves give no parent that is the folder itself or below it. -/
theorem folders_stay_forest (as : List Action) (h : Run.AllSteps MovesApart step Dict.empty as) :
    Sound (Run.run step Dict.empty as) := by
  apply sound_of_rooted
  refine Run.invariant (I := fun rows => Rooted (parentOf rows)) ?_ ?_ h
  · exact fun rows a hrooted hapart => rooted_change hrooted (step_change hrooted a) hapart
  · -- there is no parent at all
    exact ⟨fun c => ⟨c, fun p hp => nomatch hp⟩⟩

/-- A world in which every request is allowed. -/
def openWorld : World where
  ilike := fun name pattern => name = pattern
  tables := ⟨[], []⟩
  folders_permission := fun _ => true
  user_exists := fun _ => true
  can_read_all_folder_files := fun _ _ => true
  count_chats := fun _ _ => 0
  chat_delete_permission := fun _ => true

/-- Two folders, of which one is moved into the other. -/
def twoFolders : List Action :=
  let user : User := ⟨py "u", py "user"⟩
  [⟨openWorld, .create user ⟨py "a", none, none⟩ (py "1")⟩, ⟨openWorld, .create user ⟨py "b", none, none⟩ (py "2")⟩,
    ⟨openWorld, .update_parent user (py "2") (some (py "1"))⟩]

theorem folders_stay_forest_two : Sound (Run.run step Dict.empty twoFolders) := by
  refine folders_stay_forest twoFolders ⟨?_, ?_, ?_, trivial⟩
  · intro user id parent_id h
    cases h
  · intro user id parent_id h
    cases h
  · intro user id parent_id h _
    cases h
    exact ⟨by decide, Forest.not_ancestor_of_root (by decide)⟩

/-- A folder that is moved into itself. -/
theorem folder_in_itself :
    ¬∀ as : List Action, ∀ id, ¬Ancestor (parentOf (Run.run step Dict.empty as)) id id := by
  intro h
  let user : User := ⟨py "u", py "user"⟩
  refine h [⟨openWorld, .create user ⟨py "a", none, none⟩ (py "1")⟩,
    ⟨openWorld, .update_parent user (py "1") (some (py "1"))⟩] (py "1") (Forest.ancestor_of_parent ?_)
  decide

end Folders
end MaterialOpenWebui
