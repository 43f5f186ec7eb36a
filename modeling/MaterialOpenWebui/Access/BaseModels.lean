import MaterialOpenWebui.Access.Grants
import MaterialOpenWebui.Lib.Walk

/-!
# `Access.BaseModels` — models that are built on other models (`backend/open_webui/utils/access_control/__init__.py`)

A model may name another as its base model, which the requests to it are sent to. Nothing keeps these names from being
dangling or from going round in a circle. Who may use a model must be able to use its base model, and so on: the check walks
the chain, and stops at what it has seen.

A row whose columns do not validate is no row: `get_model_by_id` returns `None`. An empty id is no link.
-/

namespace MaterialOpenWebui
namespace Access
open Py

/-! ## Tables -/

/-- A row, as far as the checks read it. -/
structure Model where
  id : Str
  user_id : Str
  base_model_id : Option Str
  deriving DecidableEq

/-- The table: the id is the primary key. -/
structure Models where
  rows : List Model
  nodup : (rows.map Model.id).Nodup

def get_model_by_id (models : Models) (id : Str) : Option Model := models.rows.find? fun m => m.id = id

structure User where
  id : Str
  role : Str

structure HTTPException where
  status_code : Nat
  detail : Str
  deriving DecidableEq

/-! ## Checks -/

/-- The owner, or a grant. -/
def reads (t : Tables) (user_id : Str) (user_group_ids : Option (List Str)) (m : Model) : Bool :=
  user_id = m.user_id || has_access t user_id (py "model") m.id (py "read") user_group_ids

/-- `base_model_id`, which is no link if it is empty. -/
def Model.base (m : Model) : Option Str := m.base_model_id.filter fun id => id ≠ []

/-- The loop, which is at `base_model_id`. -/
def base_model_loop (t : Tables) (models : Models) (user_id : Str) (user_role : Option Str)
    (user_group_ids : Option (List Str)) : Nat → List Str → Option Str → Option Bool
  | 0, _, _ => none
  | _ + 1, _, none => some true
  | fuel + 1, seen, some base_model_id =>
      if base_model_id ∈ seen then some true
      else match get_model_by_id models base_model_id with
        | none => some (user_role = some (py "admin"))
        | some base_model_info =>
            if reads t user_id user_group_ids base_model_info then
              base_model_loop t models user_id user_role user_group_ids fuel (base_model_id :: seen) base_model_info.base
            else some false

/-- Nothing is returned where the loop does not end. -/
def has_base_model_access (t : Tables) (models : Models) (user_id : Str) (model_info : Model) (user_role : Option Str)
    (user_group_ids : Option (List Str)) : Option Bool :=
  base_model_loop t models user_id user_role user_group_ids (models.rows.length + 1) [model_info.id] model_info.base

def not_found : HTTPException := ⟨403, py "Model not found"⟩

def check_model_access (t : Tables) (models : Models) (user : User) (model_info : Option Model) (bypass_filter : Bool) :
    Option (Except HTTPException Unit) :=
  if bypass_filter then some (.ok ())
  else match model_info with
    | some model_info =>
        if user.role ≠ py "admin" then
          let user_group_ids := get_groups_by_member_id t user.id
          if reads t user.id (some user_group_ids) model_info then
            (has_base_model_access t models user.id model_info (some user.role) (some user_group_ids)).map fun allowed =>
              if allowed then .ok () else .error not_found
          else some (.error not_found)
        else some (.ok ())
    | none => if user.role ≠ py "admin" then some (.error not_found) else some (.ok ())

/-! ## The relation -/

/-- The link of a chain. -/
def base (models : Models) (id : Str) : Option Str := (get_model_by_id models id).bind Model.base

/-- The id is that of a model that the user owns or has a grant for. -/
def usable (t : Tables) (models : Models) (user_id : Str) (user_group_ids : Option (List Str)) (id : Str) : Bool :=
  (get_model_by_id models id).any (reads t user_id user_group_ids)

theorem get_model_by_id_eq_some_iff {models : Models} {id : Str} {m : Model} :
    get_model_by_id models id = some m ↔ m ∈ models.rows ∧ m.id = id := by
  rw [get_model_by_id]
  constructor
  · intro h
    exact ⟨List.mem_of_find?_eq_some h, of_decide_eq_true (List.find?_some h :)⟩
  · rintro ⟨hmem, rfl⟩
    have hsome : (models.rows.find? fun n => decide (n.id = m.id)).isSome = true :=
      List.find?_isSome.mpr ⟨m, hmem, decide_eq_true rfl⟩
    obtain ⟨n, hn⟩ := Option.isSome_iff_exists.mp hsome
    have hid : n.id = m.id := of_decide_eq_true (List.find?_some hn :)
    rw [hn, List.inj_on_of_nodup_map models.nodup (List.mem_of_find?_eq_some hn) hmem hid]

/-- The loop is a walk along the links, if the user is no admin. -/
theorem base_model_loop_eq (t : Tables) (models : Models) (user_id : Str) {user_role : Option Str}
    (hrole : user_role ≠ some (py "admin")) (user_group_ids : Option (List Str)) (fuel : Nat) (seen : List Str)
    (current : Option Str) :
    base_model_loop t models user_id user_role user_group_ids fuel seen current =
      Walk.follow (base models) (usable t models user_id user_group_ids) fuel seen current := by
  induction fuel generalizing seen current with
  | zero => rfl
  | succ fuel ih =>
    cases current with
    | none => rfl
    | some id =>
      rw [base_model_loop, Walk.follow, usable, base]
      by_cases hseen : id ∈ seen
      · rw [if_pos hseen, if_pos hseen]
      · rw [if_neg hseen, if_neg hseen]
        cases get_model_by_id models id with
        | none => exact congrArg some (decide_eq_false hrole)
        | some m => exact if_congr Iff.rfl (ih _ _) rfl

theorem usable_iff {t : Tables} {models : Models} {user_id : Str} {user_group_ids : Option (List Str)} {id : Str} :
    usable t models user_id user_group_ids id = true ↔
      ∃ m, get_model_by_id models id = some m ∧ reads t user_id user_group_ids m = true := by
  rw [usable]
  cases get_model_by_id models id with
  | none => exact iff_of_false Bool.false_ne_true nofun
  | some m => exact ⟨fun h => ⟨m, rfl, h⟩, fun ⟨_, heq, h⟩ => Option.some.inj heq ▸ h⟩

/-- **The loop ends**, and says whether every model below is one that the user can use. -/
theorem has_base_model_access_spec (t : Tables) (models : Models) (user_id : Str) {user_role : Option Str}
    (hrole : user_role ≠ some (py "admin")) (user_group_ids : Option (List Str)) {m : Model} (hm : m ∈ models.rows) :
    ∃ b, has_base_model_access t models user_id m user_role user_group_ids = some b ∧
      (b = true ↔ ∀ id, Walk.Reaches (base models) m.id id → id = m.id ∨
        usable t models user_id user_group_ids id = true) := by
  have hnodes : ∀ id, usable t models user_id user_group_ids id = true → id ∈ models.rows.map Model.id := by
    intro id h
    obtain ⟨n, hn, -⟩ := usable_iff.mp h
    obtain ⟨hmem, rfl⟩ := get_model_by_id_eq_some_iff.mp hn
    exact List.mem_map_of_mem hmem
  have hbase : base models m.id = m.base := by rw [base, get_model_by_id_eq_some_iff.mpr ⟨hm, rfl⟩, Option.bind_some]
  obtain ⟨b, hb, hiff⟩ := @Walk.follow_iff _ (base models) _ _ _ hnodes m.id
  refine ⟨b, ?_, hiff⟩
  rw [has_base_model_access, base_model_loop_eq t models user_id hrole, ← hbase, ← hb, List.length_map]

/-- **What the check decides**, for a user who is no admin: every model of the chain is one that the user can use. -/
theorem check_model_access_iff (t : Tables) (models : Models) {user : User} (huser : user.role ≠ py "admin") {m : Model}
    (hm : m ∈ models.rows) :
    check_model_access t models user (some m) false = some (.ok ()) ↔
      ∀ id, Walk.Reaches (base models) m.id id →
        usable t models user.id (some (get_groups_by_member_id t user.id)) id = true := by
  have hself : usable t models user.id (some (get_groups_by_member_id t user.id)) m.id = true ↔
      reads t user.id (some (get_groups_by_member_id t user.id)) m = true := by
    rw [usable_iff, get_model_by_id_eq_some_iff.mpr ⟨hm, rfl⟩]
    exact ⟨fun ⟨_, heq, h⟩ => Option.some.inj heq ▸ h, fun h => ⟨m, rfl, h⟩⟩
  have hrole : some user.role ≠ some (py "admin") := fun h => huser (Option.some.inj h)
  obtain ⟨b, hb, hiff⟩ := has_base_model_access_spec t models user.id hrole (some (get_groups_by_member_id t user.id)) hm
  rw [check_model_access, if_neg Bool.false_ne_true]
  show (if user.role ≠ py "admin" then _ else _) = _ ↔ _
  rw [if_pos huser]
  show (if reads t user.id (some (get_groups_by_member_id t user.id)) m = true then _ else _) = _ ↔ _
  split
  · rename_i hreads
    rw [hb]
    cases b with
    | true =>
      refine iff_of_true rfl fun id hid => ?_
      rcases hiff.mp rfl id hid with rfl | h
      · exact hself.mpr hreads
      · exact h
    | false =>
      refine iff_of_false nofun fun hall => ?_
      exact Bool.false_ne_true (hiff.mpr fun id hid => Or.inr (hall id hid))
  · rename_i hreads
    exact iff_of_false nofun fun hall => hreads (hself.mp (hall m.id .refl))

/-! ## Chains -/

/-- **A chain of base models cannot be used to reach more**: the check of a chain ends, and if it passes for a model, then for
every model that its base models lead to. -/
theorem base_models_pass (t : Tables) (models : Models) (user : User) (huser : user.role ≠ py "admin") :
    (∀ m ∈ models.rows, ∀ user_group_ids,
      has_base_model_access t models user.id m (some user.role) user_group_ids ≠ none) ∧
    ∀ m ∈ models.rows, check_model_access t models user (some m) false = some (.ok ()) →
      ∀ id, Walk.Reaches (base models) m.id id →
        ∃ n, get_model_by_id models id = some n ∧ check_model_access t models user (some n) false = some (.ok ()) := by
  constructor
  · intro m hm user_group_ids
    have hrole : some user.role ≠ some (py "admin") := fun h => huser (Option.some.inj h)
    obtain ⟨b, hb, -⟩ := has_base_model_access_spec t models user.id hrole user_group_ids hm
    rw [hb]
    exact Option.some_ne_none b
  · intro m hm hpass id hid
    have hall := (check_model_access_iff t models huser hm).mp hpass
    obtain ⟨n, hn, -⟩ := usable_iff.mp (hall id hid)
    refine ⟨n, hn, ?_⟩
    obtain ⟨hmem, rfl⟩ := get_model_by_id_eq_some_iff.mp hn
    exact (check_model_access_iff t models huser hmem).mpr fun id' hid' => hall id' (hid.trans hid')

/-- Two models that are each other's base. -/
def circle : Models where
  rows := [⟨py "a", py "u", some (py "b")⟩, ⟨py "b", py "u", some (py "a")⟩]
  nodup := by decide

theorem base_models_pass_circle :
    check_model_access ⟨[], []⟩ circle ⟨py "u", py "user"⟩ (some ⟨py "b", py "u", some (py "a")⟩) false = some (.ok ()) := by
  obtain ⟨n, hn, hpass⟩ := (base_models_pass ⟨[], []⟩ circle ⟨py "u", py "user"⟩ (by decide)).2
    ⟨py "a", py "u", some (py "b")⟩ (by decide) (by decide) (py "b") (.single (by decide))
  have heq : some n = some ⟨py "b", py "u", some (py "a")⟩ := hn.symm.trans (by decide)
  cases heq
  exact hpass

end Access
end MaterialOpenWebui
