import MaterialOpenWebui.Lib.Sql
import MaterialOpenWebui.Py.Text
import Mathlib.Data.List.Dedup

/-!
# `Access.Grants` — who may read or write a resource (`backend/open_webui/models/access_grants.py`)

A grant gives a principal (a user, a group, or `*` for every user) a permission on a resource. Three queries read the table:
one resource (`has_access`), many resources (`get_accessible_resource_ids`), and the rows of another table that a user may
see (`has_permission_filter`), which are the user's own too.

The groups of a user are read from the tables where the caller gives none. A document stands for a row of any table with an
id and an owner; the owner may be NULL.
-/

namespace MaterialOpenWebui
namespace Access
open Py
open Sql (Truth)

/-! ## Tables -/

structure AccessGrant where
  id : Str
  resource_type : Str
  resource_id : Str
  principal_type : Str
  principal_id : Str
  permission : Str
  deriving DecidableEq

/-- A row of the join of `group` and `group_member`. -/
structure GroupMember where
  group_id : Str
  user_id : Str
  deriving DecidableEq

/-- A row of the table that is filtered, and what else is in it. -/
structure Document where
  id : Str
  user_id : Option Str
  deriving DecidableEq

structure Tables where
  grants : List AccessGrant
  members : List GroupMember

/-- The keys of `filter` that are read here. -/
structure Filter where
  group_ids : Option (List Str)
  user_id : Option Str

/-- `Groups.get_groups_by_member_id`, of which the ids are used. -/
def get_groups_by_member_id (t : Tables) (user_id : Str) : List Str :=
  (Sql.select t.members fun m => Sql.eq m.user_id user_id).map GroupMember.group_id

/-! ## Principals -/

def public_condition (g : AccessGrant) : Truth :=
  .all [Sql.eq g.principal_type (py "user"), Sql.eq g.principal_id (py "*")]

def user_condition (user_id : Str) (g : AccessGrant) : Truth :=
  .all [Sql.eq g.principal_type (py "user"), Sql.eq g.principal_id user_id]

def group_condition (group_ids : List Str) (g : AccessGrant) : Truth :=
  .all [Sql.eq g.principal_type (py "group"), Sql.isIn g.principal_id group_ids]

/-- `or_(*conditions)`, of which none is no condition. -/
def or_ (conditions : List Truth) : Truth := if conditions = [] then .yes else .any conditions

/-- The disjuncts of `has_access` and `get_accessible_resource_ids`. -/
def conditions (user_id : Str) (user_group_ids : List Str) (g : AccessGrant) : List Truth :=
  [public_condition g, user_condition user_id g] ++
    if user_group_ids ≠ [] then [group_condition user_group_ids g] else []

/-- The disjuncts that `filter` gives. -/
def filter_conditions (filter : Filter) (g : AccessGrant) : List Truth :=
  (match filter.user_id with
    | some user_id => if user_id ≠ [] then [user_condition user_id g] else []
    | none => []) ++
  let group_ids := filter.group_ids.getD []
  if group_ids ≠ [] then [group_condition group_ids g] else []

/-! ## Queries -/

def has_access (t : Tables) (user_id resource_type resource_id permission : Str) (user_group_ids : Option (List Str)) :
    Bool :=
  let user_group_ids := user_group_ids.getD (get_groups_by_member_id t user_id)
  (Sql.select t.grants fun g =>
    .all [Sql.eq g.resource_type resource_type, Sql.eq g.resource_id resource_id, Sql.eq g.permission permission,
      or_ (conditions user_id user_group_ids g)]).head?.isSome

def get_accessible_resource_ids (t : Tables) (user_id resource_type : Str) (resource_ids : List Str) (permission : Str)
    (user_group_ids : Option (List Str)) : List Str :=
  if resource_ids = [] then []
  else
    let user_group_ids := user_group_ids.getD (get_groups_by_member_id t user_id)
    ((Sql.select t.grants fun g =>
      .all [Sql.eq g.resource_type resource_type, Sql.isIn g.resource_id resource_ids, Sql.eq g.permission permission,
        or_ (conditions user_id user_group_ids g)]).map AccessGrant.resource_id).dedup

/-- The subqueries of the two filters. -/
def grant_exists (t : Tables) (resource_type permission : Str) (principals : AccessGrant → List Truth) (row : Document) :
    Truth :=
  Sql.exists_ t.grants fun g =>
    .all [Sql.eq g.resource_type resource_type, Sql.eq g.resource_id row.id, Sql.eq g.permission permission,
      or_ (principals g)]

def _has_read_only_permission_filter (t : Tables) (query : List Document) (filter : Filter) (resource_type : Str) :
    List Document :=
  Sql.select query fun row =>
    .all ([grant_exists t resource_type (py "read") (filter_conditions filter) row,
      (grant_exists t resource_type (py "write") (filter_conditions filter) row).not,
      (grant_exists t resource_type (py "read") (fun g => [public_condition g]) row).not] ++
      match filter.user_id with
      | some user_id => if user_id ≠ [] then [Sql.ne row.user_id user_id] else []
      | none => [])

def has_permission_filter (t : Tables) (query : List Document) (filter : Filter) (resource_type permission : Str) :
    List Document :=
  if permission = py "read_only" then _has_read_only_permission_filter t query filter resource_type
  -- `principal_conditions` is empty
  else if filter.group_ids.getD [] = [] ∧ filter.user_id.getD [] = [] then query
  else
    Sql.select query fun row =>
      or_ ([grant_exists t resource_type permission (fun g => public_condition g :: filter_conditions filter g) row] ++
        match filter.user_id with
        | some user_id => if user_id ≠ [] then [Sql.eq row.user_id user_id] else []
        | none => [])

/-! ## The relation -/

/-- The grant gives the user, whose groups are `groups`, the permission on the resource. -/
structure Applies (user_id : Str) (groups : List Str) (resource_type resource_id permission : Str) (g : AccessGrant) :
    Prop where
  resource_type_eq : g.resource_type = resource_type
  resource_id_eq : g.resource_id = resource_id
  permission_eq : g.permission = permission
  principal : g.principal_type = py "user" ∧ (g.principal_id = py "*" ∨ g.principal_id = user_id) ∨
    g.principal_type = py "group" ∧ g.principal_id ∈ groups

/-- **What a user may do**: there is a grant for it. -/
def Accessible (t : Tables) (user_id resource_type resource_id permission : Str) : Prop :=
  ∃ g ∈ t.grants, Applies user_id (get_groups_by_member_id t user_id) resource_type resource_id permission g

/-- The groups a caller gives, or leaves to be read, are the user's. -/
def GroupsOf (t : Tables) (user_id : Str) (ids : Option (List Str)) : Prop :=
  ∀ group_ids, ids = some group_ids → ∀ group, group ∈ group_ids ↔ group ∈ get_groups_by_member_id t user_id

/-- A filter for the user and the user's groups. -/
structure Filter.IsFor (t : Tables) (user_id : Str) (filter : Filter) : Prop where
  user : filter.user_id = some user_id
  groups : ∀ group, group ∈ filter.group_ids.getD [] ↔ group ∈ get_groups_by_member_id t user_id

theorem mem_getD_of_groupsOf {t : Tables} {user_id : Str} {ids : Option (List Str)} (h : GroupsOf t user_id ids)
    (group : Str) :
    group ∈ ids.getD (get_groups_by_member_id t user_id) ↔ group ∈ get_groups_by_member_id t user_id := by
  cases ids with
  | none => exact Iff.rfl
  | some group_ids => exact h group_ids rfl group

theorem kept_public (g : AccessGrant) :
    (public_condition g).kept = true ↔ g.principal_type = py "user" ∧ g.principal_id = py "*" := by
  simp [public_condition, Truth.kept_all]

theorem kept_user (user_id : Str) (g : AccessGrant) :
    (user_condition user_id g).kept = true ↔ g.principal_type = py "user" ∧ g.principal_id = user_id := by
  simp [user_condition, Truth.kept_all]

theorem kept_group (group_ids : List Str) (g : AccessGrant) :
    (group_condition group_ids g).kept = true ↔ g.principal_type = py "group" ∧ g.principal_id ∈ group_ids := by
  simp [group_condition, Truth.kept_all]

theorem kept_or_ {ts : List Truth} (h : ts ≠ []) : (or_ ts).kept = true ↔ ∃ t ∈ ts, t.kept = true := by
  rw [or_, if_neg h, Truth.kept_any, List.any_eq_true]

/-- Where there are no groups the disjunct that is left out could not have been true. -/
theorem exists_group_condition (group_ids : List Str) (g : AccessGrant) :
    (∃ t ∈ (if group_ids ≠ [] then [group_condition group_ids g] else []), t.kept = true) ↔
      g.principal_type = py "group" ∧ g.principal_id ∈ group_ids := by
  by_cases h : group_ids = []
  · subst h
    simp
  · rw [if_pos h]
    simp only [List.mem_singleton, exists_eq_left, kept_group]

theorem kept_conditions (user_id : Str) (group_ids : List Str) (g : AccessGrant) :
    (or_ (conditions user_id group_ids g)).kept = true ↔
      g.principal_type = py "user" ∧ (g.principal_id = py "*" ∨ g.principal_id = user_id) ∨
        g.principal_type = py "group" ∧ g.principal_id ∈ group_ids := by
  rw [kept_or_ (by simp [conditions]), conditions]
  simp only [List.mem_append, or_and_right, exists_or, exists_group_condition]
  simp only [List.mem_cons, List.not_mem_nil, or_false, exists_eq_or_imp, exists_eq_left, kept_public, kept_user,
    and_or_left]

theorem kept_filter_conditions {t : Tables} {user_id : Str} {filter : Filter} (huser : user_id ≠ [])
    (h : filter.IsFor t user_id) (g : AccessGrant) :
    (or_ (public_condition g :: filter_conditions filter g)).kept = true ↔
      g.principal_type = py "user" ∧ (g.principal_id = py "*" ∨ g.principal_id = user_id) ∨
        g.principal_type = py "group" ∧ g.principal_id ∈ get_groups_by_member_id t user_id := by
  rw [kept_or_ (List.cons_ne_nil _ _), filter_conditions, h.user]
  simp only [if_pos huser, List.singleton_append, List.mem_cons, exists_eq_or_imp, exists_group_condition, kept_public,
    kept_user, h.groups, and_or_left, or_assoc]

theorem has_access_iff {t : Tables} {user_id : Str} {ids : Option (List Str)} (hids : GroupsOf t user_id ids)
    (resource_type resource_id permission : Str) :
    has_access t user_id resource_type resource_id permission ids = true ↔
      Accessible t user_id resource_type resource_id permission := by
  rw [has_access, Sql.head?_select_isSome, Accessible]
  refine exists_congr fun g => and_congr_right fun _ => ?_
  rw [Truth.kept_all, List.all_eq_true]
  simp only [List.mem_cons, List.not_mem_nil, or_false, forall_eq_or_imp, forall_eq, Sql.kept_eq, kept_conditions,
    Option.some_inj, mem_getD_of_groupsOf hids]
  exact ⟨fun ⟨h₁, h₂, h₃, h₄⟩ => ⟨h₁, h₂, h₃, h₄⟩, fun h => ⟨h.1, h.2, h.3, h.4⟩⟩

theorem mem_get_accessible_resource_ids {t : Tables} {user_id : Str} {ids : Option (List Str)}
    (hids : GroupsOf t user_id ids) (resource_type permission : Str) {resource_id : Str} {resource_ids : List Str} :
    resource_id ∈ get_accessible_resource_ids t user_id resource_type resource_ids permission ids ↔
      resource_id ∈ resource_ids ∧ Accessible t user_id resource_type resource_id permission := by
  rw [get_accessible_resource_ids]
  split
  · rename_i hempty
    rw [hempty]
    simp
  · rw [List.mem_dedup, List.mem_map]
    simp only [Sql.mem_select, Truth.kept_all, List.all_eq_true, List.mem_cons, List.not_mem_nil, or_false,
      forall_eq_or_imp, forall_eq, Sql.kept_eq, Sql.kept_isIn, kept_conditions, Option.some_inj, mem_getD_of_groupsOf hids]
    constructor
    · rintro ⟨g, ⟨hg, htype, ⟨_, hrequested, rfl⟩, hpermission, hprincipal⟩, rfl⟩
      exact ⟨hrequested, g, hg, htype, rfl, hpermission, hprincipal⟩
    · rintro ⟨hrequested, g, hg, htype, hid, hpermission, hprincipal⟩
      exact ⟨g, ⟨hg, htype, ⟨resource_id, hrequested, hid⟩, hpermission, hprincipal⟩, hid⟩

theorem kept_grant_exists {t : Tables} {user_id : Str} {filter : Filter} (huser : user_id ≠ [])
    (h : filter.IsFor t user_id) (resource_type permission : Str) (row : Document) :
    (grant_exists t resource_type permission (fun g => public_condition g :: filter_conditions filter g) row).kept = true ↔
      Accessible t user_id resource_type row.id permission := by
  rw [grant_exists, Sql.kept_exists, Accessible]
  refine exists_congr fun g => and_congr_right fun _ => ?_
  rw [Truth.kept_all, List.all_eq_true]
  simp only [List.mem_cons, List.not_mem_nil, or_false, forall_eq_or_imp, forall_eq, Sql.kept_eq,
    kept_filter_conditions huser h, Option.some_inj]
  exact ⟨fun ⟨h₁, h₂, h₃, h₄⟩ => ⟨h₁, h₂, h₃, h₄⟩, fun h => ⟨h.1, h.2, h.3, h.4⟩⟩

/-- The rows of the user's own and the rows that a grant opens. -/
theorem has_permission_filter_eq {t : Tables} {user_id : Str} (huser : user_id ≠ []) (resource_type : Str)
    {permission : Str} (hpermission : permission = py "read" ∨ permission = py "write") {ids : Option (List Str)}
    (hids : GroupsOf t user_id ids) {filter : Filter} (hfilter : filter.IsFor t user_id) (query : List Document) :
    has_permission_filter t query filter resource_type permission = query.filter fun row =>
      row.user_id = some user_id || has_access t user_id resource_type row.id permission ids := by
  have hread_only : permission ≠ py "read_only" := by
    rcases hpermission with rfl | rfl <;> decide
  rw [has_permission_filter, if_neg hread_only, if_neg (fun h => huser (by simpa [hfilter.user] using h.2)), hfilter.user,
    Sql.select]
  refine List.filter_congr fun row _ => ?_
  simp only [if_pos huser, List.singleton_append]
  rw [Bool.eq_iff_iff, kept_or_ (List.cons_ne_nil _ _), Bool.or_eq_true, has_access_iff hids]
  simp only [List.mem_cons, List.not_mem_nil, or_false, exists_eq_or_imp, exists_eq_left,
    kept_grant_exists huser hfilter, Sql.kept_eq, decide_eq_true_eq]
  exact or_comm

/-- Only the grants that apply count. -/
theorem accessible_congr {t t' : Tables} (hmembers : t'.members = t.members) {user_id resource_type resource_id
    permission : Str} (h : ∀ g, Applies user_id (get_groups_by_member_id t user_id) resource_type resource_id permission g →
      (g ∈ t.grants ↔ g ∈ t'.grants)) :
    Accessible t' user_id resource_type resource_id permission ↔
      Accessible t user_id resource_type resource_id permission := by
  have hgroups : get_groups_by_member_id t' user_id = get_groups_by_member_id t user_id := by
    rw [get_groups_by_member_id, get_groups_by_member_id, hmembers]
  rw [Accessible, Accessible, hgroups]
  refine exists_congr fun g => ?_
  constructor
  · rintro ⟨hmem, happlies⟩
    exact ⟨(h g happlies).mpr hmem, happlies⟩
  · rintro ⟨hmem, happlies⟩
    exact ⟨(h g happlies).mp hmem, happlies⟩

/-- **One relation, three queries.** The check of one resource and the batch agree, the filter keeps what the user owns and
what the check admits, and for no resource does it matter which of the grants that do not apply to it are in the table. -/
theorem access_agrees (t : Tables) {user_id : Str} (huser : user_id ≠ []) (resource_type : Str) {permission : Str}
    (hpermission : permission = py "read" ∨ permission = py "write") {ids ids' : Option (List Str)}
    (hids : GroupsOf t user_id ids) (hids' : GroupsOf t user_id ids') {filter : Filter} (hfilter : filter.IsFor t user_id) :
    (∀ resource_id resource_ids, resource_id ∈ resource_ids →
      (has_access t user_id resource_type resource_id permission ids = true ↔
        resource_id ∈ get_accessible_resource_ids t user_id resource_type resource_ids permission ids')) ∧
    (∀ query, has_permission_filter t query filter resource_type permission = query.filter fun row =>
      row.user_id = some user_id || has_access t user_id resource_type row.id permission ids) ∧
    ∀ t' : Tables, t'.members = t.members → ∀ resource_id,
      (∀ g, Applies user_id (get_groups_by_member_id t user_id) resource_type resource_id permission g →
        (g ∈ t.grants ↔ g ∈ t'.grants)) →
      has_access t' user_id resource_type resource_id permission ids =
          has_access t user_id resource_type resource_id permission ids ∧
        (∀ resource_ids,
          (resource_id ∈ get_accessible_resource_ids t' user_id resource_type resource_ids permission ids' ↔
            resource_id ∈ get_accessible_resource_ids t user_id resource_type resource_ids permission ids')) ∧
        ∀ query row, row.id = resource_id →
          (row ∈ has_permission_filter t' query filter resource_type permission ↔
            row ∈ has_permission_filter t query filter resource_type permission) := by
  refine ⟨?_, has_permission_filter_eq huser resource_type hpermission hids hfilter, ?_⟩
  · intro resource_id resource_ids hmem
    rw [has_access_iff hids, mem_get_accessible_resource_ids hids', and_iff_right hmem]
  · intro t' hmembers resource_id hsame
    have hgroups : get_groups_by_member_id t' user_id = get_groups_by_member_id t user_id := by
      rw [get_groups_by_member_id, get_groups_by_member_id, hmembers]
    -- the groups are the same, so what the caller gave is right for both tables
    have hids₁ : GroupsOf t' user_id ids := by rwa [GroupsOf, hgroups]
    have hids₂ : GroupsOf t' user_id ids' := by rwa [GroupsOf, hgroups]
    have hfilter' : filter.IsFor t' user_id := ⟨hfilter.user, by rw [hgroups]; exact hfilter.groups⟩
    have hsame' := accessible_congr hmembers hsame
    have hchecks : has_access t' user_id resource_type resource_id permission ids =
        has_access t user_id resource_type resource_id permission ids := by
      rw [Bool.eq_iff_iff, has_access_iff hids₁, has_access_iff hids, hsame']
    refine ⟨hchecks, ?_, ?_⟩
    · intro resource_ids
      rw [mem_get_accessible_resource_ids hids₂, mem_get_accessible_resource_ids hids', hsame']
    · rintro query row rfl
      rw [has_permission_filter_eq huser resource_type hpermission hids₁ hfilter',
        has_permission_filter_eq huser resource_type hpermission hids hfilter, List.mem_filter, List.mem_filter, hchecks]

/-- A note that a group may read, seen by one of the group and listed with a note of the user's own. -/
theorem access_agrees_group :
    let note : AccessGrant := ⟨py "1", py "note", py "n", py "group", py "g", py "read"⟩
    let t : Tables := ⟨[note], [⟨py "g", py "u"⟩]⟩
    has_access t (py "u") (py "note") (py "n") (py "read") none = true ∧
      py "n" ∈ get_accessible_resource_ids t (py "u") (py "note") [py "m", py "n"] (py "read") none ∧
      has_permission_filter t [⟨py "m", some (py "u")⟩, ⟨py "n", none⟩, ⟨py "o", none⟩] ⟨some [py "g"], some (py "u")⟩
        (py "note") (py "read") = [⟨py "m", some (py "u")⟩, ⟨py "n", none⟩] := by
  intro note t
  have hids : GroupsOf t (py "u") none := fun _ h => nomatch h
  have hfilter : Filter.IsFor t (py "u") ⟨some [py "g"], some (py "u")⟩ := ⟨rfl, fun group => Iff.rfl⟩
  obtain ⟨hbatch, hrows, -⟩ := access_agrees t (by decide) (py "note") (Or.inl rfl) hids hids hfilter
  have hcheck : has_access t (py "u") (py "note") (py "n") (py "read") none = true := by decide
  refine ⟨hcheck, (hbatch (py "n") [py "m", py "n"] (by simp)).mp hcheck, ?_⟩
  rw [hrows]
  decide

end Access
end MaterialOpenWebui
