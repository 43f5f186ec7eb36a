import MaterialOpenWebui.Access.Grants
import MaterialOpenWebui.Py.Value

/-!
# `Access.Sharing` — what a user may share with whom (`backend/open_webui/utils/access_control/__init__.py`, `models/access_grants.py`)

A form has a list of grants, of which each may be anything. `filter_allowed_access_grants` takes out those of the classes that
the user may not grant: it asks about a class only where a valid grant of it was submitted, but then takes out all that look
like it, valid or not. `set_access_grants` stores what is valid, each grant once.

The outcome of a permission is a parameter, with nothing where `has_permission` raises.
-/

namespace MaterialOpenWebui
namespace Access
open Py

/-! ## Submitted grants -/

/-- A value of the form, or a `BaseModel` with its fields. -/
inductive Submitted where
  | value (v : Val)
  | model (model_dump : Obj)

/-- `grant.get(key) if isinstance(grant, dict) else getattr(grant, key, None)`. -/
def Submitted.attr (grant : Submitted) (key : Str) : Val :=
  match grant with
  | .value v => v.get key
  | .model model_dump => (model_dump.get? key).getD .none

/-- A dictionary, once a `BaseModel` has been dumped. -/
def Submitted.isDict : Submitted → Bool
  | .value v => v.isDict
  | .model _ => true

def isStr (v : Val) (s : Str) : Bool := v.text? = some s

/-- The type, the id and the permission. -/
abbrev GrantKey := Str × Str × Str

structure NormalizedGrant where
  id : Str
  principal_type : Str
  principal_id : Str
  permission : Str

/-- What the loop adds for a grant that it does not pass over; ids that are missing are drawn by `uuid4`. -/
def normalized? (new_id : Str) (grant : Submitted) : Option (GrantKey × NormalizedGrant) :=
  if !grant.isDict then none
  else
    let principal_type := grant.attr (py "principal_type")
    let principal_id := grant.attr (py "principal_id")
    let permission := grant.attr (py "permission")
    if !(isStr principal_type (py "user") || isStr principal_type (py "group") ||
      isStr principal_type (py "anyone")) then none
    else if !(isStr permission (py "read") || isStr permission (py "write")) then none
    else match principal_type, principal_id, permission with
      | .str principal_type, .str principal_id, .str permission =>
        if principal_id = [] then none
        else if principal_type = py "anyone" ∧ (principal_id ≠ py "*" ∨ permission ≠ py "read") then none
        else
          let id := match grant.attr (py "id") with
            | .str id => if id ≠ [] then id else new_id
            | _ => new_id
          some ((principal_type, principal_id, permission), ⟨id, principal_type, principal_id, permission⟩)
      | _, _, _ => none

/-- One round: `deduped[key] = {...}`. -/
def note (uuid4 : Nat → Str) (deduped : Dict GrantKey NormalizedGrant) (grant : Submitted × Nat) :
    Dict GrantKey NormalizedGrant :=
  match normalized? (uuid4 grant.2) grant.1 with
  | some (key, normalized) => deduped.set key normalized
  | none => deduped

def normalize_access_grants (uuid4 : Nat → Str) (access_grants : List Submitted) : List NormalizedGrant :=
  (access_grants.zipIdx.foldl (note uuid4) Dict.empty).items.map Prod.snd

section
variable (uuid4 : Nat → Str) (access_grants : List Submitted)

def has_public_read_access_grant : Bool := (normalize_access_grants uuid4 access_grants).any fun grant =>
  grant.principal_type = py "user" && grant.principal_id = py "*" && grant.permission = py "read"

def has_public_write_access_grant : Bool := (normalize_access_grants uuid4 access_grants).any fun grant =>
  grant.principal_type = py "user" && grant.principal_id = py "*" && grant.permission = py "write"

def has_anyone_read_access_grant : Bool := (normalize_access_grants uuid4 access_grants).any fun grant =>
  grant.principal_type = py "anyone" && grant.principal_id = py "*" && grant.permission = py "read"

def has_user_access_grant : Bool := (normalize_access_grants uuid4 access_grants).any fun grant =>
  grant.principal_type = py "user" && grant.principal_id ≠ py "*"

end

def strip_user_access_grants (access_grants : List Submitted) : List Submitted := access_grants.filter fun grant =>
  !(isStr (grant.attr (py "principal_type")) (py "user") && !isStr (grant.attr (py "principal_id")) (py "*"))

def strip_anyone_access_grants (access_grants : List Submitted) : List Submitted := access_grants.filter fun grant =>
  !isStr (grant.attr (py "principal_type")) (py "anyone")

/-! ## Filtering -/

/-- One pass: where it is called for, the permission is asked for, and without it the grants are taken out. -/
def withhold (called_for : Bool) (has_permission : Option Bool) (strip : List Submitted → List Submitted)
    (access_grants : List Submitted) : Option (List Submitted) :=
  if called_for then has_permission.map fun allowed => if allowed then access_grants else strip access_grants
  else some access_grants

def strip_public (access_grants : List Submitted) : List Submitted := access_grants.filter fun grant =>
  !(isStr (grant.attr (py "principal_type")) (py "user") && isStr (grant.attr (py "principal_id")) (py "*"))

def strip_group (access_grants : List Submitted) : List Submitted := access_grants.filter fun grant =>
  !isStr (grant.attr (py "principal_type")) (py "group")

/-- Whether grants for anyone may be made. -/
def anyone_allowed (has_permission : Str → Option Bool) (user_role : Str)
    (anyone_permission_key : Option Str) : Option Bool :=
  match anyone_permission_key.filter (fun key => key ≠ []) with
  | none => some false
  | some key => if user_role ≠ py "admin" then has_permission key else some true

def filter_allowed_access_grants (uuid4 : Nat → Str) (has_permission : Str → Option Bool) (user_role : Str)
    (access_grants : List Submitted) (public_permission_key : Str) (anyone_permission_key : Option Str) :
    Option (List Submitted) :=
  if access_grants.isEmpty then some access_grants
  else do
    let access_grants ← withhold (has_anyone_read_access_grant uuid4 access_grants)
      (anyone_allowed has_permission user_role anyone_permission_key) strip_anyone_access_grants access_grants
    if user_role = py "admin" then some access_grants
    else do
      let access_grants ← withhold
        (has_public_read_access_grant uuid4 access_grants || has_public_write_access_grant uuid4 access_grants)
        (has_permission public_permission_key) strip_public access_grants
      let access_grants ← withhold (has_user_access_grant uuid4 access_grants)
        (has_permission (py "access_grants.allow_users")) strip_user_access_grants access_grants
      withhold (access_grants.any fun grant => isStr (grant.attr (py "principal_type")) (py "group"))
        (has_permission (py "access_grants.allow_groups")) strip_group access_grants

/-! ## Storing -/

/-- The rows of the resource are replaced. -/
def set_access_grants (uuid4 : Nat → Str) (t : Tables) (resource_type resource_id : Str) (access_grants : List Submitted) :
    Tables × List AccessGrant :=
  let results := (normalize_access_grants uuid4 access_grants).zipIdx.map fun grant =>
    ⟨uuid4 (access_grants.length + grant.2), resource_type, resource_id, grant.1.principal_type, grant.1.principal_id,
      grant.1.permission⟩
  ({ t with
      grants := (t.grants.filter fun g => !(g.resource_type = resource_type && g.resource_id = resource_id)) ++ results },
    results)

/-! ## Valid grants -/

/-- What makes a grant a valid one, with this key. -/
structure Valid (grant : Submitted) (key : GrantKey) : Prop where
  dict : grant.isDict = true
  principal_type : grant.attr (py "principal_type") = .str key.1
  principal_id : grant.attr (py "principal_id") = .str key.2.1
  permission : grant.attr (py "permission") = .str key.2.2
  type_mem : key.1 = py "user" ∨ key.1 = py "group" ∨ key.1 = py "anyone"
  permission_mem : key.2.2 = py "read" ∨ key.2.2 = py "write"
  id_ne : key.2.1 ≠ []
  anyone : key.1 = py "anyone" → key.2.1 = py "*" ∧ key.2.2 = py "read"

theorem isStr_iff {v : Val} {s : Str} : isStr v s = true ↔ v = .str s := by
  rw [isStr, decide_eq_true_iff]
  cases v with
  | str t => exact ⟨fun h => congrArg Val.str (Option.some.inj h), fun h => congrArg some (Val.str.inj h)⟩
  | _ => exact iff_of_false nofun nofun

theorem isType_iff {v : Val} :
    (isStr v (py "user") || isStr v (py "group") || isStr v (py "anyone")) = true ↔
      ∃ s, v = .str s ∧ (s = py "user" ∨ s = py "group" ∨ s = py "anyone") := by
  rw [Bool.or_eq_true, Bool.or_eq_true, isStr_iff, isStr_iff, isStr_iff, or_assoc]
  constructor
  · rintro (rfl | rfl | rfl)
    · exact ⟨_, rfl, Or.inl rfl⟩
    · exact ⟨_, rfl, Or.inr (Or.inl rfl)⟩
    · exact ⟨_, rfl, Or.inr (Or.inr rfl)⟩
  · rintro ⟨s, rfl, h⟩
    exact h.imp (congrArg Val.str) (Or.imp (congrArg Val.str) (congrArg Val.str))

theorem isPermission_iff {v : Val} :
    (isStr v (py "read") || isStr v (py "write")) = true ↔ ∃ s, v = .str s ∧ (s = py "read" ∨ s = py "write") := by
  rw [Bool.or_eq_true, isStr_iff, isStr_iff]
  constructor
  · rintro (rfl | rfl)
    · exact ⟨_, rfl, Or.inl rfl⟩
    · exact ⟨_, rfl, Or.inr rfl⟩
  · rintro ⟨s, rfl, h⟩
    exact h.imp (congrArg Val.str) (congrArg Val.str)

/-- The key that a round notes is that of a valid grant, and in what it notes. -/
theorem normalized?_spec (new_id : Str) (grant : Submitted) :
    (∃ key normalized, normalized? new_id grant = some (key, normalized) ∧ Valid grant key ∧
        (normalized.principal_type, normalized.principal_id, normalized.permission) = key) ∨
      normalized? new_id grant = none ∧ ∀ key, ¬Valid grant key := by
  rw [normalized?]
  by_cases hdict : grant.isDict = true
  · rw [if_neg (by rw [hdict]; exact Bool.false_ne_true)]
    by_cases htype : (isStr (grant.attr (py "principal_type")) (py "user") ||
        isStr (grant.attr (py "principal_type")) (py "group") ||
        isStr (grant.attr (py "principal_type")) (py "anyone")) = true
    · by_cases hpermission : (isStr (grant.attr (py "permission")) (py "read") ||
          isStr (grant.attr (py "permission")) (py "write")) = true
      · obtain ⟨principal_type, hptype, htype_mem⟩ := isType_iff.mp htype
        obtain ⟨permission, hperm, hperm_mem⟩ := isPermission_iff.mp hpermission
        dsimp only
        rw [htype, hpermission, if_neg (by decide), if_neg (by decide), hptype, hperm]
        cases hid : grant.attr (py "principal_id") with
        | str principal_id =>
          dsimp only
          by_cases hempty : principal_id = []
          · rw [if_pos hempty]
            refine Or.inr ⟨rfl, fun key h => h.id_ne ?_⟩
            exact (Val.str.inj (h.principal_id.symm.trans hid)).trans hempty
          · rw [if_neg hempty]
            by_cases hanyone : principal_type = py "anyone" ∧ (principal_id ≠ py "*" ∨ permission ≠ py "read")
            · rw [if_pos hanyone]
              refine Or.inr ⟨rfl, fun key h => ?_⟩
              have h₁ := Val.str.inj (h.principal_type.symm.trans hptype)
              have h₂ := Val.str.inj (h.principal_id.symm.trans hid)
              have h₃ := Val.str.inj (h.permission.symm.trans hperm)
              obtain ⟨hstar, hread⟩ := h.anyone (h₁.trans hanyone.1)
              exact hanyone.2.elim (fun hne => hne (h₂.symm.trans hstar)) fun hne => hne (h₃.symm.trans hread)
            · rw [if_neg hanyone]
              refine Or.inl ⟨_, _, rfl, ⟨hdict, hptype, hid, hperm, htype_mem, hperm_mem, hempty, fun h => ?_⟩, rfl⟩
              rw [not_and_or, not_or, not_not, not_not] at hanyone
              exact hanyone.resolve_left fun hne => hne h
        | _ =>
          refine Or.inr ⟨rfl, fun key h => ?_⟩
          cases h.principal_id.symm.trans hid
      · refine Or.inr ⟨?_, fun key h => hpermission (isPermission_iff.mpr ⟨_, h.permission, h.permission_mem⟩)⟩
        dsimp only
        rw [htype, eq_false_of_ne_true hpermission]
        rfl
    · refine Or.inr ⟨?_, fun key h => htype (isType_iff.mpr ⟨_, h.principal_type, h.type_mem⟩)⟩
      dsimp only
      rw [eq_false_of_ne_true htype]
      rfl
  · refine Or.inr ⟨?_, fun key h => hdict h.dict⟩
    rw [eq_false_of_ne_true hdict]
    rfl

/-- The key of a grant, if it is a valid one (`valid?_eq_some_iff`). -/
def valid? (grant : Submitted) : Option GrantKey := (normalized? [] grant).map Prod.fst

theorem Valid.unique {grant : Submitted} {key key' : GrantKey} (h : Valid grant key)
    (h' : Valid grant key') : key = key' := by
  have h₁ := Val.str.inj (h.principal_type.symm.trans h'.principal_type)
  have h₂ := Val.str.inj (h.principal_id.symm.trans h'.principal_id)
  have h₃ := Val.str.inj (h.permission.symm.trans h'.permission)
  exact Prod.ext h₁ (Prod.ext h₂ h₃)

theorem valid?_eq_some_iff {grant : Submitted} {key : GrantKey} : valid? grant = some key ↔ Valid grant key := by
  rw [valid?]
  rcases normalized?_spec [] grant with ⟨key', normalized, heq, hvalid, -⟩ | ⟨heq, hnone⟩
  · rw [heq, Option.map_some, Option.some_inj]
    exact ⟨fun h => h ▸ hvalid, fun h => hvalid.unique h⟩
  · rw [heq]
    exact iff_of_false nofun (hnone key)

/-- Whatever id is drawn. -/
theorem normalized?_cases (new_id : Str) (grant : Submitted) :
    (∃ key normalized, normalized? new_id grant = some (key, normalized) ∧ valid? grant = some key ∧
        (normalized.principal_type, normalized.principal_id, normalized.permission) = key) ∨
      normalized? new_id grant = none ∧ valid? grant = none := by
  rcases normalized?_spec new_id grant with ⟨key, normalized, heq, hvalid, hkey⟩ | ⟨heq, hnone⟩
  · exact Or.inl ⟨key, normalized, heq, valid?_eq_some_iff.mpr hvalid, hkey⟩
  · refine Or.inr ⟨heq, ?_⟩
    cases hkey : valid? grant with
    | none => rfl
    | some key => exact absurd (valid?_eq_some_iff.mp hkey) (hnone key)

/-- The keys of the valid grants. -/
def keys (access_grants : List Submitted) : List GrantKey := access_grants.filterMap valid?

def NormalizedGrant.key (grant : NormalizedGrant) : GrantKey := (grant.principal_type, grant.principal_id, grant.permission)

theorem eraseDups_of_nodup {α : Type} [BEq α] [LawfulBEq α] {l : List α} (h : l.Nodup) : l.eraseDups = l := by
  induction l with
  | nil => rfl
  | cons a l ih =>
    obtain ⟨ha, hl⟩ := List.nodup_cons.mp h
    rw [List.eraseDups_cons, List.filter_eq_self.mpr ?_, ih hl]
    intro b hb
    have hne : b ≠ a := fun heq => ha (heq ▸ hb)
    simpa using hne

/-- What is added again changes nothing. -/
theorem eraseDups_append_cons {α : Type} [BEq α] [LawfulBEq α] {l : List α} {a : α} (ha : a ∈ l) (r : List α) :
    (l ++ a :: r).eraseDups = (l ++ r).eraseDups := by
  rw [List.eraseDups_append, List.eraseDups_append, List.removeAll, List.removeAll, List.filter_cons_of_neg]
  simpa using ha

theorem keys_foldl_note (uuid4 : Nat → Str) (rounds : List (Submitted × Nat)) (deduped : Dict GrantKey NormalizedGrant)
    (hdeduped : ∀ p ∈ deduped.items, p.2.key = p.1) :
    (∀ p ∈ (rounds.foldl (note uuid4) deduped).items, p.2.key = p.1) ∧
      (rounds.foldl (note uuid4) deduped).keys = (deduped.keys ++ keys (rounds.map Prod.fst)).eraseDups := by
  induction rounds generalizing deduped with
  | nil =>
    refine ⟨hdeduped, ?_⟩
    rw [List.map_nil, keys, List.filterMap_nil, List.append_nil, eraseDups_of_nodup deduped.nodup_keys]
    rfl
  | cons grant rounds ih =>
    rw [List.foldl_cons, List.map_cons, keys, note]
    rcases normalized?_cases (uuid4 grant.2) grant.1 with ⟨key, normalized, heq, hvalid, hkey⟩ | ⟨heq, hvalid⟩
    · rw [heq, List.filterMap_cons_some hvalid]
      have hset : ∀ p ∈ (deduped.set key normalized).items, p.2.key = p.1 := by
        intro p hp
        rcases Dict.mem_items_set hp with rfl | hp
        · exact hkey
        · exact hdeduped p hp
      obtain ⟨hitems, hkeys⟩ := ih (deduped.set key normalized) hset
      refine ⟨hitems, hkeys.trans ?_⟩
      by_cases hmem : key ∈ deduped
      · rw [Dict.keys_set_of_mem _ hmem, eraseDups_append_cons hmem]
        rfl
      · rw [Dict.keys_set, if_neg hmem, List.append_assoc]
        rfl
    · rw [heq, List.filterMap_cons_none hvalid]
      exact ih deduped hdeduped

/-- **Normalizing** keeps each valid grant once, in the order of their first occurrence. -/
theorem keys_normalize (uuid4 : Nat → Str) (access_grants : List Submitted) :
    (normalize_access_grants uuid4 access_grants).map NormalizedGrant.key = (keys access_grants).eraseDups := by
  obtain ⟨hitems, hkeys⟩ := keys_foldl_note uuid4 access_grants.zipIdx Dict.empty (fun p hp => (nomatch hp))
  rw [List.zipIdx_map_fst] at hkeys
  rw [normalize_access_grants, List.map_map]
  exact (List.map_congr_left hitems).trans hkeys

theorem any_normalize (uuid4 : Nat → Str) (access_grants : List Submitted) (p : GrantKey → Bool) :
    ((normalize_access_grants uuid4 access_grants).any fun grant => p grant.key) = (keys access_grants).any p := by
  have hany : ((normalize_access_grants uuid4 access_grants).map NormalizedGrant.key).any p = (keys access_grants).any p := by
    rw [keys_normalize, Bool.eq_iff_iff, List.any_eq_true, List.any_eq_true]
    exact exists_congr fun key => and_congr_left fun _ => List.mem_eraseDups
  rw [← hany, List.any_map]
  rfl

/-! ## One pass -/

/-- What is taken out, among the valid grants, is what has such a key. -/
theorem keys_filter {access_grants : List Submitted} {p : Submitted → Bool} {q : GrantKey → Bool}
    (h : ∀ grant key, Valid grant key → p grant = q key) : keys (access_grants.filter p) = (keys access_grants).filter q := by
  induction access_grants with
  | nil => rfl
  | cons grant access_grants ih =>
    cases hvalid : valid? grant with
    | none =>
      have hskip : keys (grant :: access_grants) = keys access_grants := List.filterMap_cons_none hvalid
      rw [hskip, ← ih]
      by_cases hp : p grant = true
      · rw [List.filter_cons_of_pos hp]
        exact List.filterMap_cons_none hvalid
      · rw [List.filter_cons_of_neg hp]
    | some key =>
      have hkeep : keys (grant :: access_grants) = key :: keys access_grants := List.filterMap_cons_some hvalid
      have hq := h grant key (valid?_eq_some_iff.mp hvalid)
      rw [hkeep]
      by_cases hp : p grant = true
      · rw [List.filter_cons_of_pos hp, List.filter_cons_of_pos (hq ▸ hp), ← ih]
        exact List.filterMap_cons_some hvalid
      · rw [List.filter_cons_of_neg hp, List.filter_cons_of_neg (hq ▸ hp), ih]

/-- **One pass** takes out the valid grants of a class, unless the class is allowed. -/
theorem keys_withhold {called_for : Bool} {has_permission : Option Bool} {strip : List Submitted → List Submitted}
    {access_grants left : List Submitted} {inClass : GrantKey → Bool}
    (hleft : withhold called_for has_permission strip access_grants = some left)
    (hstrip : keys (strip access_grants) = (keys access_grants).filter fun key => !inClass key)
    (hcalled : ∀ key ∈ keys access_grants, inClass key = true → called_for = true) :
    keys left = (keys access_grants).filter fun key => !inClass key || decide (has_permission = some true) := by
  rw [withhold] at hleft
  split at hleft
  · obtain ⟨allowed, rfl, rfl⟩ := Option.map_eq_some_iff.mp hleft
    cases allowed with
    | true =>
      refine (List.filter_eq_self.mpr fun key _ => ?_).symm
      rw [decide_eq_true rfl, Bool.or_true]
    | false =>
      refine hstrip.trans (List.filter_congr fun key _ => ?_)
      rw [decide_eq_false (by decide), Bool.or_false]
  · rename_i hnot
    cases hleft
    -- no valid grant is of the class
    refine (List.filter_eq_self.mpr fun key hkey => ?_).symm
    cases hclass : inClass key with
    | false => rfl
    | true => exact absurd (hcalled key hkey hclass) hnot

theorem withhold_isSome {called_for : Bool} {has_permission : Option Bool} (h : has_permission.isSome = true)
    (strip : List Submitted → List Submitted) (access_grants : List Submitted) :
    (withhold called_for has_permission strip access_grants).isSome = true := by
  rw [withhold]
  split
  · rw [Option.isSome_map]
    exact h
  · rfl

def isAnyone (key : GrantKey) : Bool := key.1 = py "anyone"
def isPublic (key : GrantKey) : Bool := key.1 = py "user" && key.2.1 = py "*"
def isUser (key : GrantKey) : Bool := key.1 = py "user" && key.2.1 ≠ py "*"
def isGroup (key : GrantKey) : Bool := key.1 = py "group"

theorem isStr_str (a b : Str) : isStr (.str a) b = decide (a = b) :=
  decide_eq_decide.mpr ⟨Option.some.inj, congrArg some⟩

theorem keys_strip_anyone (access_grants : List Submitted) :
    keys (strip_anyone_access_grants access_grants) = (keys access_grants).filter fun key => !isAnyone key :=
  keys_filter fun grant key h => by rw [h.principal_type, isStr_str, isAnyone]

theorem keys_strip_group (access_grants : List Submitted) :
    keys (strip_group access_grants) = (keys access_grants).filter fun key => !isGroup key :=
  keys_filter fun grant key h => by rw [h.principal_type, isStr_str, isGroup]

theorem keys_strip_public (access_grants : List Submitted) :
    keys (strip_public access_grants) = (keys access_grants).filter fun key => !isPublic key :=
  keys_filter fun grant key h => by rw [h.principal_type, h.principal_id, isStr_str, isStr_str, isPublic]

theorem keys_strip_user (access_grants : List Submitted) :
    keys (strip_user_access_grants access_grants) = (keys access_grants).filter fun key => !isUser key :=
  keys_filter fun grant key h => by rw [h.principal_type, h.principal_id, isStr_str, isStr_str, isUser, decide_not]

section
variable (uuid4 : Nat → Str) {access_grants : List Submitted} {key : GrantKey} (hkey : key ∈ keys access_grants)
include hkey

theorem valid_of_mem_keys : ∃ grant ∈ access_grants, Valid grant key := by
  obtain ⟨grant, hmem, hvalid⟩ := List.mem_filterMap.mp hkey
  exact ⟨grant, hmem, valid?_eq_some_iff.mp hvalid⟩

theorem has_anyone_of_mem (h : isAnyone key = true) : has_anyone_read_access_grant uuid4 access_grants = true := by
  obtain ⟨grant, -, hvalid⟩ := valid_of_mem_keys hkey
  have htype : key.1 = py "anyone" := of_decide_eq_true h
  obtain ⟨hstar, hread⟩ := hvalid.anyone htype
  have hany := any_normalize uuid4 access_grants fun k => k.1 = py "anyone" && k.2.1 = py "*" && k.2.2 = py "read"
  refine hany.trans (List.any_eq_true.mpr ⟨key, hkey, ?_⟩)
  rw [htype, hstar, hread]
  rfl

theorem has_public_of_mem (h : isPublic key = true) :
    (has_public_read_access_grant uuid4 access_grants || has_public_write_access_grant uuid4 access_grants) = true := by
  obtain ⟨grant, -, hvalid⟩ := valid_of_mem_keys hkey
  rw [isPublic, Bool.and_eq_true] at h
  have hread := any_normalize uuid4 access_grants fun k => k.1 = py "user" && k.2.1 = py "*" && k.2.2 = py "read"
  have hwrite := any_normalize uuid4 access_grants fun k => k.1 = py "user" && k.2.1 = py "*" && k.2.2 = py "write"
  rw [Bool.or_eq_true]
  rcases hvalid.permission_mem with hperm | hperm
  · refine Or.inl (hread.trans (List.any_eq_true.mpr ⟨key, hkey, ?_⟩))
    rw [h.1, h.2, hperm]
    rfl
  · refine Or.inr (hwrite.trans (List.any_eq_true.mpr ⟨key, hkey, ?_⟩))
    rw [h.1, h.2, hperm]
    rfl

theorem has_user_of_mem (h : isUser key = true) : has_user_access_grant uuid4 access_grants = true :=
  (any_normalize uuid4 access_grants isUser).trans (List.any_eq_true.mpr ⟨key, hkey, h⟩)

theorem has_group_of_mem (h : isGroup key = true) :
    (access_grants.any fun grant => isStr (grant.attr (py "principal_type")) (py "group")) = true := by
  obtain ⟨grant, hmem, hvalid⟩ := valid_of_mem_keys hkey
  refine List.any_eq_true.mpr ⟨grant, hmem, ?_⟩
  rw [hvalid.principal_type, isStr_str]
  exact h

end

/-! ## What is stored -/

/-- **What a user may grant**: for anyone if the resource has a permission for that and the user has it, and the other classes
by their permissions; an admin has them all. -/
def permitted (has_permission : Str → Option Bool) (user_role public_permission_key : Str)
    (anyone_permission_key : Option Str) (key : GrantKey) : Bool :=
  if isAnyone key then anyone_allowed has_permission user_role anyone_permission_key = some true
  else user_role = py "admin" ||
    if isPublic key then has_permission public_permission_key = some true
    else if isUser key then has_permission (py "access_grants.allow_users") = some true
    else has_permission (py "access_grants.allow_groups") = some true

/-- A valid grant is of one class. -/
theorem class_cases {access_grants : List Submitted} {key : GrantKey} (hkey : key ∈ keys access_grants) :
    isAnyone key = true ∧ isPublic key = false ∧ isUser key = false ∧ isGroup key = false ∨
      isAnyone key = false ∧ isPublic key = true ∧ isUser key = false ∧ isGroup key = false ∨
      isAnyone key = false ∧ isPublic key = false ∧ isUser key = true ∧ isGroup key = false ∨
      isAnyone key = false ∧ isPublic key = false ∧ isUser key = false ∧ isGroup key = true := by
  obtain ⟨grant, -, hvalid⟩ := valid_of_mem_keys hkey
  rw [isAnyone, isPublic, isUser, isGroup]
  rcases hvalid.type_mem with htype | htype | htype
  · by_cases hstar : key.2.1 = py "*"
    · rw [htype, hstar]
      exact Or.inr (Or.inl (by decide))
    · rw [htype, decide_eq_false hstar, decide_eq_true hstar]
      exact Or.inr (Or.inr (Or.inl (by decide)))
  · rw [htype]
    exact Or.inr (Or.inr (Or.inr ⟨by decide, rfl, rfl, by decide⟩))
  · rw [htype]
    exact Or.inl ⟨by decide, rfl, rfl, by decide⟩

theorem keys_filter_allowed {uuid4 : Nat → Str} {has_permission : Str → Option Bool} {user_role : Str}
    {access_grants filtered : List Submitted} {public_permission_key : Str} {anyone_permission_key : Option Str}
    (h : filter_allowed_access_grants uuid4 has_permission user_role access_grants public_permission_key
      anyone_permission_key = some filtered) :
    keys filtered =
      (keys access_grants).filter (permitted has_permission user_role public_permission_key anyone_permission_key) := by
  rw [filter_allowed_access_grants] at h
  split at h
  · rename_i hempty
    cases h
    rw [List.isEmpty_iff.mp hempty]
    rfl
  obtain ⟨grants₁, h₁, h⟩ := Option.bind_eq_some_iff.mp h
  have hkeys₁ := keys_withhold h₁ (keys_strip_anyone access_grants) fun key hkey => has_anyone_of_mem uuid4 hkey
  split at h
  · rename_i hadmin
    cases h
    refine hkeys₁.trans (List.filter_congr fun key _ => ?_)
    rw [permitted, decide_eq_true hadmin, Bool.true_or]
    cases isAnyone key with
    | true => rfl
    | false => rfl
  · rename_i hrole
    obtain ⟨grants₂, h₂, h⟩ := Option.bind_eq_some_iff.mp h
    have hkeys₂ := keys_withhold h₂ (keys_strip_public grants₁) fun key hkey => has_public_of_mem uuid4 hkey
    obtain ⟨grants₃, h₃, h₄⟩ := Option.bind_eq_some_iff.mp h
    have hkeys₃ := keys_withhold h₃ (keys_strip_user grants₂) fun key hkey => has_user_of_mem uuid4 hkey
    have hkeys₄ := keys_withhold h₄ (keys_strip_group grants₃) fun key hkey => has_group_of_mem hkey
    rw [hkeys₄, hkeys₃, hkeys₂, hkeys₁, List.filter_filter, List.filter_filter, List.filter_filter]
    refine List.filter_congr fun key hkey => ?_
    rw [permitted, decide_eq_false hrole, Bool.false_or]
    rcases class_cases hkey with ⟨ha, hp, hu, hg⟩ | ⟨ha, hp, hu, hg⟩ | ⟨ha, hp, hu, hg⟩ | ⟨ha, hp, hu, hg⟩
    · simp [ha, hp, hu, hg]
    · simp [ha, hp, hu, hg]
    · simp [ha, hp, hu, hg]
    · simp [ha, hp, hu, hg]

theorem filter_allowed_isSome (uuid4 : Nat → Str) {has_permission : Str → Option Bool}
    (h : ∀ permission_key, (has_permission permission_key).isSome = true) (user_role : Str) (access_grants : List Submitted)
    (public_permission_key : Str) (anyone_permission_key : Option Str) :
    (filter_allowed_access_grants uuid4 has_permission user_role access_grants public_permission_key
      anyone_permission_key).isSome = true := by
  have hanyone : (anyone_allowed has_permission user_role anyone_permission_key).isSome = true := by
    rw [anyone_allowed]
    split
    · rfl
    · split
      · exact h _
      · rfl
  rw [filter_allowed_access_grants]
  split
  · rfl
  obtain ⟨grants₁, h₁⟩ := Option.isSome_iff_exists.mp (withhold_isSome hanyone strip_anyone_access_grants access_grants)
  rw [h₁]
  show (if _ then _ else _ : Option (List Submitted)).isSome = true
  split
  · rfl
  obtain ⟨grants₂, h₂⟩ := Option.isSome_iff_exists.mp (withhold_isSome (h public_permission_key) strip_public grants₁)
  rw [h₂]
  show (Option.bind (withhold (has_user_access_grant uuid4 grants₂) _ strip_user_access_grants grants₂) _).isSome = true
  obtain ⟨grants₃, h₃⟩ := Option.isSome_iff_exists.mp
    (withhold_isSome (h (py "access_grants.allow_users")) strip_user_access_grants grants₂)
  rw [h₃]
  exact withhold_isSome (h _) strip_group grants₃

/-- What a grant in the table says of its resource. -/
def AccessGrant.key (g : AccessGrant) : GrantKey := (g.principal_type, g.principal_id, g.permission)

/-- The grants of a resource. -/
def Tables.grantsOf (t : Tables) (resource_type resource_id : Str) : List AccessGrant :=
  t.grants.filter fun g => g.resource_type = resource_type && g.resource_id = resource_id

theorem grantsOf_set_access_grants (uuid4 : Nat → Str) (t : Tables) (resource_type resource_id : Str)
    (access_grants : List Submitted) :
    ((set_access_grants uuid4 t resource_type resource_id access_grants).1.grantsOf resource_type resource_id).map
      AccessGrant.key = (keys access_grants).eraseDups := by
  rw [set_access_grants, Tables.grantsOf, List.filter_append, List.filter_filter]
  -- the rows that were there are of other resources, the new ones are of this one
  have hold : (t.grants.filter fun g => (g.resource_type = resource_type && g.resource_id = resource_id) &&
      !(g.resource_type = resource_type && g.resource_id = resource_id)) = [] := by
    refine List.filter_eq_nil_iff.mpr fun g _ => ?_
    rw [Bool.and_not_self]
    exact Bool.false_ne_true
  have hkeys : (normalize_access_grants uuid4 access_grants).zipIdx.map (NormalizedGrant.key ∘ Prod.fst) =
      (normalize_access_grants uuid4 access_grants).map NormalizedGrant.key := by
    rw [← List.map_map, List.zipIdx_map_fst]
  rw [hold, List.nil_append, List.filter_eq_self.mpr ?_, ← keys_normalize uuid4, List.map_map]
  · exact hkeys
  · intro g hg
    obtain ⟨grant, -, rfl⟩ := List.mem_map.mp hg
    rw [decide_eq_true rfl, decide_eq_true rfl]
    rfl

/-- **What is stored** for a resource are the valid grants that were submitted and that the user may grant, each once, in the
order of their first occurrence. -/
theorem sharing_respects (uuid4 : Nat → Str) (has_permission : Str → Option Bool) (user_role : Str)
    (access_grants : List Submitted) (public_permission_key : Str) (anyone_permission_key : Option Str) (t : Tables)
    (resource_type resource_id : Str) :
    (∀ filtered, filter_allowed_access_grants uuid4 has_permission user_role access_grants public_permission_key
        anyone_permission_key = some filtered →
      ((set_access_grants uuid4 t resource_type resource_id filtered).1.grantsOf resource_type resource_id).map
          AccessGrant.key =
        ((access_grants.filterMap valid?).filter
          (permitted has_permission user_role public_permission_key anyone_permission_key)).eraseDups) ∧
    ((∀ permission_key, (has_permission permission_key).isSome = true) →
      (filter_allowed_access_grants uuid4 has_permission user_role access_grants public_permission_key
        anyone_permission_key).isSome = true) := by
  refine ⟨fun filtered h => ?_, fun h => filter_allowed_isSome uuid4 h ..⟩
  rw [grantsOf_set_access_grants, keys_filter_allowed h]
  rfl

/-- A grant for everyone, twice, one for a group and one that is none. -/
def submittedExample : List Submitted :=
  let grant (principal_type principal_id : String) : Submitted :=
    .value (.dict [(py "principal_type", .str (py principal_type)), (py "principal_id", .str (py principal_id)),
      (py "permission", .str (py "read"))])
  [grant "user" "*", grant "group" "g", grant "user" "*", grant "group" "", .value .none]

theorem sharing_respects_example :
    ((set_access_grants (fun _ => []) ⟨[], []⟩ (py "note") (py "n")
        ((filter_allowed_access_grants (fun _ => []) (fun key => some (key = py "access_grants.allow_groups")) (py "user")
          submittedExample (py "sharing.public_notes") none).getD [])).1.grantsOf (py "note") (py "n")).map AccessGrant.key =
      [(py "group", py "g", py "read")] := by
  obtain ⟨hstored, hsome⟩ := sharing_respects (fun _ => []) (fun key => some (key = py "access_grants.allow_groups"))
    (py "user") submittedExample (py "sharing.public_notes") none ⟨[], []⟩ (py "note") (py "n")
  obtain ⟨filtered, hfiltered⟩ := Option.isSome_iff_exists.mp (hsome fun _ => rfl)
  rw [hfiltered, Option.getD_some, hstored filtered hfiltered]
  decide

end Access
end MaterialOpenWebui
