import MaterialOpenWebui.Access.Permissions
import Mathlib.Order.MinMax

/-!
# `Access.Enforcement` — the permissions shown and the permissions enforced

What a path leads to in a tree has a weight: nothing, an empty dictionary, `False`, `True`, a dictionary with keys. Merging
two trees takes the greater weight at every path (`weight_combine`), and raises where a boolean is to be merged with keys
(`combine_eq_none_iff`). So the merged tree allows a path if and only if one of the trees does, as long as no two clash, and
the search through the trees finds the same if nothing stops it before.

Two things go wrong. `has_permission` fills the defaults in the object it is given, from other defaults than the ones that are
shown; and it stops with an error at a group that has a boolean on the way, where merging goes on.
-/

namespace MaterialOpenWebui
namespace Access
open Py
open Nested (Entry follow)

/-! ## Weights -/

def weight : Option (Entry Str Bool) → Nat
  | none => 0
  | some (.leaf b) => if b then 3 else 2
  | some (.node sub) => if sub = .nil then 1 else 4

theorem weight_node_pos (sub : Permissions) : 1 ≤ weight (some (.node sub)) := by
  rw [weight]
  split <;> omega

theorem weight_leaf (b : Bool) : weight (some (.leaf b)) = 2 ∨ weight (some (.leaf b)) = 3 := by
  cases b with
  | false => exact Or.inl rfl
  | true => exact Or.inr rfl

theorem weight_node_of_ne {sub : Permissions} (h : sub ≠ .nil) : weight (some (.node sub)) = 4 := if_neg h

theorem weight_le (entry : Option (Entry Str Bool)) : weight entry ≤ 4 := by
  cases entry with
  | none => exact Nat.zero_le _
  | some e =>
    cases e with
    | leaf b => rcases weight_leaf b with h | h <;> omega
    | node sub =>
      rw [weight]
      split <;> omega

/-- The weights of what is true. -/
theorem truthy_iff (entry : Entry Str Bool) : truthy entry = true ↔ 3 ≤ weight (some entry) := by
  cases entry with
  | leaf b => cases b <;> simp [truthy, weight]
  | node sub => by_cases h : sub = .nil <;> simp [truthy, weight, h]

theorem weight_most_permissive (old : Option (Entry Str Bool)) (value : Bool) :
    weight (some (most_permissive old value)) = max (weight old) (weight (some (.leaf value))) := by
  cases old with
  | none => cases value <;> rfl
  | some entry =>
    cases entry with
    | leaf b => cases b <;> cases value <;> rfl
    | node sub =>
      rw [most_permissive]
      by_cases hsub : sub = .nil
      · rw [if_pos hsub, hsub]
        cases value <;> rfl
      · rw [if_neg hsub, weight_node_of_ne hsub]
        have hle := weight_leaf value
        omega

/-- Below a boolean there is nothing, so what was there stays. -/
theorem follow_most_permissive (old : Option (Entry Str Bool)) (value : Bool) (key : Str) (keys : List Str) :
    follow (most_permissive old value) (key :: keys) = old.bind fun entry => follow entry (key :: keys) := by
  cases old with
  | none => rfl
  | some entry =>
    cases entry with
    | leaf b => rfl
    | node sub =>
      rw [most_permissive]
      split
      · rename_i hsub
        subst hsub
        rfl
      · rfl

/-- What a key holds after it was merged with what the group has there. -/
def mergedEntry (old : Option (Entry Str Bool)) : Entry Str Bool → Option (Entry Str Bool)
  | .leaf value => some (most_permissive old value)
  | .node sub =>
      match old with
      | none => (combine_permissions .nil sub).map .node
      | some (.node s) => (combine_permissions s sub).map .node
      | some (.leaf b) => if sub = .nil then some (.leaf b) else none

theorem combine_cons (permissions : Permissions) (key : Str) (entry : Entry Str Bool) (rest : Permissions) :
    combine_permissions permissions (Nested.cons key entry rest) =
      (mergedEntry (permissions.get? key) entry).bind fun e => combine_permissions (permissions.set key e) rest := by
  cases entry with
  | leaf value => rfl
  | node sub =>
    rw [Nested.cons, combine_permissions]
    cases hold : permissions.get? key with
    | none => simp only [mergedEntry, Option.bind_map, Function.comp_def]
    | some old =>
      cases old with
      | leaf b =>
        simp only [mergedEntry]
        split
        · rw [Option.bind_some, Nested.set_self hold]
        · rfl
      | node s => simp only [mergedEntry, Option.bind_map, Function.comp_def]

/-- A tree key by key. -/
theorem induct_cons {P : Permissions → Prop} (hnil : P .nil)
    (hcons : ∀ key entry rest, rest.get? key = none → rest.Wf → (∀ sub, entry = .node sub → sub.Wf) → P rest →
      P (Nested.cons key entry rest)) {t : Permissions} (hwf : t.Wf) : P t := by
  induction t with
  | nil => exact hnil
  | leaf key value rest ih =>
    exact hcons key (.leaf value) rest hwf.1 hwf.2 (fun _ h => nomatch h) (ih hwf.2)
  | node key sub rest _ ih =>
    refine hcons key (.node sub) rest hwf.1 hwf.2.2 (fun s h => ?_) (ih hwf.2.2)
    cases h
    exact hwf.2.1

/-- Every key is merged for itself, and the merge raises where one of them does. -/
structure Level (permissions group : Permissions) : Prop where
  raises : combine_permissions permissions group = none ↔
    ∃ key entry, group.get? key = some entry ∧ mergedEntry (permissions.get? key) entry = none
  kept : ∀ merged, combine_permissions permissions group = some merged →
    ∀ key, group.get? key = none → merged.get? key = permissions.get? key
  entries : ∀ merged, combine_permissions permissions group = some merged →
    ∀ key entry, group.get? key = some entry → ∃ e, mergedEntry (permissions.get? key) entry = some e ∧
      merged.get? key = some e

/-- **One level of merging.** -/
theorem combine_level {group : Permissions} (hwf : group.Wf) (permissions : Permissions) : Level permissions group := by
  refine induct_cons (P := fun group => ∀ permissions, Level permissions group) ?_ ?_ hwf permissions
  · intro permissions
    refine ⟨⟨?_, ?_⟩, ?_, ?_⟩
    · intro h
      cases h
    · rintro ⟨key, entry, h, -⟩
      cases h
    · intro merged h key _
      cases h
      rfl
    · intro merged _ key entry h
      cases h
  · intro k entry rest hfresh _ _ ih permissions
    -- the other keys are not touched by this one
    have hother : ∀ key entry', rest.get? key = some entry' → key ≠ k := by
      rintro key entry' h rfl
      rw [hfresh] at h
      cases h
    have hget : ∀ {key}, key ≠ k → (Nested.cons k entry rest).get? key = rest.get? key := by
      intro key hne
      rw [Nested.get?_cons, if_neg hne]
    have hself : (Nested.cons k entry rest).get? k = some entry := by rw [Nested.get?_cons, if_pos rfl]
    have hset : ∀ {e key}, key ≠ k → (permissions.set k e).get? key = permissions.get? key := by
      intro e key hne
      rw [Nested.get?_set, if_neg hne]
    cases he : mergedEntry (permissions.get? k) entry with
    | none =>
      have hraises : combine_permissions permissions (Nested.cons k entry rest) = none := by
        rw [combine_cons, he, Option.bind_none]
      refine ⟨iff_of_true hraises ⟨k, entry, hself, he⟩, ?_, ?_⟩
      · intro merged h
        rw [hraises] at h
        cases h
      · intro merged h
        rw [hraises] at h
        cases h
    | some e =>
      have hgoes : combine_permissions permissions (Nested.cons k entry rest) =
          combine_permissions (permissions.set k e) rest := by rw [combine_cons, he, Option.bind_some]
      obtain ⟨hraises, hkept, hentries⟩ := ih (permissions.set k e)
      rw [← hgoes] at hraises hkept hentries
      refine ⟨hraises.trans ⟨?_, ?_⟩, ?_, ?_⟩
      · rintro ⟨key, entry', hkey, hmerged⟩
        have hne := hother key entry' hkey
        exact ⟨key, entry', (hget hne).trans hkey, by rwa [hset hne] at hmerged⟩
      · rintro ⟨key, entry', hkey, hmerged⟩
        by_cases hne : key = k
        · subst hne
          rw [hself] at hkey
          cases hkey
          rw [he] at hmerged
          cases hmerged
        · exact ⟨key, entry', (hget hne).symm.trans hkey, by rwa [hset hne]⟩
      · intro merged hmerged key hkey
        have hne : key ≠ k := by
          rintro rfl
          rw [hself] at hkey
          cases hkey
        rw [hkept merged hmerged key ((hget hne).symm.trans hkey), hset hne]
      · intro merged hmerged key entry' hkey
        by_cases hne : key = k
        · subst hne
          rw [hself] at hkey
          cases hkey
          refine ⟨e, he, ?_⟩
          rw [hkept merged hmerged key hfresh, Nested.get?_set, if_pos rfl]
        · obtain ⟨e', he', hmerged'⟩ := hentries merged hmerged key entry' ((hget hne).symm.trans hkey)
          rw [hset hne] at he'
          exact ⟨e', he', hmerged'⟩

theorem follow_of_get? (t : Permissions) (key : Str) (keys : List Str) :
    follow (.node t) (key :: keys) = (t.get? key).bind fun entry => follow entry keys := rfl

/-- **Merging takes the greater weight**, at every path. -/
theorem weight_combine {group : Permissions} (hwf : group.Wf) {permissions merged : Permissions}
    (h : combine_permissions permissions group = some merged) (keys : List Str) :
    weight (follow (.node merged) keys) =
      max (weight (follow (.node permissions) keys)) (weight (follow (.node group) keys)) := by
  induction keys generalizing group permissions merged with
  | nil =>
    rw [Nested.follow_nil, Nested.follow_nil, Nested.follow_nil]
    have hpos := weight_node_pos permissions
    have hle := weight_le (some (.node permissions))
    by_cases hgroup : group = .nil
    · subst hgroup
      cases h
      show weight _ = max (weight _) 1
      omega
    · -- a key of the group's is in the merged tree
      obtain ⟨key, entry, hkey⟩ := Nested.exists_get?_of_ne_nil hgroup
      obtain ⟨e, -, hmerged⟩ := (combine_level hwf permissions).entries merged h key entry hkey
      rw [weight_node_of_ne (Nested.ne_nil_of_get? hmerged), weight_node_of_ne hgroup]
      omega
  | cons key keys ih =>
    have hkept := (combine_level hwf permissions).kept merged h
    have hentries := (combine_level hwf permissions).entries merged h
    rw [follow_of_get?, follow_of_get?, follow_of_get?]
    cases hkey : group.get? key with
    | none =>
      rw [hkept key hkey, Option.bind_none]
      exact (Nat.max_zero _).symm
    | some entry =>
      obtain ⟨e, he, hmerged⟩ := hentries key entry hkey
      rw [hmerged, Option.bind_some, Option.bind_some]
      cases entry with
      | leaf value =>
        cases he
        cases keys with
        | nil =>
          simp only [Nested.follow_nil, weight_most_permissive]
          cases permissions.get? key <;> rfl
        | cons key' keys =>
          rw [follow_most_permissive, Nested.follow_leaf_cons]
          exact (Nat.max_zero _).symm
      | node sub =>
        have hsub : sub.Wf := hwf.of_get? hkey
        cases hold : permissions.get? key with
        | none =>
          rw [hold] at he
          obtain ⟨s, hs, rfl⟩ := Option.map_eq_some_iff.mp he
          rw [ih hsub hs, Option.bind_none]
          -- an empty dictionary was put there first, and it weighs no more than the group's
          cases keys with
          | nil =>
            have hpos := weight_node_pos sub
            rw [Nested.follow_nil, Nested.follow_nil]
            show max 1 _ = max 0 _
            omega
          | cons key' keys => rfl
        | some old =>
          rw [hold] at he
          cases old with
          | leaf b =>
            rw [mergedEntry] at he
            split at he
            · rename_i hnil
              subst hnil
              cases he
              rw [Option.bind_some]
              cases keys with
              | nil =>
                rw [Nested.follow_nil, Nested.follow_nil]
                cases b <;> rfl
              | cons key' keys => rfl
            · cases he
          | node s =>
            obtain ⟨s', hs', rfl⟩ := Option.map_eq_some_iff.mp he
            rw [ih hsub hs', Option.bind_some]

/-! ## What a path leads to -/

/-- The path ends in a boolean. -/
def HasFlag (t : Permissions) (keys : List Str) : Prop := ∃ b, follow (.node t) keys = some (.leaf b)

/-- The path ends in a dictionary that has keys. -/
def Branches (t : Permissions) (keys : List Str) : Prop := ∃ sub, sub ≠ .nil ∧ follow (.node t) keys = some (.node sub)

/-- The path ends in `True` or in a dictionary that has keys. -/
def Allows (t : Permissions) (keys : List Str) : Prop := ∃ entry, follow (.node t) keys = some entry ∧ truthy entry = true

/-- There is a boolean before the end of the path. -/
def Blocks (t : Permissions) (keys : List Str) : Prop := ∃ before key after, keys = before ++ key :: after ∧ HasFlag t before

/-- Two trees, of which one has a boolean where a later one has keys, and none before the later one has keys there. -/
def Clash (trees : List Permissions) : Prop :=
  ∃ earlier t later keys, trees = earlier ++ t :: later ∧ Branches t keys ∧ (∃ e ∈ earlier, HasFlag e keys) ∧
    ∀ e ∈ earlier, ¬Branches e keys

theorem branches_iff (t : Permissions) (keys : List Str) : Branches t keys ↔ 4 ≤ weight (follow (.node t) keys) := by
  constructor
  · rintro ⟨sub, hne, hfollow⟩
    rw [hfollow, weight_node_of_ne hne]
  · intro h
    cases hfollow : follow (.node t) keys with
    | none =>
      rw [hfollow] at h
      exact absurd h (by decide)
    | some entry =>
      rw [hfollow] at h
      cases entry with
      | leaf b =>
        have hle := weight_leaf b
        omega
      | node sub =>
        refine ⟨sub, ?_, hfollow⟩
        rintro rfl
        exact absurd h (by decide)

theorem hasFlag_iff (t : Permissions) (keys : List Str) :
    HasFlag t keys ↔ 2 ≤ weight (follow (.node t) keys) ∧ ¬4 ≤ weight (follow (.node t) keys) := by
  constructor
  · rintro ⟨b, hfollow⟩
    have hle := weight_leaf b
    rw [hfollow]
    omega
  · rintro ⟨hle, hlt⟩
    cases hfollow : follow (.node t) keys with
    | none =>
      rw [hfollow] at hle
      exact absurd hle (by decide)
    | some entry =>
      rw [hfollow] at hle hlt
      cases entry with
      | leaf b => exact ⟨b, hfollow⟩
      | node sub =>
        by_cases hsub : sub = .nil
        · subst hsub
          exact absurd hle (by decide)
        · rw [weight_node_of_ne hsub] at hlt
          omega

theorem allows_iff (t : Permissions) (keys : List Str) : Allows t keys ↔ 3 ≤ weight (follow (.node t) keys) := by
  rw [Allows]
  cases follow (.node t) keys with
  | none => simp [weight]
  | some entry => simp [truthy_iff]

/-- Where a merge raises: a boolean is to take keys. -/
theorem combine_eq_none_iff {group : Permissions} (hwf : group.Wf) (permissions : Permissions) :
    combine_permissions permissions group = none ↔ ∃ keys, HasFlag permissions keys ∧ Branches group keys := by
  constructor
  · -- by induction on the size of the group's tree, into the key that raises
    induction hsize : group.size using Nat.strongRecOn generalizing group permissions with
    | ind n ih =>
      intro h
      obtain ⟨key, entry, hkey, hmerged⟩ := (combine_level hwf permissions).raises.mp h
      cases entry with
      | leaf value => cases hmerged
      | node sub =>
        have hlt := Nested.size_of_get? hkey
        have hsub := hwf.of_get? hkey
        cases hold : permissions.get? key with
        | none =>
          rw [hold] at hmerged
          obtain ⟨keys, ⟨b, hflag⟩, -⟩ := ih sub.size (by omega) hsub .nil rfl (Option.map_eq_none_iff.mp hmerged)
          cases keys <;> cases hflag
        | some old =>
          rw [hold] at hmerged
          cases old with
          | leaf b =>
            rw [mergedEntry] at hmerged
            split at hmerged
            · cases hmerged
            · rename_i hne
              refine ⟨[key], ⟨b, ?_⟩, sub, hne, ?_⟩
              · rw [follow_of_get?, hold]; rfl
              · rw [follow_of_get?, hkey]; rfl
          | node s =>
            obtain ⟨keys, ⟨b, hflag⟩, sub', hne, hbranch⟩ :=
              ih sub.size (by omega) hsub s rfl (Option.map_eq_none_iff.mp hmerged)
            refine ⟨key :: keys, ⟨b, ?_⟩, sub', hne, ?_⟩
            · rw [follow_of_get?, hold]; exact hflag
            · rw [follow_of_get?, hkey]; exact hbranch
  · rintro ⟨keys, ⟨b, hflag⟩, sub, hne, hbranch⟩
    induction keys generalizing group permissions with
    | nil => cases hflag
    | cons key keys ih =>
      obtain ⟨old, hold, hflag⟩ := Option.bind_eq_some_iff.mp hflag
      obtain ⟨entry, hentry, hbranch⟩ := Option.bind_eq_some_iff.mp hbranch
      refine (combine_level hwf permissions).raises.mpr ⟨key, entry, hentry, ?_⟩
      rw [hold]
      cases entry with
      | leaf value => cases keys <;> cases hbranch
      | node sub' =>
        cases old with
        | leaf b' =>
          cases keys with
          | nil =>
            cases hbranch
            exact if_neg hne
          | cons key' keys => cases hflag
        | node s => exact Option.map_eq_none_iff.mpr (ih (hwf.of_get? hentry) s hflag hbranch)

/-! ## Many trees -/

theorem combine_groups_append (permissions : Permissions) (groups groups' : List Group) :
    combine_groups permissions (groups ++ groups') =
      (combine_groups permissions groups).bind fun p => combine_groups p groups' := by
  induction groups generalizing permissions with
  | nil => rfl
  | cons group groups ih =>
    rw [List.cons_append, combine_groups, combine_groups, Option.bind_assoc]
    exact congrArg _ (funext ih)

/-- The weight of the merged tree is that of the heaviest. -/
theorem le_weight_combine_groups {permissions merged : Permissions} {groups : List Group}
    (h : combine_groups permissions groups = some merged) (n : Nat) (keys : List Str) :
    n ≤ weight (follow (.node merged) keys) ↔
      ∃ t ∈ permissions :: groups.map Group.tree, n ≤ weight (follow (.node t) keys) := by
  induction groups generalizing permissions with
  | nil =>
    cases h
    simp
  | cons group groups ih =>
    obtain ⟨p, hp, hrest⟩ := Option.bind_eq_some_iff.mp h
    rw [ih hrest, List.exists_mem_cons_iff, weight_combine group.wf_tree hp, le_max_iff, List.map_cons,
      List.exists_mem_cons_iff, List.exists_mem_cons_iff, or_assoc]

theorem exists_raising {permissions : Permissions} {groups : List Group} (h : combine_groups permissions groups = none) :
    ∃ before group after merged, groups = before ++ group :: after ∧ combine_groups permissions before = some merged ∧
      combine_permissions merged group.tree = none := by
  induction groups generalizing permissions with
  | nil => cases h
  | cons group groups ih =>
    rw [combine_groups] at h
    cases hp : combine_permissions permissions group.tree with
    | none => exact ⟨[], group, groups, permissions, rfl, rfl, hp⟩
    | some p =>
      rw [hp, Option.bind_some] at h
      obtain ⟨before, group', after, merged, rfl, hbefore, hraises⟩ := ih h
      exact ⟨group :: before, group', after, merged, rfl, by rw [combine_groups, hp]; exact hbefore, hraises⟩

/-- **When the merge of all trees raises.** -/
theorem combine_groups_eq_none_iff (permissions : Permissions) (groups : List Group) :
    combine_groups permissions groups = none ↔ Clash (permissions :: groups.map Group.tree) := by
  constructor
  · intro h
    obtain ⟨before, group, after, merged, rfl, hmerged, hraises⟩ := exists_raising h
    obtain ⟨keys, hflag, hbranches⟩ := (combine_eq_none_iff group.wf_tree merged).mp hraises
    obtain ⟨hle, hlt⟩ := (hasFlag_iff _ _).mp hflag
    rw [le_weight_combine_groups hmerged] at hle hlt
    have hno : ∀ e ∈ permissions :: before.map Group.tree, ¬4 ≤ weight (follow (.node e) keys) :=
      fun e he hbranch => hlt ⟨e, he, hbranch⟩
    obtain ⟨e, he, hle⟩ := hle
    refine ⟨permissions :: before.map Group.tree, group.tree, after.map Group.tree, keys, by simp, hbranches, ?_, ?_⟩
    · exact ⟨e, he, (hasFlag_iff _ _).mpr ⟨hle, hno e he⟩⟩
    · exact fun e he hb => hno e he ((branches_iff _ _).mp hb)
  · rintro ⟨earlier, t, later, keys, htrees, hbranches, ⟨e, he, hflag⟩, hno⟩
    -- the defaults are the first of the earlier trees
    obtain ⟨before, rfl⟩ : ∃ before, earlier = permissions :: before := by
      cases earlier with
      | nil => exact absurd he List.not_mem_nil
      | cons first before =>
        rw [List.cons_append, List.cons.injEq] at htrees
        exact ⟨before, by rw [htrees.1]⟩
    rw [List.cons_append, List.cons.injEq] at htrees
    obtain ⟨pre, rest, rfl, rfl, hrest⟩ := List.map_eq_append_iff.mp htrees.2
    obtain ⟨group, after, rfl, rfl, rfl⟩ := List.map_eq_cons_iff.mp hrest
    rw [combine_groups_append]
    cases hmerged : combine_groups permissions pre with
    | none => rfl
    | some merged =>
      rw [Option.bind_some, combine_groups]
      have hflag' : HasFlag merged keys := by
        rw [hasFlag_iff, le_weight_combine_groups hmerged, le_weight_combine_groups hmerged]
        refine ⟨⟨e, he, ((hasFlag_iff _ _).mp hflag).1⟩, ?_⟩
        rintro ⟨e', he', hle⟩
        exact hno e' he' ((branches_iff _ _).mpr hle)
      rw [(combine_eq_none_iff group.wf_tree merged).mpr ⟨keys, hflag', hbranches⟩, Option.bind_none]

/-- Nothing is lacking in a tree that has at least the weight of the template at every path below it. -/
theorem covers_of_weight {template : Permissions} (hwf : template.Wf) {t : Permissions}
    (h : ∀ key keys, weight (follow (.node template) (key :: keys)) ≤ weight (follow (.node t) (key :: keys))) :
    t.Covers template := by
  induction template generalizing t with
  | nil => exact trivial
  | leaf k value rest ih =>
    have hrest : t.Covers rest := by
      refine ih hwf.2 fun key keys => ?_
      by_cases hk : key = k
      · rw [follow_of_get?, hk, hwf.1]
        exact Nat.zero_le _
      · have hle := h key keys
        rwa [follow_of_get?, Nested.get?, if_neg hk] at hle
    refine ⟨fun hnone => ?_, hrest⟩
    have hle := h k []
    rw [follow_of_get?, follow_of_get?, Nested.get?, if_pos rfl, hnone] at hle
    have hleaf := weight_leaf value
    change weight (some (.leaf value)) ≤ 0 at hle
    omega
  | node k sub rest ihsub ihrest =>
    have hrest : t.Covers rest := by
      refine ihrest hwf.2.2 fun key keys => ?_
      by_cases hk : key = k
      · rw [follow_of_get?, hk, hwf.1]
        exact Nat.zero_le _
      · have hle := h key keys
        rwa [follow_of_get?, Nested.get?, if_neg hk] at hle
    refine ⟨?_, hrest⟩
    have hk : (Nested.node k sub rest).get? k = some (.node sub) := by rw [Nested.get?, if_pos rfl]
    cases hget : t.get? k with
    | none =>
      have hle := h k []
      rw [follow_of_get?, follow_of_get?, hk, hget] at hle
      have hpos := weight_node_pos sub
      change weight (some (.node sub)) ≤ 0 at hle
      omega
    | some entry =>
      cases entry with
      | leaf b => exact trivial
      | node s =>
        refine ihsub hwf.2.1 fun key keys => ?_
        have hle := h k (key :: keys)
        rwa [follow_of_get?, follow_of_get?, hk, hget] at hle

/-- **What is shown**: a path is allowed by the merged tree if no trees clash and one of them allows it. -/
theorem shown_iff (get_groups_by_member_id : Str → List Group) (user_id : Str) (defaults : Defaults) (keys : List Str) :
    (∃ permissions, (get_permissions get_groups_by_member_id user_id defaults.tree).1 = some permissions ∧
        Allows permissions keys) ↔
      ¬Clash (defaults.tree :: (get_groups_by_member_id user_id).map Group.tree) ∧
        ∃ t ∈ defaults.tree :: (get_groups_by_member_id user_id).map Group.tree, Allows t keys := by
  rw [← combine_groups_eq_none_iff]
  cases hmerged : combine_groups defaults.tree (get_groups_by_member_id user_id) with
  | none => simp [get_permissions, hmerged]
  | some merged =>
    -- all keys of the defaults are there, so filling changes nothing
    have hcovers : merged.Covers defaults.tree := covers_of_weight defaults.wf fun key keys =>
      (le_weight_combine_groups hmerged _ _).mpr ⟨defaults.tree, List.mem_cons_self, Nat.le_refl _⟩
    have hget : (get_permissions get_groups_by_member_id user_id defaults.tree).1 = some merged := by
      rw [get_permissions, hmerged, Option.map_some, fill_missing_permissions, Nested.fill_of_covers hcovers]
    rw [hget, and_iff_right (Option.some_ne_none merged)]
    simp only [Option.some_inj, exists_eq_left', allows_iff]
    exact le_weight_combine_groups hmerged 3 keys

/-! ## The search -/

theorem get_permission_true_iff (t : Permissions) (keys : List Str) :
    get_permission (.node t) keys = some true ↔ Allows t keys := by
  rw [Allows]
  suffices h : ∀ entry : Entry Str Bool, get_permission entry keys = some true ↔
      ∃ e, follow entry keys = some e ∧ truthy e = true from h _
  induction keys with
  | nil =>
    intro entry
    cases entry <;> simp [get_permission]
  | cons key keys ih =>
    intro entry
    cases entry with
    | leaf b => simp [get_permission]
    | node t =>
      rw [get_permission, Nested.follow_node_cons]
      cases t.get? key with
      | none => simp
      | some entry => exact ih entry

theorem get_permission_none_iff (t : Permissions) (keys : List Str) :
    get_permission (.node t) keys = none ↔ Blocks t keys := by
  induction keys generalizing t with
  | nil =>
    refine iff_of_false (fun h => nomatch h) ?_
    rintro ⟨before, key, after, h, -⟩
    exact absurd h (by simp)
  | cons key keys ih =>
    rw [get_permission]
    constructor
    · intro h
      cases hkey : t.get? key with
      | none =>
        rw [hkey] at h
        cases h
      | some entry =>
        rw [hkey] at h
        cases entry with
        | leaf b =>
          cases keys with
          | nil => cases h
          | cons key' keys =>
            exact ⟨[key], key', keys, rfl, b, by rw [follow_of_get?, hkey]; rfl⟩
        | node s =>
          obtain ⟨before, key', after, rfl, b, hflag⟩ := (ih s).mp h
          exact ⟨key :: before, key', after, rfl, b, by rw [follow_of_get?, hkey]; exact hflag⟩
    · rintro ⟨before, key', after, hkeys, b, hflag⟩
      cases before with
      | nil => cases hflag
      | cons first before =>
        obtain ⟨rfl, rfl⟩ := List.cons.inj hkeys
        obtain ⟨entry, hentry, hflag⟩ := Option.bind_eq_some_iff.mp hflag
        rw [hentry]
        cases entry with
        | leaf b' =>
          cases before with
          | nil => rfl
          | cons _ _ => cases hflag
        | node s => exact (ih s).mpr ⟨before, key', after, rfl, b, hflag⟩

/-- The first of a list that has the property. -/
theorem exists_first {α : Type} (p : α → Prop) {l : List α} (h : ∃ a ∈ l, p a) :
    ∃ before a after, l = before ++ a :: after ∧ (∀ b ∈ before, ¬p b) ∧ p a := by
  classical
  obtain ⟨a, ha, hp⟩ := h
  obtain ⟨first, hfirst⟩ := Option.isSome_iff_exists.mp
    (List.find?_isSome.mpr ⟨a, ha, decide_eq_true hp⟩ : (l.find? fun a => decide (p a)).isSome = true)
  obtain ⟨hpfirst, before, after, heq, hbefore⟩ := List.find?_eq_some_iff_append.mp hfirst
  exact ⟨before, first, after, heq, fun b hb => by simpa using hbefore b hb, of_decide_eq_true hpfirst⟩

/-- A group whose tree neither allows the path nor stops the search. -/
def Passes (keys : List Str) (group : Group) : Prop := ¬Allows group.tree keys ∧ ¬Blocks group.tree keys

theorem get_permission_of_passes {keys : List Str} {group : Group} (h : Passes keys group) :
    get_permission (.node group.tree) keys = some false := by
  cases hget : get_permission (.node group.tree) keys with
  | none => exact absurd ((get_permission_none_iff _ _).mp hget) h.2
  | some b =>
    cases b with
    | false => rfl
    | true => exact absurd ((get_permission_true_iff _ _).mp hget) h.1

section
variable (constant : String → Bool) (get_groups_by_member_id : Str → List Group) (user_id permission_key : Str)
variable (defaults : Permissions)

/-- The keys of the path. -/
abbrev keysOf (permission_key : Str) : List Str := permission_key.splitOn (ofChar '.')

/-- The groups that pass are passed. -/
theorem search_append {before after : List Group} (h : ∀ group ∈ before, Passes (keysOf permission_key) group) :
    has_permission.search constant defaults (keysOf permission_key) (before ++ after) =
      has_permission.search constant defaults (keysOf permission_key) after := by
  induction before with
  | nil => rfl
  | cons group before ih =>
    rw [List.cons_append, has_permission.search, get_permission_of_passes (h group List.mem_cons_self)]
    exact ih fun g hg => h g (List.mem_cons_of_mem _ hg)

/-- `has_permission` says yes exactly where the tree that is shown does, and both leave the defaults alone. -/
def Agrees : Prop :=
  let enforced := has_permission constant get_groups_by_member_id user_id permission_key defaults
  let shown := get_permissions get_groups_by_member_id user_id defaults
  (enforced.1 = some true ↔ ∃ permissions, shown.1 = some permissions ∧ Allows permissions (keysOf permission_key)) ∧
    enforced.2 = defaults ∧ shown.2 = defaults

/-- All the trees, in the order in which they are merged. -/
def trees : List Permissions := defaults :: (get_groups_by_member_id user_id).map Group.tree

/-- The first group whose tree allows the path or has a boolean on the way, and what the trees must then be. -/
def DecidedByGroup : Prop :=
  ∃ before group after, get_groups_by_member_id user_id = before ++ group :: after ∧
    (∀ g ∈ before, Passes (keysOf permission_key) g) ∧
    (Allows group.tree (keysOf permission_key) ∧ ¬Clash (trees get_groups_by_member_id user_id defaults) ∨
      Blocks group.tree (keysOf permission_key) ∧
        (Clash (trees get_groups_by_member_id user_id defaults) ∨
          ∀ t ∈ trees get_groups_by_member_id user_id defaults, ¬Allows t (keysOf permission_key)))

/-- No group decides, the defaults lack nothing, and they do not allow the path where trees clash. -/
def DecidedByDefaults : Prop :=
  (∀ g ∈ get_groups_by_member_id user_id, Passes (keysOf permission_key) g) ∧
    defaults.Covers (DEFAULT_USER_PERMISSIONS constant) ∧
    (Allows defaults (keysOf permission_key) → ¬Clash (trees get_groups_by_member_id user_id defaults))

end

section
variable (constant : String → Bool) {get_groups_by_member_id : Str → List Group} {user_id permission_key : Str}
variable (defaults : Defaults)

theorem agrees_iff_of_group {before after : List Group} {group : Group}
    (hgroups : get_groups_by_member_id user_id = before ++ group :: after)
    (hbefore : ∀ g ∈ before, Passes (keysOf permission_key) g) (hdecides : ¬Passes (keysOf permission_key) group) :
    Agrees constant get_groups_by_member_id user_id permission_key defaults.tree ↔
      (Allows group.tree (keysOf permission_key) ∧ ¬Clash (trees get_groups_by_member_id user_id defaults.tree) ∨
        Blocks group.tree (keysOf permission_key) ∧
          (Clash (trees get_groups_by_member_id user_id defaults.tree) ∨
            ∀ t ∈ trees get_groups_by_member_id user_id defaults.tree, ¬Allows t (keysOf permission_key))) := by
  have hsearch : has_permission constant get_groups_by_member_id user_id permission_key defaults.tree =
      has_permission.search constant defaults.tree (keysOf permission_key) (group :: after) := by
    rw [has_permission, hgroups]
    exact search_append constant permission_key defaults.tree hbefore
  have hmem : group.tree ∈ trees get_groups_by_member_id user_id defaults.tree := by
    rw [trees, hgroups]
    simp
  rw [Agrees, hsearch, shown_iff, ← trees]
  by_cases hallows : Allows group.tree (keysOf permission_key)
  · have htrue := (get_permission_true_iff _ _).mpr hallows
    have hblocks : ¬Blocks group.tree (keysOf permission_key) := by
      intro h
      rw [(get_permission_none_iff _ _).mpr h] at htrue
      cases htrue
    rw [has_permission.search, htrue]
    constructor
    · rintro ⟨hiff, -⟩
      exact Or.inl ⟨hallows, (hiff.mp rfl).1⟩
    · rintro (⟨-, hclash⟩ | ⟨hb, -⟩)
      · exact ⟨⟨fun _ => ⟨hclash, group.tree, hmem, hallows⟩, fun _ => rfl⟩, rfl, rfl⟩
      · exact absurd hb hblocks
  · have hblocks : Blocks group.tree (keysOf permission_key) := by
      by_contra h
      exact hdecides ⟨hallows, h⟩
    rw [has_permission.search, (get_permission_none_iff _ _).mpr hblocks]
    constructor
    · rintro ⟨hiff, -⟩
      refine Or.inr ⟨hblocks, ?_⟩
      by_contra h
      push Not at h
      exact nomatch hiff.mpr h
    · rintro (⟨ha, -⟩ | ⟨-, hnone⟩)
      · exact absurd ha hallows
      · refine ⟨⟨?_, ?_⟩, rfl, rfl⟩
        · intro h
          cases h
        · rintro ⟨hclash, t, ht, ha⟩
          rcases hnone with hc | hno
          · exact absurd hc hclash
          · exact absurd ha (hno t ht)

theorem agrees_iff_of_defaults (hpasses : ∀ g ∈ get_groups_by_member_id user_id, Passes (keysOf permission_key) g) :
    Agrees constant get_groups_by_member_id user_id permission_key defaults.tree ↔
      defaults.tree.Covers (DEFAULT_USER_PERMISSIONS constant) ∧
        (Allows defaults.tree (keysOf permission_key) →
          ¬Clash (trees get_groups_by_member_id user_id defaults.tree)) := by
  have hsearch : has_permission constant get_groups_by_member_id user_id permission_key defaults.tree =
      has_permission.search constant defaults.tree (keysOf permission_key) [] := by
    rw [has_permission, ← List.append_nil (get_groups_by_member_id user_id)]
    exact search_append constant permission_key defaults.tree hpasses
  rw [Agrees, hsearch, shown_iff, ← trees, has_permission.search, fill_missing_permissions]
  dsimp only
  have hallowed : (∃ t ∈ trees get_groups_by_member_id user_id defaults.tree, Allows t (keysOf permission_key)) ↔
      Allows defaults.tree (keysOf permission_key) := by
    constructor
    · rintro ⟨t, ht, ha⟩
      rcases List.mem_cons.mp ht with rfl | ht
      · exact ha
      · obtain ⟨g, hg, rfl⟩ := List.mem_map.mp ht
        exact absurd ha (hpasses g hg).1
    · exact fun ha => ⟨defaults.tree, List.mem_cons_self, ha⟩
  rw [hallowed, Nested.fill_eq_self_iff]
  constructor
  · rintro ⟨hiff, hcovers, -⟩
    rw [Nested.fill_of_covers hcovers, get_permission_true_iff] at hiff
    exact ⟨hcovers, fun ha => (hiff.mp ha).1⟩
  · rintro ⟨hcovers, hclash⟩
    rw [Nested.fill_of_covers hcovers, get_permission_true_iff]
    exact ⟨⟨fun ha => ⟨hclash ha, ha⟩, fun h => h.2⟩, hcovers, rfl⟩

/-- **When what is shown is what is enforced.** Either a group decides, the first that allows the path or has a boolean on the
way: then no trees clash if it allows the path, and if it has a boolean there the merge fails too or no tree allows the path.
Or none does: then the defaults have every key of the source's defaults, and no trees clash if they allow the path. -/
theorem shown_iff_enforced :
    Agrees constant get_groups_by_member_id user_id permission_key defaults.tree ↔
      DecidedByGroup get_groups_by_member_id user_id permission_key defaults.tree ∨
        DecidedByDefaults constant get_groups_by_member_id user_id permission_key defaults.tree := by
  classical
  constructor
  · intro hagrees
    by_cases hpasses : ∀ g ∈ get_groups_by_member_id user_id, Passes (keysOf permission_key) g
    · exact Or.inr ⟨hpasses, (agrees_iff_of_defaults constant defaults hpasses).mp hagrees⟩
    · obtain ⟨before, group, after, hgroups, hbefore, hdecides⟩ :=
        exists_first (fun g => ¬Passes (keysOf permission_key) g) (by simpa using hpasses)
      have hbefore' : ∀ g ∈ before, Passes (keysOf permission_key) g := fun g hg => not_not.mp (hbefore g hg)
      exact Or.inl ⟨before, group, after, hgroups, hbefore',
        (agrees_iff_of_group constant defaults hgroups hbefore' hdecides).mp hagrees⟩
  · rintro (⟨before, group, after, hgroups, hbefore, hdecided⟩ | ⟨hpasses, hdecided⟩)
    · refine (agrees_iff_of_group constant defaults hgroups hbefore ?_).mpr hdecided
      rcases hdecided with ⟨ha, -⟩ | ⟨hb, -⟩
      · exact fun h => h.1 ha
      · exact fun h => h.2 hb
    · exact (agrees_iff_of_defaults constant defaults hpasses).mpr hdecided

end

/-- No groups, and defaults without a key that the source's defaults allow: it is enforced and not shown, and the defaults
have grown. -/
theorem allowed_not_shown :
    ¬∀ (constant : String → Bool) (get_groups_by_member_id : Str → List Group) (user_id permission_key : Str)
      (defaults : Defaults), Agrees constant get_groups_by_member_id user_id permission_key defaults.tree := by
  intro h
  have hagrees := h (fun _ => true) (fun _ => []) (py "u") (py "settings.interface") ⟨.nil, trivial⟩
  exact absurd hagrees.2.1 (by decide)

end Access
end MaterialOpenWebui
