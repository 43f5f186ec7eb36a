import MaterialOpenWebui.Tabs.Invariant
import MaterialOpenWebui.Lib.AllSome
import Mathlib.Data.Nat.Cast.Order.Ring

/-!
# `Tabs.Layout` — pinned tabs, then each group, then the rest

`LaidOut` says how the strip reads: the pinned tabs, the members of each group in group order, the loose
tabs; nothing is pinned and grouped at once, and groups share neither identifiers nor order numbers. The
operations keep it by sorting the tabs by `rank`, so the invariant carried along a run is `Arranged`: the
tabs ascend in `rank`, and groups and tabs are `Placed` so that ranks tell the regions apart.

Two operations are not careful enough to keep it, and are conditions of `Tidy`: `setPinned` pins a tab that
is in a group, and `createGroup` numbers the group by how many there are, whatever their numbers.
-/

namespace MaterialOpenWebui
namespace Tabs
open Js Run StableSort

/-- The tabs of a group that are shown there. -/
def membersOf (tabs : List Tab) (g : Group) : List Tab :=
  tabs.filter (fun t => !t.pinned && t.group = some g.id)

/-- How the strip reads. -/
structure LaidOut (m : Model) : Prop where
  strip : m.tabs = m.tabs.filter Tab.pinned ++ (sortOn Group.order m.groups).flatMap (membersOf m.tabs) ++
    m.tabs.filter (fun t => !t.pinned && t.group = none)
  apart : ∀ t ∈ m.tabs, ¬ (t.pinned = true ∧ t.group ≠ none)
  ids : (m.groups.map Group.id).Nodup
  orders : (m.groups.map Group.order).Nodup

/-- Tabs and groups whose ranks tell the regions apart. -/
structure Placed (tabs : List Tab) (groups : List Group) : Prop where
  apart : ∀ t ∈ tabs, t.pinned = true → t.group = none
  grouped : ∀ t ∈ tabs, ∀ g, t.group = some g → g ∈ groups.map Group.id
  named : ∀ g ∈ groups, g.id ≠ []
  ids : (groups.map Group.id).Nodup
  orders : (groups.map Group.order).Nodup
  between : ∀ g ∈ groups, -1 < g.order ∧ g.order < maxSafeInteger
  few : groups.length ≤ maxGroups

/-- The invariant of a run. -/
structure Arranged (m : Model) : Prop where
  placed : Placed m.tabs m.groups
  ascending : Ascending (rank m.groups) m.tabs

/-! ## Ranks -/

/-- With unique identifiers, a group has the order it says. -/
theorem groupOrder_eq {groups : List Group} (h : (groups.map Group.id).Nodup) {g : Group} (hg : g ∈ groups) :
    groupOrder groups g.id = some g.order := by
  have hone : ∀ x ∈ groups.filter (fun x => x.id = g.id), x = g := by
    intro x hx
    obtain ⟨hx, hid⟩ := List.mem_filter.mp hx
    exact List.inj_on_of_nodup_map h hx hg (by simpa using hid)
  have hmem : g ∈ groups.filter (fun x => x.id = g.id) := List.mem_filter.mpr ⟨hg, by simp⟩
  unfold groupOrder
  cases hlast : (groups.filter (fun x => x.id = g.id)).getLast? with
  | none =>
    rw [List.getLast?_eq_none_iff.mp hlast] at hmem
    exact absurd hmem List.not_mem_nil
  | some x => rw [hone x (List.mem_of_getLast? hlast), Option.map_some]

theorem rank_pinned {groups : List Group} {t : Tab} (h : t.pinned = true) : rank groups t = -1 := by
  rw [rank, if_pos h]

theorem rank_loose {groups : List Group} {t : Tab} (hp : t.pinned = false) (hg : t.group = none) :
    rank groups t = maxSafeInteger := by
  simp [rank, hp, hg]

theorem Placed.rank_member {tabs : List Tab} {groups : List Group} (h : Placed tabs groups) {t : Tab}
    {g : Group} (hg : g ∈ groups) (hp : t.pinned = false) (ht : t.group = some g.id) :
    rank groups t = g.order := by
  simp [rank, hp, ht, h.named g hg, groupOrder_eq h.ids hg]

/-- A tab is pinned, loose, or a member of a group that exists. -/
theorem Placed.cases {tabs : List Tab} {groups : List Group} (h : Placed tabs groups) {t : Tab}
    (ht : t ∈ tabs) : t.pinned = true ∨ (t.pinned = false ∧ t.group = none) ∨
      ∃ g ∈ groups, t.pinned = false ∧ t.group = some g.id := by
  cases hp : t.pinned with
  | true => exact Or.inl rfl
  | false =>
    cases hg : t.group with
    | none => exact Or.inr (Or.inl ⟨rfl, rfl⟩)
    | some id =>
      obtain ⟨g, hmem, hid⟩ := List.mem_map.mp (h.grouped t ht id hg)
      exact Or.inr (Or.inr ⟨g, hmem, rfl, by rw [hid]⟩)

theorem Placed.rank_eq_neg_one {tabs : List Tab} {groups : List Group} (h : Placed tabs groups) {t : Tab}
    (ht : t ∈ tabs) : rank groups t = -1 ↔ t.pinned = true := by
  refine ⟨fun hr => ?_, rank_pinned⟩
  rcases h.cases ht with hp | ⟨hp, hg⟩ | ⟨g, hmem, hp, hg⟩
  · exact hp
  · rw [rank_loose hp hg] at hr
    exact absurd hr (by decide +kernel)
  · rw [h.rank_member hmem hp hg] at hr
    exact absurd hr (ne_of_gt (h.between g hmem).1)

theorem Placed.rank_eq_max {tabs : List Tab} {groups : List Group} (h : Placed tabs groups) {t : Tab}
    (ht : t ∈ tabs) : rank groups t = maxSafeInteger ↔ t.pinned = false ∧ t.group = none := by
  refine ⟨fun hr => ?_, fun ht => rank_loose ht.1 ht.2⟩
  rcases h.cases ht with hp | hloose | ⟨g, hmem, hp, hg⟩
  · rw [rank_pinned hp] at hr
    exact absurd hr (by decide +kernel)
  · exact hloose
  · rw [h.rank_member hmem hp hg] at hr
    exact absurd hr (ne_of_lt (h.between g hmem).2)

theorem Placed.rank_eq_order {tabs : List Tab} {groups : List Group} (h : Placed tabs groups) {t : Tab}
    (ht : t ∈ tabs) {g : Group} (hg : g ∈ groups) :
    rank groups t = g.order ↔ t.pinned = false ∧ t.group = some g.id := by
  refine ⟨fun hr => ?_, fun ht => h.rank_member hg ht.1 ht.2⟩
  rcases h.cases ht with hp | ⟨hp, hnone⟩ | ⟨g', hmem, hp, hg'⟩
  · rw [rank_pinned hp] at hr
    exact absurd hr (ne_of_lt (h.between g hg).1)
  · rw [rank_loose hp hnone] at hr
    exact absurd hr (ne_of_gt (h.between g hg).2)
  · rw [h.rank_member hmem hp hg'] at hr
    rw [List.inj_on_of_nodup_map h.orders hmem hg hr] at hg'
    exact ⟨hp, hg'⟩

/-! ## The layout -/

/-- The ranks there can be, in ascending order. -/
def ranks (groups : List Group) : List ℚ :=
  -1 :: ((sortOn Group.order groups).map Group.order ++ [maxSafeInteger])

theorem Placed.ascending_ranks {tabs : List Tab} {groups : List Group} (h : Placed tabs groups) :
    (ranks groups).Pairwise (· < ·) := by
  have hmem : ∀ q ∈ (sortOn Group.order groups).map Group.order, -1 < q ∧ q < maxSafeInteger := by
    intro q hq
    obtain ⟨g, hg, rfl⟩ := List.mem_map.mp hq
    exact h.between g ((mem_sortOn _).mp hg)
  have hnodup : ((sortOn Group.order groups).map Group.order).Nodup :=
    ((perm_sortOn _ groups).map Group.order).nodup_iff.mpr h.orders
  have hle : ((sortOn Group.order groups).map Group.order).Pairwise (· ≤ ·) :=
    List.pairwise_map.mpr (ascending_sortOn _ groups)
  refine List.pairwise_cons.mpr ⟨?_, List.pairwise_append.mpr ⟨?_, by simp, ?_⟩⟩
  · intro q hq
    rcases List.mem_append.mp hq with hq | hq
    · exact (hmem q hq).1
    · rw [List.mem_singleton.mp hq]
      decide +kernel
  · exact (hle.and hnodup).imp (fun hab => lt_of_le_of_ne hab.1 hab.2)
  · intro q hq r hr
    rw [List.mem_singleton.mp hr]
    exact (hmem q hq).2

theorem Placed.rank_mem_ranks {tabs : List Tab} {groups : List Group} (h : Placed tabs groups) {t : Tab}
    (ht : t ∈ tabs) : rank groups t ∈ ranks groups := by
  rcases h.cases ht with hp | ⟨hp, hg⟩ | ⟨g, hmem, hp, hg⟩
  · rw [rank_pinned hp]
    exact List.mem_cons_self
  · rw [rank_loose hp hg]
    exact List.mem_cons_of_mem _ (List.mem_append_right _ (List.mem_singleton.mpr rfl))
  · rw [h.rank_member hmem hp hg]
    refine List.mem_cons_of_mem _ (List.mem_append_left _ ?_)
    exact List.mem_map_of_mem ((mem_sortOn _).mpr hmem)

/-- **An arranged strip is laid out.** -/
theorem laidOut_of_arranged {m : Model} (h : Arranged m) : LaidOut m := by
  obtain ⟨hplaced, hascending⟩ := h
  refine ⟨?_, fun t ht hboth => hboth.2 (hplaced.apart t ht hboth.1), hplaced.ids, hplaced.orders⟩
  have hflat := hascending.eq_flatMap hplaced.ascending_ranks (fun t ht => hplaced.rank_mem_ranks ht)
  have hpinned : m.tabs.filter (fun t => rank m.groups t = -1) = m.tabs.filter Tab.pinned := by
    refine List.filter_congr fun t ht => ?_
    rw [Bool.eq_iff_iff, decide_eq_true_iff]
    exact hplaced.rank_eq_neg_one ht
  have hloose : m.tabs.filter (fun t => rank m.groups t = maxSafeInteger) =
      m.tabs.filter (fun t => !t.pinned && t.group = none) := by
    refine List.filter_congr fun t ht => ?_
    rw [Bool.eq_iff_iff, decide_eq_true_iff, hplaced.rank_eq_max ht]
    simp
  have hmembers : ∀ g ∈ sortOn Group.order m.groups,
      m.tabs.filter (fun t => rank m.groups t = g.order) = membersOf m.tabs g := by
    intro g hg
    refine List.filter_congr fun t ht => ?_
    rw [Bool.eq_iff_iff, decide_eq_true_iff, hplaced.rank_eq_order ht ((mem_sortOn _).mp hg)]
    simp
  rw [ranks, List.flatMap_cons, List.flatMap_append, List.flatMap_singleton, hpinned, hloose,
    List.flatMap_map, List.flatMap_congr hmembers, ← List.append_assoc] at hflat
  exact hflat

/-! ## What keeps tabs and groups placed -/

/-- Fewer or reordered tabs stay placed. -/
theorem Placed.of_subset {tabs tabs' : List Tab} {groups : List Group} (h : Placed tabs groups)
    (hsub : ∀ t ∈ tabs', t ∈ tabs) : Placed tabs' groups :=
  { h with apart := fun t ht => h.apart t (hsub t ht), grouped := fun t ht => h.grouped t (hsub t ht) }

/-- Ordering placed tabs arranges the strip. -/
theorem Placed.arranged {tabs : List Tab} {groups : List Group} (h : Placed tabs groups)
    (activeTab : JsString) (dock : Dock) : Arranged ⟨ordered tabs groups, groups, activeTab, dock⟩ :=
  ⟨h.of_subset (fun _ ht => mem_ordered.mp ht), ascending_sortOn _ tabs⟩

/-- The order of a group depends on identifiers and orders alone. -/
theorem groupOrder_congr {groups groups' : List Group}
    (h : groups'.map (fun g => (g.id, g.order)) = groups.map (fun g => (g.id, g.order))) (id : JsString) :
    groupOrder groups' id = groupOrder groups id := by
  have hpairs : ∀ gs : List Group, groupOrder gs id =
      ((gs.map (fun g => (g.id, g.order))).filter (fun p => p.1 = id)).getLast?.map Prod.snd := by
    intro gs
    rw [groupOrder, List.filter_map, List.getLast?_map, Option.map_map]
    rfl
  rw [hpairs, hpairs, h]

theorem Arranged.regroup {m : Model} (h : Arranged m) {groups : List Group}
    (heq : groups.map (fun g => (g.id, g.order)) = m.groups.map (fun g => (g.id, g.order))) :
    Arranged { m with groups := groups } := by
  have hids : groups.map Group.id = m.groups.map Group.id := by
    have hfst := congrArg (List.map Prod.fst) heq
    rwa [List.map_map, List.map_map] at hfst
  have horders : groups.map Group.order = m.groups.map Group.order := by
    have hsnd := congrArg (List.map Prod.snd) heq
    rwa [List.map_map, List.map_map] at hsnd
  have hpair : ∀ g ∈ groups, ∃ g' ∈ m.groups, g'.id = g.id ∧ g'.order = g.order := by
    intro g hg
    have hmem : (g.id, g.order) ∈ m.groups.map (fun g => (g.id, g.order)) := by
      rw [← heq]
      exact List.mem_map.mpr ⟨g, hg, rfl⟩
    obtain ⟨g', hg', heq'⟩ := List.mem_map.mp hmem
    exact ⟨g', hg', (Prod.mk.inj heq').1, (Prod.mk.inj heq').2⟩
  have hrank : rank groups = rank m.groups := by
    funext t
    unfold rank
    simp only [groupOrder_congr heq]
  refine ⟨⟨h.placed.apart, ?_, ?_, ?_, ?_, ?_, ?_⟩, ?_⟩
  · intro t ht g hg
    rw [hids]
    exact h.placed.grouped t ht g hg
  · intro g hg
    obtain ⟨g', hg', hid, -⟩ := hpair g hg
    rw [← hid]
    exact h.placed.named g' hg'
  · rw [hids]
    exact h.placed.ids
  · rw [horders]
    exact h.placed.orders
  · intro g hg
    obtain ⟨g', hg', -, horder⟩ := hpair g hg
    rw [← horder]
    exact h.placed.between g' hg'
  · have hlen := congrArg List.length hids
    rw [List.length_map, List.length_map] at hlen
    rw [hlen]
    exact h.placed.few
  · rw [hrank]
    exact h.ascending

/-- The numbers that positions give lie between the other ranks. -/
theorem natCast_between {n : Nat} (h : n < maxGroups) : -1 < (n : ℚ) ∧ (n : ℚ) < maxSafeInteger := by
  have hmax : ((maxGroups : Nat) : ℚ) < maxSafeInteger := by decide +kernel
  refine ⟨lt_of_lt_of_le (by decide +kernel) (Nat.cast_nonneg n), ?_⟩
  exact lt_trans (by exact_mod_cast h) hmax

/-- With unique identifiers the order of the groups does not matter to the ranks. -/
theorem Arranged.sortGroups {m : Model} (h : Arranged m) :
    Arranged { m with groups := sortOn Group.order m.groups } := by
  have hperm := perm_sortOn Group.order m.groups
  have hids : ((sortOn Group.order m.groups).map Group.id).Nodup :=
    (hperm.map Group.id).nodup_iff.mpr h.placed.ids
  have hplaced : Placed m.tabs (sortOn Group.order m.groups) :=
    { apart := h.placed.apart
      grouped := fun t ht g hg => (hperm.map Group.id).mem_iff.mpr (h.placed.grouped t ht g hg)
      named := fun g hg => h.placed.named g (hperm.mem_iff.mp hg)
      ids := hids
      orders := (hperm.map Group.order).nodup_iff.mpr h.placed.orders
      between := fun g hg => h.placed.between g (hperm.mem_iff.mp hg)
      few := by rw [hperm.length_eq]; exact h.placed.few }
  have hrank : ∀ t ∈ m.tabs, rank (sortOn Group.order m.groups) t = rank m.groups t := by
    intro t ht
    rcases h.placed.cases ht with hp | ⟨hp, hg⟩ | ⟨g, hmem, hp, hg⟩
    · rw [rank_pinned hp, rank_pinned hp]
    · rw [rank_loose hp hg, rank_loose hp hg]
    · rw [h.placed.rank_member hmem hp hg, hplaced.rank_member (hperm.mem_iff.mpr hmem) hp hg]
  refine ⟨hplaced, h.ascending.imp_of_mem ?_⟩
  intro a b ha hb hab
  simp only
  rw [hrank a ha, hrank b hb]
  exact hab

/-- Numbering groups from zero places them, whatever their numbers were. -/
theorem placed_renumber {tabs : List Tab} {groups : List Group}
    (apart : ∀ t ∈ tabs, t.pinned = true → t.group = none)
    (grouped : ∀ t ∈ tabs, ∀ g, t.group = some g → g ∈ groups.map Group.id)
    (named : ∀ g ∈ groups, g.id ≠ []) (ids : (groups.map Group.id).Nodup)
    (few : groups.length ≤ maxGroups) : Placed tabs (renumber groups) := by
  have horders : (renumber groups).map Group.order = (List.range groups.length).map (fun n : Nat => (n : ℚ)) := by
    rw [renumber, List.map_map, List.range_eq_range', ← List.zipIdx_map_snd 0 groups, List.map_map]
    rfl
  refine ⟨apart, ?_, ?_, ?_, ?_, ?_, ?_⟩
  · rw [renumber_ids]
    exact grouped
  · intro g hg
    have hid : g.id ∈ (renumber groups).map Group.id := List.mem_map_of_mem hg
    rw [renumber_ids] at hid
    obtain ⟨g', hg', heq⟩ := List.mem_map.mp hid
    rw [← heq]
    exact named g' hg'
  · rw [renumber_ids]
    exact ids
  · rw [horders]
    exact List.nodup_range.map (fun a b hab => by exact_mod_cast hab)
  · intro g hg
    have horder : g.order ∈ (renumber groups).map Group.order := List.mem_map_of_mem hg
    rw [horders] at horder
    obtain ⟨n, hn, heq⟩ := List.mem_map.mp horder
    rw [← heq]
    exact natCast_between (Nat.lt_of_lt_of_le (List.mem_range.mp hn) few)
  · rw [renumber, List.length_map, List.length_zipIdx]
    exact few

/-! ## Operations -/

theorem arranged_openTab {random : Nat → JsString} {mint : Mint} {m : Model} (h : Arranged m)
    (page : JsString) : Arranged (openTab random mint m page).1.model := by
  unfold openTab
  split_ifs
  · exact h
  · refine Placed.arranged { h.placed with apart := ?_, grouped := ?_ } _ _
    · intro t ht hp
      rcases List.mem_append.mp ht with ht | ht
      · exact h.placed.apart t ht hp
      · rw [List.mem_singleton.mp ht]
    · intro t ht g hg
      rcases List.mem_append.mp ht with ht | ht
      · exact h.placed.grouped t ht g hg
      · rw [List.mem_singleton.mp ht] at hg
        cases hg

/-- Closing takes tabs out of the strip and moves none. -/
theorem Arranged.filter {m : Model} (h : Arranged m) (p : Tab → Bool) (activeTab : JsString) :
    Arranged { m with tabs := m.tabs.filter p, activeTab := activeTab } :=
  ⟨h.placed.of_subset (fun _ ht => List.mem_of_mem_filter ht), h.ascending.sublist List.filter_sublist⟩

theorem arranged_close {m : Model} (h : Arranged m) (id : JsString) : Arranged (close m id).model := by
  unfold close
  by_cases hlen : m.tabs.length ≤ 1
  · rw [if_pos hlen]
    exact h
  · rw [if_neg hlen]
    split
    · exact h
    · exact h.filter _ _

theorem arranged_closeMatching {m : Model} (h : Arranged m) (test : JsString → Bool)
    (labelFor : JsString → JsString) (invert : Bool) :
    Arranged (closeMatching m test labelFor invert).model :=
  closeMatching_preserves (fun h => arranged_close h) h test labelFor invert

theorem arranged_closeOthers {m : Model} (h : Arranged m) (keepId : JsString) :
    Arranged (closeOthers m keepId).model := by
  unfold closeOthers
  simp only
  split_ifs
  · exact h
  · exact (h.placed.of_subset (fun _ ht => List.mem_of_mem_filter ht)).arranged _ _

/-- Pinning keeps the strip arranged when the tab is in no group. -/
theorem arranged_setPinned {m : Model} (h : Arranged m) {id : JsString} {pinned : Bool}
    (hok : pinned = true → ∀ t ∈ m.tabs, t.id = id → t.group = none) :
    Arranged (setPinned m id pinned).model := by
  refine Placed.arranged { h.placed with apart := ?_, grouped := ?_ } _ _
  · intro t ht hp
    obtain ⟨u, hu, rfl⟩ := List.mem_map.mp ht
    split_ifs at hp ⊢ with hid
    · exact hok hp u hu hid
    · exact h.placed.apart u hu hp
  · intro t ht g hg
    obtain ⟨u, hu, rfl⟩ := List.mem_map.mp ht
    refine h.placed.grouped u hu g ?_
    split_ifs at hg <;> exact hg

theorem arranged_reorder {m : Model} (h : Arranged m) (id : JsString) (toIndex : Int) :
    Arranged (reorder m id toIndex).model := by
  have hperm := reorder_perm m id toIndex
  unfold reorder at hperm ⊢
  split
  · exact h
  · rename_i tab hfind
    simp only [hfind] at hperm
    refine (h.placed.of_subset ?_).arranged _ _
    intro t ht
    exact hperm.mem_iff.mp (mem_ordered.mpr ht)

/-- A group that no tab is in moves no tab. -/
theorem rank_append {groups : List Group} {group : Group} {t : Tab} (h : t.group ≠ some group.id) :
    rank (groups ++ [group]) t = rank groups t := by
  have hlookup : ∀ g, t.group = some g → groupOrder (groups ++ [group]) g = groupOrder groups g := by
    intro g hg
    have hne : ¬ group.id = g := by
      rintro rfl
      exact h hg
    simp [groupOrder, List.filter_append, hne]
  unfold rank
  split
  · rfl
  · split
    · rfl
    · rename_i g hg
      rw [hlookup g hg]

/-- A group with an identifier and a number of its own. -/
theorem Placed.append {tabs : List Tab} {groups : List Group} (h : Placed tabs groups) {group : Group}
    (hnamed : group.id ≠ []) (hid : group.id ∉ groups.map Group.id)
    (horder : group.order ∉ groups.map Group.order) (hbetween : -1 < group.order ∧ group.order < maxSafeInteger)
    (hfew : groups.length < maxGroups) : Placed tabs (groups ++ [group]) := by
  refine ⟨h.apart, ?_, ?_, ?_, ?_, ?_, ?_⟩
  · intro t ht g hg
    rw [List.map_append]
    exact List.mem_append_left _ (h.grouped t ht g hg)
  · intro g hg
    rcases List.mem_append.mp hg with hg | hg
    · exact h.named g hg
    · rw [List.mem_singleton.mp hg]
      exact hnamed
  · rw [List.map_append, List.map_singleton, ← List.concat_eq_append]
    exact h.ids.concat hid
  · rw [List.map_append, List.map_singleton, ← List.concat_eq_append]
    exact h.orders.concat horder
  · intro g hg
    rcases List.mem_append.mp hg with hg | hg
    · exact h.between g hg
    · rw [List.mem_singleton.mp hg]
      exact hbetween
  · simp only [List.length_append, List.length_singleton]
    omega

/-- A group with a new identifier and a new number joins the others; no tab is in it. -/
theorem arranged_createGroup {random : Nat → JsString} {mint : Mint} {m : Model} (h : Arranged m)
    (name colour : JsString)
    (hok : m.groups.length < maxGroups → nextGroupId random mint ∉ m.groups.map Group.id ∧
      (m.groups.length : ℚ) ∉ m.groups.map Group.order) :
    Arranged (createGroup random mint m name colour).1.model := by
  unfold createGroup
  split_ifs with hlimit
  · exact h
  · have hlt : m.groups.length < maxGroups := by omega
    obtain ⟨hid, horder⟩ := hok hlt
    have hnonempty : nextGroupId random mint ≠ [] := by
      have hprefix : js "gp-" ≠ [] := by decide
      intro hnil
      exact hprefix (List.append_eq_nil_iff.mp hnil).1
    refine ⟨h.placed.append hnonempty hid horder (natCast_between hlt) hlt, ?_⟩
    refine h.ascending.imp_of_mem ?_
    intro a b ha hb hab
    have hnew : ∀ t ∈ m.tabs, t.group ≠ some (nextGroupId random mint) :=
      fun t ht hg => hid (h.placed.grouped t ht _ hg)
    show rank _ a ≤ rank _ b
    rw [rank_append (hnew a ha), rank_append (hnew b hb)]
    exact hab

theorem arranged_updateGroup {m : Model} (h : Arranged m) (groupId : JsString) {f : Group → Group}
    (hf : ∀ g, (f g).id = g.id ∧ (f g).order = g.order) : Arranged (updateGroup m groupId f) := by
  refine h.regroup ?_
  rw [List.map_map]
  refine List.map_congr_left ?_
  intro g _
  simp only [Function.comp]
  split_ifs
  · rw [(hf g).1, (hf g).2]
  · rfl

theorem arranged_reorderGroup {m : Model} (h : Arranged m) (groupId : JsString) (toIndex : Int) :
    Arranged (reorderGroup m groupId toIndex).model := by
  unfold reorderGroup
  simp only
  split
  · exact h
  · rename_i index hindex
    have hpos : 0 < (sortOn Group.order m.groups).length := by
      have hlt := (List.findIdx?_eq_some_iff_getElem.mp hindex).1
      omega
    have hperm := (moveWithin_perm _ index _ (clamp_lt hpos toIndex)).trans (perm_sortOn _ m.groups)
    refine (placed_renumber h.placed.apart ?_ ?_ ?_ ?_).arranged _ _
    · intro t ht g hg
      exact (hperm.map Group.id).mem_iff.mpr (h.placed.grouped t ht g hg)
    · intro g hg
      exact h.placed.named g (hperm.mem_iff.mp hg)
    · exact (hperm.map Group.id).nodup_iff.mpr h.placed.ids
    · rw [hperm.length_eq]
      exact h.placed.few

theorem arranged_deleteGroup {m : Model} (h : Arranged m) (groupId : JsString) :
    Arranged (deleteGroup m groupId).model := by
  refine (placed_renumber ?_ ?_ ?_ ?_ ?_).arranged _ _
  · intro t ht hp
    obtain ⟨u, hu, rfl⟩ := List.mem_map.mp ht
    split_ifs at hp ⊢
    · rfl
    · exact h.placed.apart u hu hp
  · intro t ht g hg
    obtain ⟨u, hu, rfl⟩ := List.mem_map.mp ht
    split_ifs at hg with heq
    obtain ⟨group, hmem, hid⟩ := List.mem_map.mp (h.placed.grouped u hu g hg)
    refine List.mem_map.mpr ⟨group, List.mem_filter.mpr ⟨hmem, ?_⟩, hid⟩
    rw [hg, Option.some.injEq] at heq
    simpa [hid] using heq
  · intro g hg
    exact h.placed.named g (List.mem_of_mem_filter hg)
  · exact h.placed.ids.sublist (List.filter_sublist.map Group.id)
  · exact Nat.le_trans List.filter_sublist.length_le h.placed.few

/-- Moving a tab into a group unpins it, so the regions stay apart. -/
theorem arranged_moveToGroup {m : Model} (h : Arranged m) (tabId : JsString) (groupId : Option JsString) :
    Arranged (moveToGroup m tabId groupId).model := by
  unfold moveToGroup
  split_ifs with hunknown
  · exact h
  · have hknown : ∀ g, groupId = some g → g ∈ m.groups.map Group.id := by
      rintro g rfl
      have hmem : some g ∈ m.groups.map (fun g => some g.id) := by
        by_contra hnot
        exact hunknown ⟨by simp, hnot⟩
      obtain ⟨group, hgroup, hid⟩ := List.mem_map.mp hmem
      exact List.mem_map.mpr ⟨group, hgroup, Option.some.inj hid⟩
    refine Placed.arranged { h.placed with apart := ?_, grouped := ?_ } _ _
    · intro t ht hp
      obtain ⟨u, hu, rfl⟩ := List.mem_map.mp ht
      split_ifs at hp ⊢
      · cases groupId with
        | none => rfl
        | some g =>
          obtain ⟨group, hgroup, rfl⟩ := List.mem_map.mp (hknown g rfl)
          simp [pinnedUnless, h.placed.named group hgroup] at hp
      · exact h.placed.apart u hu hp
    · intro t ht g hg
      obtain ⟨u, hu, rfl⟩ := List.mem_map.mp ht
      split_ifs at hg
      · exact hknown g hg
      · exact h.placed.grouped u hu g hg

theorem arranged_setDock {m : Model} (h : Arranged m) (dock : JsString) : Arranged (setDock m dock).model := by
  unfold setDock
  split
  · exact h
  · exact ⟨h.placed, h.ascending⟩

/-! ## Reading from disk -/

/-- Stored groups and tabs that `normalise` can place: it numbers a group without a number by its position,
    and keeps the rest as stored. -/
structure Placeable (source : JsValue) (known : Option (List JsString)) : Prop where
  apart : ∀ t ∈ storedTabs source known, (t.get (js "pinned")).isTrue = true →
    groupOf ((storedGroups source).map idOf) t = none
  named : ∀ g ∈ storedGroups source, idOf g ≠ []
  ids : ((storedGroups source).map idOf).Nodup
  orders : ((storedGroups source).zipIdx.map (fun g => orderOf g.1 g.2)).Nodup
  between : ∀ g ∈ (storedGroups source).zipIdx, -1 < orderOf g.1 g.2 ∧ orderOf g.1 g.2 < maxSafeInteger

theorem readGroup_fields {g : JsValue} {i : Nat} {group : Group} (h : readGroup g i = some group) :
    group.id = idOf g ∧ group.order = orderOf g i := by
  obtain ⟨name, -, rfl⟩ := Option.map_eq_some_iff.mp h
  exact ⟨rfl, rfl⟩

theorem arranged_empty (random : Nat → JsString) (mint : Mint) (page : JsString) :
    Arranged (empty random mint page).1 where
  placed :=
    { apart := fun t ht hp => by rw [List.mem_singleton.mp ht]
      grouped := fun t ht g hg => by rw [List.mem_singleton.mp ht] at hg; cases hg
      named := fun g hg => absurd hg List.not_mem_nil
      ids := .nil
      orders := .nil
      between := fun g hg => absurd hg List.not_mem_nil
      few := Nat.zero_le _ }
  ascending := List.pairwise_singleton _ _

/-- Tabs that stand where their stored values say, in the groups as they were read. -/
theorem placed_read {source : JsValue} {known : Option (List JsString)} (h : Placeable source known)
    {tabs : List Tab} {groups : List Group} (hids : groups.map Group.id = (storedGroups source).map idOf)
    (horders : groups.map Group.order = (storedGroups source).zipIdx.map (fun g => orderOf g.1 g.2))
    (hplace : ∀ t ∈ tabs, ∃ v ∈ storedTabs source known,
      placeOf (groups.map Group.id) v = (t.pinned, t.group)) : Placed tabs groups := by
  refine ⟨?_, ?_, ?_, ?_, ?_, ?_, ?_⟩
  · intro t ht hp
    obtain ⟨v, hv, heq⟩ := hplace t ht
    rw [placeOf, hids, Prod.mk.injEq] at heq
    rw [← heq.2]
    exact h.apart v hv (heq.1.trans hp)
  · intro t ht g hg
    obtain ⟨v, -, heq⟩ := hplace t ht
    rw [placeOf, Prod.mk.injEq, hg] at heq
    exact groupOf_mem heq.2
  · intro g hg
    have hmem : g.id ∈ groups.map Group.id := List.mem_map_of_mem hg
    rw [hids] at hmem
    obtain ⟨v, hv, heq⟩ := List.mem_map.mp hmem
    rw [← heq]
    exact h.named v hv
  · rw [hids]
    exact h.ids
  · rw [horders]
    exact h.orders
  · intro g hg
    have hmem : g.order ∈ groups.map Group.order := List.mem_map_of_mem hg
    rw [horders] at hmem
    obtain ⟨v, hv, heq⟩ := List.mem_map.mp hmem
    rw [← heq]
    exact h.between v hv
  · -- `slice(0, maxGroups)`
    have hlen := congrArg List.length hids
    rw [List.length_map, List.length_map] at hlen
    rw [hlen]
    exact Nat.le_trans List.filter_sublist.length_le (by simp [maxGroups])

/-- **A placeable stored model is arranged when read.** -/
theorem arranged_normalise {random : Nat → JsString} {mint mint' : Mint} {x : JsValue}
    {known : Option (List JsString)} {default : Option JsString} {m : Model}
    (h : normalise random mint x known default = some (m, mint'))
    (hplaceable : Placeable (sourceOf x) known) : Arranged m := by
  obtain ⟨groups, hgroups, hread⟩ := normalise_cases random h
  have hids : groups.map Group.id = (storedGroups (sourceOf x)).map idOf := by
    have hcomp : (fun g : JsValue × Nat => idOf g.1) = idOf ∘ Prod.fst := rfl
    rw [AllSome.map_of_mapM (fun g b hb => (readGroup_fields hb).1) hgroups, hcomp, ← List.map_map,
      List.zipIdx_map_fst]
  have horders : groups.map Group.order = (storedGroups (sourceOf x)).zipIdx.map (fun g => orderOf g.1 g.2) :=
    AllSome.map_of_mapM (fun g b hb => (readGroup_fields hb).2) hgroups
  rcases hread with ⟨page, htabs, hnil, -⟩ | ⟨-, htabs, hsorted, -⟩
  · have hempty := arranged_empty random mint page
    obtain ⟨tabs, groups', activeTab, dock⟩ := m
    cases hnil
    cases htabs
    exact ⟨hempty.placed, hempty.ascending⟩
  · -- minting identifiers for repeated ones moves no tab
    have hplaces := withUniqueIds_places random []
      (readTabs random (groups.map Group.id) mint (storedTabs (sourceOf x) known)).2
      (readTabs random (groups.map Group.id) mint (storedTabs (sourceOf x) known)).1
    rw [readTabs_places] at hplaces
    generalize withUniqueIds random [] _ _ = unique at htabs hplaces
    have hplaced : Placed unique.1 groups := by
      refine placed_read hplaceable hids horders ?_
      intro t ht
      have hmem : (t.pinned, t.group) ∈ unique.1.map (fun t => (t.pinned, t.group)) :=
        List.mem_map.mpr ⟨t, ht, rfl⟩
      rw [hplaces] at hmem
      exact List.mem_map.mp hmem
    obtain ⟨tabs, groups', activeTab, dock⟩ := m
    cases htabs
    cases hsorted
    exact (hplaced.arranged activeTab dock).sortGroups

/-! ## Runs -/

section
variable (random : Nat → JsString)

/-- A call pins only a tab that is in no group, and creates a group under an identifier and with a number
    that no group has: the number is how many groups there are. -/
def Tidy (s : State) : Op → Prop
  | .setPinned id pinned => pinned = true → ∀ t ∈ s.model.tabs, t.id = id → t.group = none
  | .createGroup _ _ => s.model.groups.length < maxGroups →
      nextGroupId random s.mint ∉ s.model.groups.map Group.id ∧
        (s.model.groups.length : ℚ) ∉ s.model.groups.map Group.order
  | _ => True

/-- **Step lemma.** -/
theorem arranged_step {s : State} {op : Op} (h : Arranged s.model) (hok : Tidy random s op) :
    Arranged (step random s op).model := by
  cases op with
  | openTab page => exact arranged_openTab h page
  | close id => exact arranged_close h id
  | closeMatching test labelFor invert => exact arranged_closeMatching h test labelFor invert
  | closeOthers keepId => exact arranged_closeOthers h keepId
  | setPinned id pinned => exact arranged_setPinned h hok
  | reorder id toIndex => exact arranged_reorder h id toIndex
  | createGroup name colour => exact arranged_createGroup h name colour hok
  | renameGroup groupId name => exact arranged_updateGroup h groupId (fun _ => ⟨rfl, rfl⟩)
  | setGroupColour groupId colour =>
    simp only [step, setGroupColour]
    split
    · exact h
    · exact arranged_updateGroup h groupId (fun _ => ⟨rfl, rfl⟩)
  | setGroupCollapsed groupId collapsed => exact arranged_updateGroup h groupId (fun _ => ⟨rfl, rfl⟩)
  | reorderGroup groupId toIndex => exact arranged_reorderGroup h groupId toIndex
  | deleteGroup groupId => exact arranged_deleteGroup h groupId
  | moveToGroup tabId groupId => exact arranged_moveToGroup h tabId groupId
  | setDock dock => exact arranged_setDock h dock
  | activate id => exact ⟨h.placed, h.ascending⟩

/-- Where a run starts: an empty strip, or a stored model that can be placed. -/
inductive StartedTidy : State → Prop where
  | empty (mint : Mint) (page : JsString) :
      StartedTidy ⟨(Tabs.empty random mint page).1, (Tabs.empty random mint page).2⟩
  | normalise {mint mint' : Mint} {x : JsValue} {known : Option (List JsString)} {default : Option JsString}
      {m : Model} (h : Tabs.normalise random mint x known default = some (m, mint'))
      (hplaceable : Placeable (sourceOf x) known) : StartedTidy ⟨m, mint'⟩

/-- **Run lemma.** Every strip reached by tidy calls is laid out. -/
theorem laidOut_of_tidy {s : State} {ops : List Op} (hs : StartedTidy random s)
    (h : AllSteps (Tidy random) (step random) s ops) : LaidOut (run (step random) s ops).model := by
  have hstart : Arranged s.model := by
    cases hs with
    | empty mint page => exact arranged_empty random mint page
    | normalise hn hplaceable => exact arranged_normalise hn hplaceable
  exact laidOut_of_arranged
    (invariant (I := fun s => Arranged s.model) (fun _ _ hI hok => arranged_step random hI hok) hstart h)

end

/-- A pin, a second group and a tab moved into it, from the stored strip. -/
theorem laidOut_repairedStrip : LaidOut (run (step sameDraw) ⟨repairedStrip, ⟨1, 1⟩⟩
    [.openTab (js "status"), .setPinned (js "t") true, .createGroup (js "Home") (js "rose"),
      .moveToGroup (js "tb-2-4fzyo") (some (js "gp-4fzyo")), .reorderGroup (js "gp-4fzyo") 0]).model := by
  have hread : normalise sameDraw ⟨0, 0⟩ storedStrip none none = some (repairedStrip, ⟨1, 1⟩) := by
    decide +kernel
  have hplaceable : Placeable (sourceOf storedStrip) none :=
    ⟨by decide +kernel, by decide +kernel, by decide +kernel, by decide +kernel, by decide +kernel⟩
  refine laidOut_of_tidy sameDraw (.normalise hread hplaceable) ⟨trivial, fun _ => ?_, fun _ => ?_, trivial,
    trivial, trivial⟩
  · decide +kernel
  · decide +kernel

/-- Pinning a tab that is in a group leaves it in both regions. -/
theorem not_laidOut_after_setPinned : ¬ LaidOut (run (step sameDraw)
    ⟨(empty sameDraw ⟨0, 0⟩ (js "ollama")).1, (empty sameDraw ⟨0, 0⟩ (js "ollama")).2⟩
    [.createGroup (js "Work") (js "grape"), .moveToGroup (js "tb-1-4fzyo") (some (js "gp-4fzyo")),
      .setPinned (js "tb-1-4fzyo") true]).model := by
  intro h
  have hboth := h.apart ⟨js "tb-1-4fzyo", js "ollama", true, some (js "gp-4fzyo")⟩ (by decide +kernel)
  exact hboth ⟨rfl, by decide⟩

end Tabs
end MaterialOpenWebui
