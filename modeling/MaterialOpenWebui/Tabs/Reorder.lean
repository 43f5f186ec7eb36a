import MaterialOpenWebui.Tabs.Layout
import Mathlib.Data.List.Pairwise
import Mathlib.Data.Prod.Lex

/-!
# `Tabs.Reorder` — moving a tab within its region

`reorder` moves a tab among the tabs whose region has the same name, and sorts the strip by `rank` afterwards.
Both are meant to tell the regions of a laid out strip apart, and do so as long as the strip is `Apart`: a
stored group may be called `pinned` or `loose`, as the other two regions are, have an order beyond the ranks
of the pinned and of the loose tabs, or the empty identifier, with which a group counts as none.
-/

namespace MaterialOpenWebui
namespace Tabs
open Js StableSort

/-! ## Regions -/

/-- Two tabs are both pinned, both loose, or in one group. -/
def SameRegion (t u : Tab) : Prop := t.pinned = u.pinned ∧ t.group = u.group

instance (t u : Tab) : Decidable (SameRegion t u) := inferInstanceAs (Decidable (_ ∧ _))

@[simp] theorem SameRegion.refl (t : Tab) : SameRegion t t := ⟨rfl, rfl⟩

theorem SameRegion.symm {t u : Tab} (h : SameRegion t u) : SameRegion u t := ⟨h.1.symm, h.2.symm⟩

theorem SameRegion.trans {t u v : Tab} (h : SameRegion t u) (h' : SameRegion u v) : SameRegion t v :=
  ⟨h.1.trans h'.1, h.2.trans h'.2⟩

theorem SameRegion.region {t u : Tab} (h : SameRegion t u) : region t = region u := by
  simp only [Tabs.region, h.1, h.2]

theorem SameRegion.rank {t u : Tab} (h : SameRegion t u) (groups : List Group) : rank groups t = rank groups u := by
  simp only [Tabs.rank, h.1, h.2]

/-- The tabs of the region a tab is in. -/
def regionOf (tabs : List Tab) (t : Tab) : List Tab := tabs.filter (fun u => SameRegion u t)

@[simp] theorem mem_regionOf {tabs : List Tab} {t u : Tab} : u ∈ regionOf tabs t ↔ u ∈ tabs ∧ SameRegion u t := by
  simp [regionOf]

theorem regionOf_congr {t u : Tab} (h : SameRegion t u) (tabs : List Tab) : regionOf tabs t = regionOf tabs u := by
  apply List.filter_congr
  intro v _
  rw [decide_eq_decide]
  exact ⟨fun hv => hv.trans h, fun hv => hv.trans h.symm⟩

/-- Where the layout has a tab: among the pinned, in a group, among the loose. -/
def place (groups : List Group) (t : Tab) : ℕ ×ₗ ℚ :=
  if t.pinned then toLex (0, 0)
  else
    match t.group with
    | none => toLex (2, 0)
    | some g => toLex (1, (groupOrder groups g).getD 0)

theorem SameRegion.place {t u : Tab} (h : SameRegion t u) (groups : List Group) : place groups t = place groups u := by
  simp only [Tabs.place, h.1, h.2]

theorem place_pinned {groups : List Group} {t : Tab} (h : t.pinned = true) : place groups t = toLex (0, 0) := by
  simp [place, h]

theorem place_loose {groups : List Group} {t : Tab} (hp : t.pinned = false) (hg : t.group = none) :
    place groups t = toLex (2, 0) := by
  simp [place, hp, hg]

theorem place_member {groups : List Group} (hids : (groups.map Group.id).Nodup) {t : Tab} {g : Group} (hg : g ∈ groups)
    (hp : t.pinned = false) (ht : t.group = some g.id) : place groups t = toLex (1, g.order) := by
  simp [place, hp, ht, groupOrder_eq hids hg]

/-- A tab is pinned and in no group, loose, or in a group there is. -/
def Shown (groups : List Group) (t : Tab) : Prop :=
  (t.pinned = true ∧ t.group = none) ∨ (t.pinned = false ∧ t.group = none) ∨
    ∃ g ∈ groups, t.pinned = false ∧ t.group = some g.id

theorem LaidOut.shown {m : Model} (h : LaidOut m) {t : Tab} (ht : t ∈ m.tabs) : Shown m.groups t := by
  have hstrip := ht
  rw [h.strip] at hstrip
  simp only [List.mem_append, List.mem_filter, List.mem_flatMap, membersOf, Bool.and_eq_true, Bool.not_eq_true',
    decide_eq_true_iff, mem_sortOn] at hstrip
  rcases hstrip with (⟨-, hp⟩ | ⟨g, hg, -, hp, hmember⟩) | ⟨-, hp, hnone⟩
  · exact Or.inl ⟨hp, by_contra fun hsome => h.apart t ht ⟨hp, hsome⟩⟩
  · exact Or.inr (Or.inr ⟨g, hg, hp, hmember⟩)
  · exact Or.inr (Or.inl ⟨hp, hnone⟩)

/-- Places tell the regions apart. -/
theorem sameRegion_of_place {groups : List Group} (hids : (groups.map Group.id).Nodup)
    (horders : (groups.map Group.order).Nodup) {t u : Tab} (ht : Shown groups t) (hu : Shown groups u)
    (h : place groups t = place groups u) : SameRegion t u := by
  rcases ht with ⟨hp, hg⟩ | ⟨hp, hg⟩ | ⟨g, hmem, hp, hg⟩ <;> rcases hu with ⟨hp', hg'⟩ | ⟨hp', hg'⟩ | ⟨g', hmem', hp', hg'⟩
  case inr.inr.inr.inr =>
    rw [place_member hids hmem hp hg, place_member hids hmem' hp' hg'] at h
    have horder : g.order = g'.order := (Prod.mk.inj (toLex.injective h)).2
    rw [List.inj_on_of_nodup_map horders hmem hmem' horder] at hg
    exact ⟨hp.trans hp'.symm, hg.trans hg'.symm⟩
  all_goals first
    | exact ⟨hp.trans hp'.symm, hg.trans hg'.symm⟩
    | simp [place, hp, hg, hp', hg'] at h

/-- The tabs of a laid out strip ascend in place. -/
theorem LaidOut.ascending {m : Model} (h : LaidOut m) : Ascending (place m.groups) m.tabs := by
  have hpinned : ∀ t ∈ m.tabs.filter Tab.pinned, place m.groups t = toLex (0, 0) :=
    fun t ht => place_pinned (List.mem_filter.mp ht).2
  have hmember : ∀ g ∈ sortOn Group.order m.groups, ∀ t ∈ membersOf m.tabs g, place m.groups t = toLex (1, g.order) := by
    intro g hg t ht
    have hshown := (List.mem_filter.mp ht).2
    simp only [Bool.and_eq_true, Bool.not_eq_true', decide_eq_true_iff] at hshown
    exact place_member h.ids ((mem_sortOn _).mp hg) hshown.1 hshown.2
  have hloose : ∀ t ∈ m.tabs.filter (fun t => !t.pinned && t.group = none), place m.groups t = toLex (2, 0) := by
    intro t ht
    have hshown := (List.mem_filter.mp ht).2
    simp only [Bool.and_eq_true, Bool.not_eq_true', decide_eq_true_iff] at hshown
    exact place_loose hshown.1 hshown.2
  have hgroups : ∀ t ∈ (sortOn Group.order m.groups).flatMap (membersOf m.tabs), ∃ order,
    place m.groups t = toLex (1, order) := by
    intro t ht
    obtain ⟨g, hg, ht⟩ := List.mem_flatMap.mp ht
    exact ⟨g.order, hmember g hg t ht⟩
  unfold Ascending
  rw [h.strip, List.pairwise_append, List.pairwise_append]
  refine ⟨⟨?_, ?_, ?_⟩, ?_, ?_⟩
  · apply List.pairwise_of_forall_mem_list
    intro t ht u hu
    rw [hpinned t ht, hpinned u hu]
  · rw [List.pairwise_flatMap]
    refine ⟨fun g hg => ?_, (ascending_sortOn Group.order m.groups).imp_of_mem ?_⟩
    · apply List.pairwise_of_forall_mem_list
      intro t ht u hu
      rw [hmember g hg t ht, hmember g hg u hu]
    · intro g g' hg hg' hle t ht u hu
      rw [hmember g hg t ht, hmember g' hg' u hu]
      exact Prod.Lex.toLex_le_toLex.mpr (Or.inr ⟨rfl, hle⟩)
  · intro t ht u hu
    obtain ⟨order, hu⟩ := hgroups u hu
    rw [hpinned t ht, hu]
    exact Prod.Lex.toLex_le_toLex.mpr (Or.inl Nat.zero_lt_one)
  · apply List.pairwise_of_forall_mem_list
    intro t ht u hu
    rw [hloose t ht, hloose u hu]
  · intro t ht u hu
    rw [hloose u hu]
    rcases List.mem_append.mp ht with ht | ht
    · rw [hpinned t ht]
      exact Prod.Lex.toLex_le_toLex.mpr (Or.inl Nat.zero_lt_two)
    · obtain ⟨order, ht⟩ := hgroups t ht
      rw [ht]
      exact Prod.Lex.toLex_le_toLex.mpr (Or.inl Nat.one_lt_two)

/-- The places there can be, in ascending order. -/
def places (groups : List Group) : List (ℕ ×ₗ ℚ) :=
  toLex (0, 0) :: ((sortOn Group.order groups).map (fun g => toLex (1, g.order)) ++ [toLex (2, 0)])

theorem ascending_places {groups : List Group} (horders : (groups.map Group.order).Nodup) :
    (places groups).Pairwise (· < ·) := by
  have hmem : ∀ p ∈ (sortOn Group.order groups).map (fun g => (toLex (1, g.order) : ℕ ×ₗ ℚ)),
    ∃ order, p = toLex (1, order) := by
    intro p hp
    obtain ⟨g, -, rfl⟩ := List.mem_map.mp hp
    exact ⟨g.order, rfl⟩
  have hnodup : ((sortOn Group.order groups).map Group.order).Nodup :=
    ((perm_sortOn _ groups).map Group.order).nodup_iff.mpr horders
  refine List.pairwise_cons.mpr ⟨?_, List.pairwise_append.mpr ⟨?_, by simp, ?_⟩⟩
  · intro p hp
    rcases List.mem_append.mp hp with hp | hp
    · obtain ⟨order, rfl⟩ := hmem p hp
      exact Prod.Lex.toLex_lt_toLex.mpr (Or.inl Nat.zero_lt_one)
    · rw [List.mem_singleton.mp hp]
      exact Prod.Lex.toLex_lt_toLex.mpr (Or.inl Nat.zero_lt_two)
  · rw [List.pairwise_map]
    refine ((ascending_sortOn Group.order groups).and (List.pairwise_map.mp hnodup)).imp ?_
    intro g g' hg
    exact Prod.Lex.toLex_lt_toLex.mpr (Or.inr ⟨rfl, lt_of_le_of_ne hg.1 hg.2⟩)
  · intro p hp q hq
    obtain ⟨order, rfl⟩ := hmem p hp
    rw [List.mem_singleton.mp hq]
    exact Prod.Lex.toLex_lt_toLex.mpr (Or.inl Nat.one_lt_two)

/-- **A strip that ascends in place is laid out.** -/
theorem laidOut_of_ascending {m : Model} (h : Ascending (place m.groups) m.tabs) (hshown : ∀ t ∈ m.tabs, Shown m.groups t)
    (hids : (m.groups.map Group.id).Nodup) (horders : (m.groups.map Group.order).Nodup) : LaidOut m := by
  refine ⟨?_, ?_, hids, horders⟩
  · have hmem : ∀ t ∈ m.tabs, place m.groups t ∈ places m.groups := by
      intro t ht
      rcases hshown t ht with ⟨hp, -⟩ | ⟨hp, hg⟩ | ⟨g, hmem, hp, hg⟩
      · rw [place_pinned hp]
        exact List.mem_cons_self
      · rw [place_loose hp hg]
        exact List.mem_cons_of_mem _ (List.mem_append_right _ (List.mem_singleton.mpr rfl))
      · rw [place_member hids hmem hp hg]
        exact List.mem_cons_of_mem _ (List.mem_append_left _ (List.mem_map.mpr ⟨g, (mem_sortOn _).mpr hmem, rfl⟩))
    have hflat := h.eq_flatMap (ascending_places horders) hmem
    have hpinned : m.tabs.filter (fun t => place m.groups t = toLex (0, 0)) = m.tabs.filter Tab.pinned := by
      refine List.filter_congr fun t ht => ?_
      rw [Bool.eq_iff_iff, decide_eq_true_iff]
      rcases hshown t ht with ⟨hp, -⟩ | ⟨hp, hg⟩ | ⟨g, -, hp, hg⟩ <;> simp [place, *]
    have hloose : m.tabs.filter (fun t => place m.groups t = toLex (2, 0)) =
        m.tabs.filter (fun t => !t.pinned && t.group = none) := by
      refine List.filter_congr fun t ht => ?_
      rw [Bool.eq_iff_iff, decide_eq_true_iff]
      rcases hshown t ht with ⟨hp, -⟩ | ⟨hp, hg⟩ | ⟨g, -, hp, hg⟩ <;> simp [place, *]
    have hmembers : ∀ g ∈ sortOn Group.order m.groups,
        m.tabs.filter (fun t => place m.groups t = toLex (1, g.order)) = membersOf m.tabs g := by
      intro g hg
      refine List.filter_congr fun t ht => ?_
      rw [Bool.eq_iff_iff, decide_eq_true_iff]
      simp only [Bool.and_eq_true, Bool.not_eq_true', decide_eq_true_iff]
      refine ⟨fun hplace => ?_, fun hmember => place_member hids ((mem_sortOn _).mp hg) hmember.1 hmember.2⟩
      rcases hshown t ht with ⟨hp, -⟩ | ⟨hp, hnone⟩ | ⟨g', hg', hp, hmember⟩
      · simp [place, hp] at hplace
      · simp [place, hp, hnone] at hplace
      · rw [place_member hids hg' hp hmember] at hplace
        have horder : g'.order = g.order := (Prod.mk.inj (toLex.injective hplace)).2
        rw [List.inj_on_of_nodup_map horders hg' ((mem_sortOn _).mp hg) horder] at hmember
        exact ⟨hp, hmember⟩
    rw [places, List.flatMap_cons, List.flatMap_append, List.flatMap_singleton, hpinned, hloose, List.flatMap_map,
      List.flatMap_congr hmembers, ← List.append_assoc] at hflat
    exact hflat
  · rintro t ht ⟨hp, hg⟩
    rcases hshown t ht with ⟨-, hnone⟩ | ⟨hp', -⟩ | ⟨-, -, hp', -⟩
    · exact hg hnone
    · rw [hp] at hp'
      cases hp'
    · rw [hp] at hp'
      cases hp'

/-! ## Inserting -/

section
variable {α : Type}

theorem insertIdx_eq_take (a : α) {l : List α} {k : Nat} (hk : k ≤ l.length) :
    l.insertIdx k a = l.take k ++ a :: l.drop k := by
  induction k generalizing l with
  | zero => rfl
  | succ k ih =>
    cases l with
    | nil => exact absurd hk (by simp)
    | cons b l =>
      rw [List.insertIdx_succ_cons, ih (Nat.le_of_succ_le_succ hk)]
      rfl

/-- What the filter drops may be inserted anywhere. -/
theorem filter_insertIdx_of_not {p : α → Bool} {a : α} (ha : p a = false) {l : List α} {k : Nat} (hk : k ≤ l.length) :
    (l.insertIdx k a).filter p = l.filter p := by
  rw [insertIdx_eq_take a hk, List.filter_append, List.filter_cons_of_neg (ne_true_of_eq_false ha), ← List.filter_append,
    List.take_append_drop]

/-- What the filter keeps stands behind the entries it keeps of those before. -/
theorem filter_insertIdx_of {p : α → Bool} {a : α} (ha : p a = true) {l : List α} {k : Nat} (hk : k ≤ l.length) :
    (l.insertIdx k a).filter p = (l.take k).filter p ++ a :: (l.drop k).filter p := by
  rw [insertIdx_eq_take a hk, List.filter_append, List.filter_cons_of_pos ha]

/-- Of a list in which the entries of a kind come first, the first ones are of the kind while there are any. -/
theorem length_filter_take {p : α → Bool} {l : List α} (h : l.Pairwise (fun a b => p b = true → p a = true)) (k : Nat) :
    ((l.take k).filter p).length = min k (l.filter p).length := by
  induction l generalizing k with
  | nil => simp
  | cons a l ih =>
    obtain ⟨hhead, htail⟩ := List.pairwise_cons.mp h
    cases k with
    | zero => simp
    | succ k =>
      rw [List.take_succ_cons]
      cases ha : p a with
      | true =>
        rw [List.filter_cons_of_pos ha, List.filter_cons_of_pos ha, List.length_cons, List.length_cons, ih htail]
        omega
      | false =>
        have hnone : l.filter p = [] := by
          rw [List.filter_eq_nil_iff]
          intro b hb hpb
          rw [hhead b hb hpb] at ha
          cases ha
        have htake : (l.take k).filter p = [] :=
          List.eq_nil_of_sublist_nil (hnone ▸ (List.take_sublist k l).filter p)
        rw [List.filter_cons_of_neg (ne_true_of_eq_false ha),
          List.filter_cons_of_neg (ne_true_of_eq_false ha), hnone, htake]
        exact (Nat.min_zero _).symm

end

/-- Taking an entry out and inserting it where it is asked for. -/
theorem moveWithin_append {α : Type} (a : α) (front back : List α) (k : Nat) :
    moveWithin (front ++ a :: back) front.length k = (front ++ back).insertIdx k a := by
  have hget : (front ++ a :: back)[front.length]? = some a := by
    rw [List.getElem?_append_right (Nat.le_refl _), Nat.sub_self]
    rfl
  have herase : (front ++ a :: back).eraseIdx front.length = front ++ back := by
    rw [List.eraseIdx_append_of_length_le (Nat.le_refl _), Nat.sub_self]
    rfl
  unfold moveWithin
  rw [hget, herase]

/-! ## One move -/

/-- What a move makes of the strip before it is sorted: `front` and `back` are the tabs whose region has the name of the
region of `tab`, less the tab itself. -/
structure Moved (tabs : List Tab) (tab : Tab) (toIndex : Int) (front back strip : List Tab) : Prop where
  siblings : tabs.filter (fun t => region t = region tab) = front ++ tab :: back
  strip_eq : strip = (front ++ back).insertIdx (clamp (front.length + back.length + 1) toIndex) tab ++
    tabs.filter (fun t => region t ≠ region tab)

theorem reorder_unknown {m : Model} {id : JsString} (h : ∀ t ∈ m.tabs, t.id ≠ id) (toIndex : Int) :
    (reorder m id toIndex).model = m := by
  have hfind : m.tabs.find? (fun t => t.id = id) = none := by
    rw [List.find?_eq_none]
    intro t ht heq
    exact h t ht (of_decide_eq_true heq)
  unfold reorder
  rw [hfind]

/-- With distinct identifiers a tab is found by its own. -/
theorem find?_id {tabs : List Tab} (hdistinct : (tabs.map Tab.id).Nodup) {tab : Tab} (htab : tab ∈ tabs) :
    tabs.find? (fun t => t.id = tab.id) = some tab := by
  cases hfind : tabs.find? (fun t => t.id = tab.id) with
  | none => exact absurd rfl (of_decide_eq_false (eq_false_of_ne_true (List.find?_eq_none.mp hfind tab htab)))
  | some t =>
    have hid := List.find?_some hfind
    rw [List.inj_on_of_nodup_map hdistinct (List.mem_of_find?_eq_some hfind) htab (of_decide_eq_true hid)]

/-- **A move sorts the strip in which the tab was moved.** -/
theorem reorder_tab {m : Model} (hdistinct : (m.tabs.map Tab.id).Nodup) {tab : Tab} (htab : tab ∈ m.tabs) (toIndex : Int) :
    ∃ front back strip, Moved m.tabs tab toIndex front back strip ∧
      (reorder m tab.id toIndex).model = { m with tabs := ordered strip m.groups } := by
  have hfind := find?_id hdistinct htab
  have hmem : tab ∈ m.tabs.filter (fun t => region t = region tab) := List.mem_filter.mpr ⟨htab, decide_eq_true rfl⟩
  obtain ⟨front, back, hsiblings⟩ := List.append_of_mem hmem
  have hfirst : (m.tabs.filter (fun t => region t = region tab)).findIdx (fun t => t.id = tab.id) = front.length := by
    have hnodup : ((front ++ tab :: back).map Tab.id).Nodup := by
      rw [← hsiblings]
      exact hdistinct.sublist (List.filter_sublist.map Tab.id)
    rw [List.map_append, List.map_cons, List.nodup_append] at hnodup
    rw [hsiblings, List.findIdx_append, if_neg]
    · rw [List.findIdx_cons, decide_eq_true rfl, cond_true, Nat.zero_add]
    · intro hlt
      obtain ⟨t, ht, hid⟩ := List.findIdx_lt_length.mp hlt
      exact hnodup.2.2 t.id (List.mem_map_of_mem ht) tab.id List.mem_cons_self (of_decide_eq_true hid)
  have hlength : (m.tabs.filter (fun t => region t = region tab)).length = front.length + back.length + 1 := by
    rw [hsiblings, List.length_append, List.length_cons, Nat.add_assoc]
  refine ⟨front, back, _, ⟨hsiblings, rfl⟩, ?_⟩
  unfold reorder
  simp only [hfind]
  rw [hfirst, hlength, hsiblings, moveWithin_append]

section
variable {tabs : List Tab} {tab : Tab} {toIndex : Int} {front back strip : List Tab}

theorem Moved.index_le (_ : Moved tabs tab toIndex front back strip) :
    clamp (front.length + back.length + 1) toIndex ≤ (front ++ back).length := by
  rw [List.length_append]
  exact Nat.le_of_lt_succ (clamp_lt (Nat.succ_pos _) toIndex)

/-- A region is cut from the tabs whose region has its name. -/
theorem regionOf_filter_same {t u : Tab} (h : region u = region t) (tabs : List Tab) :
    regionOf (tabs.filter (fun v => region v = region t)) u = regionOf tabs u := by
  unfold regionOf
  rw [List.filter_filter]
  apply List.filter_congr
  intro v _
  rw [Bool.and_eq_left_iff_imp, decide_eq_true_iff, decide_eq_true_iff]
  exact fun hv => hv.region.trans h

theorem regionOf_filter_other {t u : Tab} (h : region u ≠ region t) (tabs : List Tab) :
    regionOf (tabs.filter (fun v => region v ≠ region t)) u = regionOf tabs u := by
  unfold regionOf
  rw [List.filter_filter]
  apply List.filter_congr
  intro v _
  rw [Bool.and_eq_left_iff_imp, decide_eq_true_iff, decide_eq_true_iff]
  exact fun hv heq => h (hv.region.symm.trans heq)

theorem regionOf_eq_nil {t : Tab} (h : ∀ v ∈ tabs, region v ≠ region t) : regionOf tabs t = [] := by
  unfold regionOf
  rw [List.filter_eq_nil_iff]
  intro v hv hsame
  exact h v hv (of_decide_eq_true hsame).region

/-- Sorting the strip moves no tab within its region. -/
theorem regionOf_ordered (strip : List Tab) (groups : List Group) (t : Tab) :
    regionOf (ordered strip groups) t = regionOf strip t := by
  refine filter_sortOn fun u _ v _ hu hv => ?_
  exact ((of_decide_eq_true hu : SameRegion u t).trans (of_decide_eq_true hv : SameRegion v t).symm).rank _

theorem regionOf_append (front back : List Tab) (t : Tab) :
    regionOf (front ++ back) t = regionOf front t ++ regionOf back t :=
  List.filter_append ..

/-- The other regions are as before. -/
theorem Moved.regionOf_other (h : Moved tabs tab toIndex front back strip) {t : Tab} (ht : ¬ SameRegion tab t) :
    regionOf strip t = regionOf tabs t := by
  have hfirst : regionOf ((front ++ back).insertIdx (clamp (front.length + back.length + 1) toIndex) tab) t =
      regionOf (front ++ tab :: back) t := by
    have hdrop : decide (SameRegion tab t) = false := decide_eq_false ht
    rw [regionOf, filter_insertIdx_of_not (p := fun u => decide (SameRegion u t)) hdrop h.index_le, regionOf,
      List.filter_append, List.filter_append,
      List.filter_cons_of_neg (by rw [hdrop]; exact Bool.false_ne_true)]
  rw [h.strip_eq, regionOf_append, hfirst, ← h.siblings]
  by_cases hname : region t = region tab
  · have hnone : regionOf (tabs.filter (fun v => region v ≠ region tab)) t = [] := by
      refine regionOf_eq_nil fun v hv => ?_
      rw [hname]
      exact of_decide_eq_true (List.mem_filter.mp hv).2
    rw [regionOf_filter_same hname, hnone, List.append_nil]
  · have hnone : regionOf (tabs.filter (fun v => region v = region tab)) t = [] := by
      refine regionOf_eq_nil fun v hv heq => hname ?_
      rw [← heq]
      exact of_decide_eq_true (List.mem_filter.mp hv).2
    rw [regionOf_filter_other hname, hnone, List.nil_append]

/-- In its own region the tab stands behind those of the region that are among the first of its siblings. -/
theorem Moved.regionOf_tab (h : Moved tabs tab toIndex front back strip) :
    regionOf strip tab = regionOf ((front ++ back).take (clamp (front.length + back.length + 1) toIndex)) tab ++
      tab :: regionOf ((front ++ back).drop (clamp (front.length + back.length + 1) toIndex)) tab := by
  rw [h.strip_eq, regionOf_append, regionOf_eq_nil fun v hv => of_decide_eq_true (List.mem_filter.mp hv).2, List.append_nil]
  exact filter_insertIdx_of (p := fun u => decide (SameRegion u tab)) (decide_eq_true (.refl tab)) h.index_le

theorem Moved.regionOf_before (h : Moved tabs tab toIndex front back strip) :
    regionOf tabs tab = regionOf front tab ++ tab :: regionOf back tab := by
  rw [← regionOf_filter_same (t := tab) rfl, h.siblings, regionOf_append]
  exact congrArg _ (List.filter_cons_of_pos (p := fun u => decide (SameRegion u tab)) (decide_eq_true (.refl tab)))

/-- Every region is as before but for the tab. -/
theorem Moved.rest (h : Moved tabs tab toIndex front back strip) (t : Tab) :
    (regionOf strip t).filter (fun u => u.id ≠ tab.id) = (regionOf tabs t).filter (fun u => u.id ≠ tab.id) := by
  by_cases hsame : SameRegion tab t
  · rw [← regionOf_congr hsame, ← regionOf_congr hsame, h.regionOf_tab, h.regionOf_before, List.filter_append,
      List.filter_cons_of_neg (by simp), ← List.filter_append, ← regionOf_append, List.take_append_drop, regionOf_append,
      List.filter_append, List.filter_append, List.filter_cons_of_neg (by simp)]
  · rw [h.regionOf_other hsame]

end

/-! ## The result -/

/-- What a move is to do. -/
structure Reordered (m m' : Model) (id : JsString) (toIndex : Int) : Prop where
  placed : ∀ tab, m.tabs.find? (fun t => t.id = id) = some tab →
    (regionOf m'.tabs tab)[clamp (regionOf m.tabs tab).length toIndex]? = some tab
  others : m'.tabs.filter (fun t => t.id ≠ id) = m.tabs.filter (fun t => t.id ≠ id)
  same : m'.tabs.Perm m.tabs
  laidOut : LaidOut m'

/-- The strip can be put in order by `rank`, and no two regions share a name, unless the second has one tab. -/
def Apart (m : Model) : Prop :=
  m.tabs.Pairwise fun t u => SameRegion t u ∨
    (rank m.groups t < rank m.groups u ∧ (region t = region u → regionOf m.tabs u = [u]))

instance (m : Model) : Decidable (Apart m) := by unfold Apart; infer_instance

section
variable {m : Model}

/-- Of two tabs that are apart, the ranks say which region comes first. -/
theorem Apart.compare (hapart : Apart m) (hlaid : LaidOut m) {t u : Tab} (ht : t ∈ m.tabs) (hu : u ∈ m.tabs) :
    SameRegion t u ∨ (rank m.groups t < rank m.groups u ∧ place m.groups t ≤ place m.groups u) ∨
      (rank m.groups u < rank m.groups t ∧ place m.groups u ≤ place m.groups t) := by
  let R : Tab → Tab → Prop := fun t u => SameRegion t u ∨
    (rank m.groups t < rank m.groups u ∧ place m.groups t ≤ place m.groups u) ∨
    (rank m.groups u < rank m.groups t ∧ place m.groups u ≤ place m.groups t)
  have hsymm : Std.Symm R := by
    refine ⟨?_⟩
    rintro t u (hsame | hlt | hgt)
    · exact Or.inl hsame.symm
    · exact Or.inr (Or.inr hlt)
    · exact Or.inr (Or.inl hgt)
  have hpairs : m.tabs.Pairwise R := by
    refine (List.Pairwise.and hapart hlaid.ascending).imp ?_
    rintro t u ⟨hsame | hlt, hle⟩
    · exact Or.inl hsame
    · exact Or.inr (Or.inl ⟨hlt.1, hle⟩)
  exact List.Pairwise.forall_of_forall (R := R) (fun t _ => Or.inl (SameRegion.refl t)) hpairs ht hu

theorem Apart.sameRegion_of_rank (hapart : Apart m) (hlaid : LaidOut m) {t u : Tab} (ht : t ∈ m.tabs) (hu : u ∈ m.tabs)
    (h : rank m.groups t = rank m.groups u) : SameRegion t u := by
  rcases hapart.compare hlaid ht hu with hsame | hlt | hgt
  · exact hsame
  · exact absurd h (ne_of_lt hlt.1)
  · exact absurd h (ne_of_gt hgt.1)

theorem Apart.place_le (hapart : Apart m) (hlaid : LaidOut m) {t u : Tab} (ht : t ∈ m.tabs) (hu : u ∈ m.tabs)
    (h : rank m.groups t ≤ rank m.groups u) : place m.groups t ≤ place m.groups u := by
  rcases hapart.compare hlaid ht hu with hsame | hlt | hgt
  · exact le_of_eq (hsame.place _)
  · exact hlt.2
  · exact absurd h (not_le_of_gt hgt.1)

/-- The strip was in order already. -/
theorem Apart.ascending (hapart : Apart m) : Ascending (rank m.groups) m.tabs := by
  refine hapart.imp ?_
  rintro t u (hsame | hlt)
  · exact le_of_eq (hsame.rank _)
  · exact le_of_lt hlt.1

/-- Of the siblings of a tab, those of its region come first, if there are more of them than the tab. -/
theorem Apart.first (hapart : Apart m) {tab : Tab} (htab : tab ∈ m.tabs) (hmore : regionOf m.tabs tab ≠ [tab]) :
    (m.tabs.filter (fun t => region t = region tab)).Pairwise
      (fun t u => decide (SameRegion u tab) = true → decide (SameRegion t tab) = true) := by
  refine (hapart.sublist List.filter_sublist).imp_of_mem ?_
  intro t u ht hu hpair hsame
  have hsame := of_decide_eq_true hsame
  rcases hpair with htu | ⟨-, hone⟩
  · exact decide_eq_true (htu.trans hsame)
  · -- two regions share a name, and the second is the tab's
    have hname := of_decide_eq_true (List.mem_filter.mp ht).2
    have halone := hone (hname.trans hsame.region.symm)
    rw [regionOf_congr hsame] at halone
    have hmem : tab ∈ regionOf m.tabs tab := mem_regionOf.mpr ⟨htab, .refl tab⟩
    rw [halone, List.mem_singleton] at hmem
    rw [← hmem] at halone
    exact absurd halone hmore

/-- **A move puts the tab where it is asked for in its region.** -/
theorem Apart.index (hapart : Apart m) {tab : Tab} (htab : tab ∈ m.tabs) {toIndex : Int} {front back strip : List Tab}
    (h : Moved m.tabs tab toIndex front back strip) :
    (regionOf strip tab)[clamp (regionOf m.tabs tab).length toIndex]? = some tab := by
  have hbefore := h.regionOf_before
  have hlength : (regionOf m.tabs tab).length = (regionOf (front ++ back) tab).length + 1 := by
    rw [hbefore, regionOf_append, List.length_append, List.length_cons, List.length_append, Nat.add_assoc]
  have hindex : (regionOf ((front ++ back).take (clamp (front.length + back.length + 1) toIndex)) tab).length =
      clamp (regionOf m.tabs tab).length toIndex := by
    have hle : (regionOf (front ++ back) tab).length ≤ front.length + back.length := by
      rw [← List.length_append]
      exact List.length_filter_le ..
    by_cases hmore : regionOf m.tabs tab = [tab]
    · have hnone : regionOf (front ++ back) tab = [] := by
        rw [hmore] at hlength
        exact List.eq_nil_of_length_eq_zero (Nat.succ.inj hlength).symm
      have htake : regionOf ((front ++ back).take (clamp (front.length + back.length + 1) toIndex)) tab = [] :=
        List.eq_nil_of_sublist_nil (hnone ▸ (List.take_sublist ..).filter _)
      rw [htake, hmore]
      unfold clamp
      simp
    · have hfirst := hapart.first htab hmore
      rw [h.siblings] at hfirst
      have hrest := hfirst.sublist (List.Sublist.append_left (List.sublist_cons_self tab back) front)
      have hcount : (regionOf ((front ++ back).take (clamp (front.length + back.length + 1) toIndex)) tab).length =
          min (clamp (front.length + back.length + 1) toIndex) (regionOf (front ++ back) tab).length :=
        length_filter_take hrest _
      rw [hcount, hlength]
      unfold clamp
      omega
  rw [h.regionOf_tab, ← hindex, List.getElem?_append_right (Nat.le_refl _), Nat.sub_self]
  rfl

/-- **When the regions are apart, a move does what it is to do.** -/
theorem Apart.reordered (hapart : Apart m) (hlaid : LaidOut m) (hdistinct : (m.tabs.map Tab.id).Nodup) (id : JsString)
    (toIndex : Int) : Reordered m (reorder m id toIndex).model id toIndex := by
  by_cases hid : id ∈ m.tabs.map Tab.id
  case neg =>
    have hunknown : ∀ t ∈ m.tabs, t.id ≠ id := fun t ht heq => hid (heq ▸ List.mem_map_of_mem ht)
    rw [reorder_unknown hunknown]
    refine ⟨fun tab hfind => ?_, rfl, .refl _, hlaid⟩
    have hsame := List.find?_some hfind
    exact absurd (of_decide_eq_true hsame) (hunknown tab (List.mem_of_find?_eq_some hfind))
  obtain ⟨tab, htab, rfl⟩ := List.mem_map.mp hid
  obtain ⟨front, back, strip, hmoved, hresult⟩ := reorder_tab hdistinct htab toIndex
  have hperm := reorder_perm m tab.id toIndex
  rw [hresult] at hperm ⊢
  have hmem : ∀ {t}, t ∈ strip → t ∈ m.tabs := fun ht => hperm.mem_iff.mp (mem_ordered.mpr ht)
  have hranks : ∀ tabs : List Tab, (∀ t ∈ tabs, t ∈ m.tabs) → ∀ u ∈ m.tabs,
      tabs.filter (fun t => rank m.groups t = rank m.groups u) = regionOf tabs u := by
    intro tabs hsub u hu
    refine List.filter_congr fun t ht => ?_
    rw [decide_eq_decide]
    exact ⟨hapart.sameRegion_of_rank hlaid (hsub t ht) hu, fun hsame => hsame.rank _⟩
  refine ⟨?_, ?_, hperm, ?_⟩
  · intro tab' hfind
    have hsame := List.find?_some hfind
    rw [List.inj_on_of_nodup_map hdistinct (List.mem_of_find?_eq_some hfind) htab (of_decide_eq_true hsame), regionOf_ordered]
    exact hapart.index htab hmoved
  · refine @Ascending.ext _ _ _ (rank m.groups) _ _ ?_ ?_ fun k => ?_
    · exact (ascending_sortOn _ strip).sublist List.filter_sublist
    · exact hapart.ascending.sublist List.filter_sublist
    · rw [List.filter_filter, List.filter_filter]
      by_cases hk : ∃ u ∈ m.tabs, rank m.groups u = k
      · obtain ⟨u, hu, rfl⟩ := hk
        have hrest := hmoved.rest u
        rw [← regionOf_ordered strip m.groups, ← hranks _ (fun t ht => hmem (mem_ordered.mp ht)) u hu,
          ← hranks m.tabs (fun _ ht => ht) u hu,
          List.filter_filter, List.filter_filter] at hrest
        simpa only [Bool.and_comm] using hrest
      · have hnone : ∀ t ∈ m.tabs, rank m.groups t ≠ k := fun t ht heq => hk ⟨t, ht, heq⟩
        rw [List.filter_eq_nil_iff.mpr, List.filter_eq_nil_iff.mpr]
        · intro t ht
          simp [hnone t ht]
        · intro t ht
          simp [hnone t (hmem (mem_ordered.mp ht))]
  · refine laidOut_of_ascending ?_ (fun t ht => hlaid.shown (hperm.mem_iff.mp ht)) hlaid.ids hlaid.orders
    refine (ascending_sortOn (rank m.groups) strip).imp_of_mem ?_
    intro t u ht hu hle
    exact hapart.place_le hlaid (hmem (mem_ordered.mp ht)) (hmem (mem_ordered.mp hu)) hle

/-- A tab that comes before one of another region has a lower place. -/
theorem LaidOut.place_lt (hlaid : LaidOut m) {t u : Tab} (h : [t, u].Sublist m.tabs) (hother : ¬ SameRegion t u) :
    place m.groups t < place m.groups u := by
  have ht : t ∈ m.tabs := h.subset (by simp)
  have hu : u ∈ m.tabs := h.subset (by simp)
  refine lt_of_le_of_ne (List.pairwise_iff_forall_sublist.mp hlaid.ascending h) fun heq => hother ?_
  exact sameRegion_of_place hlaid.ids hlaid.orders (hlaid.shown ht) (hlaid.shown hu) heq

/-- Moving the second tab to the front shows whether the ranks agree with the layout. -/
theorem rank_lt_of_reordered (hlaid : LaidOut m) (hdistinct : (m.tabs.map Tab.id).Nodup) {t u : Tab}
    (h : [t, u].Sublist m.tabs) (hother : ¬ SameRegion t u)
    (hmove : LaidOut (reorder m u.id 0).model) : rank m.groups t < rank m.groups u := by
  by_contra hnot
  have ht : t ∈ m.tabs := h.subset (by simp)
  have hu : u ∈ m.tabs := h.subset (by simp)
  obtain ⟨front, back, strip, hmoved, hresult⟩ := reorder_tab hdistinct hu 0
  have hperm := reorder_perm m u.id 0
  rw [hresult] at hmove hperm
  have hzero : clamp (front.length + back.length + 1) 0 = 0 := by
    unfold clamp
    omega
  have hstrip := hmoved.strip_eq
  rw [hzero, List.insertIdx_zero, List.cons_append] at hstrip
  have hmem : t ∈ strip := mem_ordered.mp (hperm.mem_iff.mpr ht)
  rw [hstrip] at hmove hmem
  have hrest := (List.mem_cons.mp hmem).resolve_left fun heq => hother (heq ▸ .refl t)
  have hfirst := @first_sortOn _ _ _ (rank m.groups) _ _ _ hrest (le_of_not_gt hnot)
  exact absurd (List.pairwise_iff_forall_sublist.mp hmove.ascending hfirst) (not_le_of_gt (hlaid.place_lt h hother))

/-- Moving the first tab of the second region down by one shows whether it is taken for a part of the first. -/
theorem regionOf_eq_of_reordered (hlaid : LaidOut m) (hdistinct : (m.tabs.map Tab.id).Nodup) {t u : Tab}
    (h : [t, u].Sublist m.tabs) (hother : ¬ SameRegion t u) (hname : region t = region u)
    (hmove : ∀ w : Tab, Reordered m (reorder m w.id 1).model w.id 1) : regionOf m.tabs u = [u] := by
  have ht : t ∈ m.tabs := h.subset (by simp)
  have hu : u ∈ m.tabs := h.subset (by simp)
  have hmem : u ∈ regionOf m.tabs u := mem_regionOf.mpr ⟨hu, .refl u⟩
  match hregion : regionOf m.tabs u with
  | [] =>
    rw [hregion] at hmem
    cases hmem
  | [w] =>
    rw [hregion] at hmem
    rw [List.mem_singleton.mp hmem]
  | w :: v :: rest =>
    exfalso
    obtain ⟨hw, hsame⟩ := mem_regionOf.mp (hregion ▸ List.mem_cons_self : w ∈ regionOf m.tabs u)
    rw [← regionOf_congr hsame] at hregion
    obtain ⟨front, back, strip, hmoved, hresult⟩ := reorder_tab hdistinct hw 1
    have hnodup : m.tabs.Nodup := hdistinct.of_map
    have hfront : regionOf front w = [] := by
      have hbefore := hmoved.regionOf_before
      rw [hregion] at hbefore
      match hf : regionOf front w with
      | [] => rfl
      | x :: xs =>
        rw [hf] at hbefore
        have hx := (List.cons.inj hbefore).1
        have hnodup' : (regionOf m.tabs w).Nodup := hnodup.sublist List.filter_sublist
        rw [hmoved.regionOf_before, hf, ← hx] at hnodup'
        exact absurd (List.mem_append_right xs List.mem_cons_self) (List.nodup_cons.mp hnodup').1
    -- the tab of the other region is among the siblings, and before the one that moves
    have htfront : t ∈ front := by
      have htsibling : t ∈ front ++ w :: back := by
        rw [← hmoved.siblings]
        exact List.mem_filter.mpr ⟨ht, decide_eq_true (hname.trans hsame.region.symm)⟩
      rcases List.mem_append.mp htsibling with hin | hin
      · exact hin
      · rcases List.mem_cons.mp hin with rfl | hin
        · exact absurd hsame hother
        · have hsub : [w, t].Sublist m.tabs := by
            refine List.Sublist.trans ?_ (hmoved.siblings ▸ List.filter_sublist : (front ++ w :: back).Sublist m.tabs)
            exact ((List.singleton_sublist.mpr hin).cons_cons w).trans (List.sublist_append_right front _)
          have hle := List.pairwise_iff_forall_sublist.mp hlaid.ascending hsub
          rw [hsame.place] at hle
          exact absurd hle (not_le_of_gt (hlaid.place_lt h hother))
    obtain ⟨f, front, rfl⟩ := List.exists_cons_of_ne_nil (List.ne_nil_of_mem htfront)
    have hone : clamp ((f :: front).length + back.length + 1) 1 = 1 := by
      rw [List.length_cons]
      unfold clamp
      omega
    have hf : regionOf [f] w = [] :=
      List.eq_nil_of_sublist_nil (hfront ▸ (List.singleton_sublist.mpr List.mem_cons_self).filter _)
    have hfirst := hmoved.regionOf_tab
    rw [hone, List.cons_append, List.take_succ_cons, List.take_zero, hf, List.nil_append] at hfirst
    have hplaced := (hmove w).placed w (find?_id hdistinct hw)
    have htwo : clamp (regionOf m.tabs w).length 1 = 1 := by
      rw [hregion, List.length_cons, List.length_cons]
      unfold clamp
      omega
    have hperm := reorder_perm m w.id 1
    rw [hresult] at hplaced hperm
    rw [htwo, regionOf_ordered] at hplaced
    have hnodup' : (regionOf strip w).Nodup :=
      ((ordered_perm strip m.groups).symm.trans hperm |>.nodup_iff.mpr hnodup).sublist List.filter_sublist
    have hzero : (regionOf strip w)[0]? = some w := by rw [hfirst]; rfl
    have hlt : 0 < (regionOf strip w).length := by rw [hfirst]; exact Nat.succ_pos _
    exact absurd ((List.getElem?_inj hlt hnodup').mp (hzero.trans hplaced.symm)) Nat.zero_ne_one

/-- **Every move does what it is to do if and only if the regions are apart.** -/
theorem reordered_iff (hlaid : LaidOut m) (hdistinct : (m.tabs.map Tab.id).Nodup) :
    (∀ id toIndex, Reordered m (reorder m id toIndex).model id toIndex) ↔ Apart m := by
  refine ⟨fun hmoves => ?_, fun hapart => hapart.reordered hlaid hdistinct⟩
  refine List.pairwise_of_forall_sublist fun {t u} h => ?_
  by_cases hother : SameRegion t u
  · exact Or.inl hother
  · refine Or.inr ⟨rank_lt_of_reordered hlaid hdistinct h hother (hmoves u.id 0).laidOut, fun hname => ?_⟩
    exact regionOf_eq_of_reordered hlaid hdistinct h hother hname fun w => hmoves w.id 1

end

/-- Two loose tabs behind one in a group of a given identifier. -/
def behindGroup (id : JsString) : Model :=
  { tabs := [⟨js "a", js "notes", false, some id⟩, ⟨js "b", js "notes", false, none⟩, ⟨js "c", js "ollama", false, none⟩]
    groups := [⟨id, js "Group", .grape, false, 0⟩]
    activeTab := js "a"
    dock := .left }

theorem laidOut_behindGroup (id : JsString) : LaidOut (behindGroup id) where
  strip := by simp [behindGroup, sortOn, membersOf]
  apart := by simp [behindGroup]
  ids := List.nodup_singleton _
  orders := List.nodup_singleton _

/-- Behind a group that is called `loose`, the first of two loose tabs cannot be moved behind the second. -/
theorem not_reordered_behindLoose : LaidOut (behindGroup (js "loose")) ∧ ((behindGroup (js "loose")).tabs.map Tab.id).Nodup ∧
    ¬ Reordered (behindGroup (js "loose")) (reorder (behindGroup (js "loose")) (js "b") 1).model (js "b") 1 := by
  refine ⟨laidOut_behindGroup _, by decide, fun h => ?_⟩
  have hplaced := h.placed ⟨js "b", js "notes", false, none⟩ (by decide +kernel)
  revert hplaced
  decide +kernel

/-- Behind a group with an identifier of its own it can. -/
theorem reordered_behindGroup : Reordered (behindGroup (js "gp-work"))
    (reorder (behindGroup (js "gp-work")) (js "b") 1).model (js "b") 1 :=
  (reordered_iff (laidOut_behindGroup _) (by decide)).mpr (by decide +kernel) _ _

end Tabs
end MaterialOpenWebui
