import MaterialOpenWebui.Lib.Run
import MaterialOpenWebui.Tabs.Model
import Mathlib.Data.List.Perm.Basic

/-!
# `Tabs.Invariant` — what every operation keeps of a tab model

A model is **well-formed** when it has a tab, no two tabs share an identifier, the active tab is one of them,
and a tab in a group is in one that exists. Each operation has its lemma; most change no identifier and go
through `WellFormed.retab`. The three that can break the invariant are named by `Sensible`: closing all tabs
but one that does not exist, selecting one that does not exist, and an identifier minted a second time.
-/

namespace MaterialOpenWebui
namespace Tabs
open Js Run

/-- What the strip relies on. -/
structure WellFormed (m : Model) : Prop where
  nonempty : m.tabs ≠ []
  distinct : (m.tabs.map Tab.id).Nodup
  active : m.activeTab ∈ m.tabs.map Tab.id
  grouped : ∀ t ∈ m.tabs, ∀ g, t.group = some g → g ∈ m.groups.map Group.id

theorem ordered_perm (tabs : List Tab) (groups : List Group) : (ordered tabs groups).Perm tabs :=
  StableSort.perm_sortOn _ tabs

theorem mem_ordered {tabs : List Tab} {groups : List Group} {t : Tab} : t ∈ ordered tabs groups ↔ t ∈ tabs :=
  (ordered_perm tabs groups).mem_iff

/-- An operation that leaves the identifiers and the selection alone keeps the model well-formed when it
    keeps every tab in a group that exists. -/
theorem WellFormed.retab {m m' : Model} (h : WellFormed m)
    (hids : (m'.tabs.map Tab.id).Perm (m.tabs.map Tab.id)) (hactive : m'.activeTab = m.activeTab)
    (hgrouped : ∀ t ∈ m'.tabs, ∀ g, t.group = some g → g ∈ m'.groups.map Group.id) : WellFormed m' where
  nonempty := by
    intro hnil
    rw [hnil, List.map_nil] at hids
    exact h.nonempty (List.map_eq_nil_iff.mp hids.symm.eq_nil)
  distinct := hids.nodup_iff.mpr h.distinct
  active := by
    rw [hactive]
    exact hids.mem_iff.mpr h.active
  grouped := hgrouped

/-! ## Minting -/

/-- The mint after `k` more identifiers. -/
def Mint.after (mint : Mint) (k : Nat) : Mint := ⟨mint.counter + k, mint.draws + k⟩

theorem Mint.after_advance (mint : Mint) (k : Nat) : mint.advance.after k = mint.after (k + 1) := by
  simp [Mint.advance, Mint.after, Nat.add_assoc, Nat.add_comm 1 k]

/-- Identifiers minted at different counts differ, whatever was drawn. -/
theorem nextId_inj {random : Nat → JsString} {mint mint' : Mint}
    (h : nextId random mint = nextId random mint') : mint.counter = mint'.counter := by
  have hyphen : ∀ s : JsString, js "-" ++ s = 0x2d :: s := fun _ => rfl
  simp only [nextId, List.append_assoc, hyphen] at h
  have hradix := append_hyphen_inj (hyphen_not_mem_radix36 _) (hyphen_not_mem_radix36 _)
    (List.append_cancel_left h)
  have hcount := radix36_injective hradix
  omega

/-! ## Reading from disk -/

section
variable (random : Nat → JsString)

/-- What `normalise` returns: the empty strip with the stored dock, or the stored tabs made unique. -/
theorem normalise_cases {mint mint' : Mint} {x : JsValue} {known : Option (List JsString)}
    {default : Option JsString} {m : Model} (h : normalise random mint x known default = some (m, mint')) :
    ∃ groups, (storedGroups (sourceOf x)).zipIdx.mapM (fun g => readGroup g.1 g.2) = some groups ∧
      ((∃ page, m.tabs = (empty random mint page).1.tabs ∧ m.groups = [] ∧
          m.activeTab = (empty random mint page).1.activeTab) ∨
        let read := readTabs random (groups.map Group.id) mint (storedTabs (sourceOf x) known)
        let unique := withUniqueIds random [] read.2 read.1
        read.1 ≠ [] ∧ m.tabs = ordered unique.1 groups ∧
          m.groups = StableSort.sortOn Group.order groups ∧
          (m.activeTab ∈ unique.1.map Tab.id ∨ m.activeTab = (unique.1.head?.map Tab.id).getD [])) := by
  unfold normalise at h
  simp only at h
  cases hgroups : (storedGroups (sourceOf x)).zipIdx.mapM (fun g => readGroup g.1 g.2) with
  | none =>
    rw [hgroups] at h
    cases h
  | some groups =>
    refine ⟨groups, rfl, ?_⟩
    rw [hgroups] at h
    simp only at h
    split at h
    · rename_i hread
      simp only [Option.some.injEq, Prod.mk.injEq] at h
      obtain ⟨rfl, -⟩ := h
      have hnil : storedTabs (sourceOf x) known = [] := by
        cases hstored : storedTabs (sourceOf x) known with
        | nil => rfl
        | cons t ts =>
          rw [hstored] at hread
          simp [readTabs] at hread
      refine Or.inl ⟨firstPage known default, ?_, ?_, ?_⟩
      · rw [hnil]
        rfl
      · rfl
      · rw [hnil]
        rfl
    · rename_i first rest hread
      simp only [Option.some.injEq, Prod.mk.injEq] at h
      obtain ⟨rfl, -⟩ := h
      refine Or.inr ⟨by simp [hread], ?_⟩
      rw [hread]
      refine ⟨rfl, rfl, ?_⟩
      simp only
      split
      · rename_i id _
        split_ifs with hmem
        · exact Or.inl hmem
        · exact Or.inr rfl
      · exact Or.inr rfl

/-- What the strip makes of a stored tab, its identifier aside. -/
def placeOf (groupIds : List JsString) (t : JsValue) : Bool × Option JsString :=
  ((t.get (js "pinned")).isTrue, groupOf groupIds t)

theorem readTab_place (groupIds : List JsString) (mint : Mint) (t : JsValue) :
    ((readTab random groupIds mint t).1.pinned, (readTab random groupIds mint t).1.group) =
      placeOf groupIds t := by
  unfold readTab
  simp only
  split_ifs <;> rfl

theorem readTabs_places (groupIds : List JsString) (mint : Mint) (ts : List JsValue) :
    (readTabs random groupIds mint ts).1.map (fun t => (t.pinned, t.group)) = ts.map (placeOf groupIds) := by
  induction ts generalizing mint with
  | nil => rfl
  | cons t ts ih =>
    simp only [readTabs, List.map_cons, ih, ← readTab_place random groupIds mint t]

theorem withUniqueIds_places (seen : List JsString) (mint : Mint) (ts : List Tab) :
    (withUniqueIds random seen mint ts).1.map (fun t => (t.pinned, t.group)) =
      ts.map (fun t => (t.pinned, t.group)) := by
  induction ts generalizing seen mint with
  | nil => rfl
  | cons t ts ih =>
    unfold withUniqueIds
    split_ifs
    · simp only [List.map_cons, ih]
    · simp only [List.map_cons, ih]

/-- A stored tab keeps its group only if that exists. -/
theorem groupOf_mem {groupIds : List JsString} {t : JsValue} {g : JsString}
    (h : groupOf groupIds t = some g) : g ∈ groupIds := by
  unfold groupOf at h
  split at h
  · rename_i g' _
    split_ifs at h with hmem
    cases h
    exact hmem
  · cases h

/-- How many of the identifiers come a second time. -/
def repeats : List JsString → List JsString → Nat
  | _, [] => 0
  | seen, id :: ids => if id ∈ seen then repeats seen ids + 1 else repeats (id :: seen) ids

/-- Identifiers are unique once each repeated one is minted anew, if no new one is among the old. -/
theorem withUniqueIds_ids : ∀ (ts : List Tab) (seen : List JsString) (mint : Mint),
    (∀ k < repeats seen (ts.map Tab.id), nextId random (mint.after k) ∉ ts.map Tab.id) →
    ((withUniqueIds random seen mint ts).1.map Tab.id).Nodup ∧
      ∀ id ∈ (withUniqueIds random seen mint ts).1.map Tab.id,
        (id ∈ ts.map Tab.id ∧ id ∉ seen) ∨
          ∃ k < repeats seen (ts.map Tab.id), id = nextId random (mint.after k) := by
  intro ts
  induction ts with
  | nil =>
    intro seen mint _
    exact ⟨.nil, fun id hid => absurd hid List.not_mem_nil⟩
  | cons t ts ih =>
    intro seen mint hfresh
    by_cases hseen : t.id ∈ seen
    · -- the tab takes the next identifier, and the rest those after it
      have hrep : repeats seen (t.id :: ts.map Tab.id) = repeats seen (ts.map Tab.id) + 1 := by
        rw [repeats, if_pos hseen]
      rw [List.map_cons, hrep] at hfresh
      obtain ⟨hnodup, hids⟩ := ih seen mint.advance (by
        intro k hk hmem
        rw [Mint.after_advance] at hmem
        exact hfresh (k + 1) (by omega) (List.mem_cons_of_mem _ hmem))
      simp only [withUniqueIds, if_pos hseen, List.map_cons, hrep]
      constructor
      · refine List.nodup_cons.mpr ⟨?_, hnodup⟩
        intro hmem
        rcases hids _ hmem with ⟨hold, -⟩ | ⟨k, -, hk⟩
        · exact hfresh 0 (by omega) (List.mem_cons_of_mem _ hold)
        · have hcount := nextId_inj hk
          simp [Mint.after, Mint.advance] at hcount
          omega
      · intro id hid
        rcases List.mem_cons.mp hid with rfl | hid
        · exact Or.inr ⟨0, by omega, rfl⟩
        · rcases hids id hid with ⟨hold, hnot⟩ | ⟨k, hk, rfl⟩
          · exact Or.inl ⟨List.mem_cons_of_mem _ hold, hnot⟩
          · exact Or.inr ⟨k + 1, by omega, by rw [Mint.after_advance]⟩
    · -- the tab keeps its identifier, which the rest may not have
      have hrep : repeats seen (t.id :: ts.map Tab.id) = repeats (t.id :: seen) (ts.map Tab.id) := by
        rw [repeats, if_neg hseen]
      rw [List.map_cons, hrep] at hfresh
      obtain ⟨hnodup, hids⟩ := ih (t.id :: seen) mint
        (fun k hk hmem => hfresh k hk (List.mem_cons_of_mem _ hmem))
      simp only [withUniqueIds, if_neg hseen, List.map_cons, hrep]
      constructor
      · refine List.nodup_cons.mpr ⟨?_, hnodup⟩
        intro hmem
        rcases hids _ hmem with ⟨-, hnot⟩ | ⟨k, hk, heq⟩
        · exact hnot List.mem_cons_self
        · exact hfresh k hk (by rw [← heq]; exact List.mem_cons_self)
      · intro id hid
        rcases List.mem_cons.mp hid with rfl | hid
        · exact Or.inl ⟨List.mem_cons_self, hseen⟩
        · rcases hids id hid with ⟨hold, hnot⟩ | hminted
          · exact Or.inl ⟨List.mem_cons_of_mem _ hold, fun hs => hnot (List.mem_cons_of_mem _ hs)⟩
          · exact Or.inr hminted

/-- Which groups exist decides nothing about the identifiers read. -/
theorem readTabs_ids (groupIds groupIds' : List JsString) (mint : Mint) (ts : List JsValue) :
    (readTabs random groupIds mint ts).1.map Tab.id = (readTabs random groupIds' mint ts).1.map Tab.id ∧
      (readTabs random groupIds mint ts).2 = (readTabs random groupIds' mint ts).2 := by
  induction ts generalizing mint with
  | nil => exact ⟨rfl, rfl⟩
  | cons t ts ih =>
    have htab : (readTab random groupIds mint t).1.id = (readTab random groupIds' mint t).1.id ∧
        (readTab random groupIds mint t).2 = (readTab random groupIds' mint t).2 := by
      unfold readTab
      simp only
      split_ifs <;> exact ⟨rfl, rfl⟩
    obtain ⟨hids, hmint⟩ := ih (readTab random groupIds' mint t).2
    simp only [readTabs, List.map_cons, htab.1, htab.2, hids, hmint, and_self]

/-- No identifier minted in place of a repeated one is among those of the stored tabs. -/
def FreshForRepeats (mint : Mint) (x : JsValue) (known : Option (List JsString)) : Prop :=
  let read := readTabs random [] mint (storedTabs (sourceOf x) known)
  ∀ k < repeats [] (read.1.map Tab.id), nextId random (read.2.after k) ∉ read.1.map Tab.id

theorem wellFormed_empty (mint : Mint) (page : JsString) : WellFormed (empty random mint page).1 where
  nonempty := by simp [empty]
  distinct := by simp [empty]
  active := by simp [empty]
  grouped := by
    intro t ht g hg
    rw [List.mem_singleton.mp ht] at hg
    cases hg

/-- **A model read from disk is well-formed.** -/
theorem wellFormed_normalise {mint mint' : Mint} {x : JsValue} {known : Option (List JsString)}
    {default : Option JsString} {m : Model} (h : normalise random mint x known default = some (m, mint'))
    (hfresh : FreshForRepeats random mint x known) : WellFormed m := by
  obtain ⟨groups, -, ⟨page, htabs, hgroups, hactive⟩ | hread⟩ := normalise_cases random h
  · have hempty := wellFormed_empty random mint page
    refine ⟨htabs ▸ hempty.nonempty, htabs ▸ hempty.distinct, ?_, ?_⟩
    · rw [hactive, htabs]
      exact hempty.active
    · intro t ht g hg
      rw [htabs] at ht
      rw [List.mem_singleton.mp ht] at hg
      cases hg
  · -- the tabs shown are the unique ones in another order
    obtain ⟨hne, htabs, hgroups, hactive⟩ := hread
    obtain ⟨hids, hmint⟩ := readTabs_ids random (groups.map Group.id) [] mint (storedTabs (sourceOf x) known)
    have hunique := (withUniqueIds_ids random
      (readTabs random (groups.map Group.id) mint (storedTabs (sourceOf x) known)).1 []
      (readTabs random (groups.map Group.id) mint (storedTabs (sourceOf x) known)).2 (by
        rw [hids, hmint]
        exact hfresh)).1
    have hplaces := withUniqueIds_places random []
      (readTabs random (groups.map Group.id) mint (storedTabs (sourceOf x) known)).2
      (readTabs random (groups.map Group.id) mint (storedTabs (sourceOf x) known)).1
    generalize withUniqueIds random [] _ _ = unique at htabs hactive hunique hplaces
    have hperm := ordered_perm unique.1 groups
    have hnonempty : unique.1 ≠ [] := by
      intro hnil
      rw [hnil, List.map_nil] at hplaces
      exact hne (List.map_eq_nil_iff.mp hplaces.symm)
    refine ⟨?_, ?_, ?_, ?_⟩
    · rw [htabs]
      intro hnil
      rw [hnil] at hperm
      exact hnonempty hperm.symm.eq_nil
    · rw [htabs]
      exact (hperm.map Tab.id).nodup_iff.mpr hunique
    · rw [htabs, (hperm.map Tab.id).mem_iff]
      rcases hactive with hmem | hfirst
      · exact hmem
      · obtain ⟨t, ts, hcons⟩ := List.exists_cons_of_ne_nil hnonempty
        rw [hfirst, hcons]
        simp
    · intro t ht g hg
      rw [htabs, mem_ordered] at ht
      have hplace : (t.pinned, t.group) ∈ (storedTabs (sourceOf x) known).map (placeOf (groups.map Group.id)) := by
        rw [← readTabs_places random (groups.map Group.id) mint, ← hplaces]
        exact List.mem_map_of_mem ht
      obtain ⟨v, -, hv⟩ := List.mem_map.mp hplace
      rw [placeOf, Prod.mk.injEq, hg] at hv
      rw [hgroups, ((StableSort.perm_sortOn _ _).map Group.id).mem_iff]
      exact groupOf_mem hv.2

end

/-! ## Operations -/

/-- Dropping tabs keeps the model well-formed when one remains and the selection is among those. -/
theorem WellFormed.filter {m : Model} (h : WellFormed m) (p : Tab → Bool) {activeTab : JsString}
    (hactive : activeTab ∈ (m.tabs.filter p).map Tab.id) :
    WellFormed { m with tabs := m.tabs.filter p, activeTab := activeTab } where
  nonempty := by
    intro hnil
    have hnil : m.tabs.filter p = [] := hnil
    rw [hnil] at hactive
    exact absurd hactive List.not_mem_nil
  distinct := h.distinct.sublist (List.filter_sublist.map Tab.id)
  active := hactive
  grouped := fun t ht g hg => h.grouped t (List.mem_of_mem_filter ht) g hg

/-- Putting the tabs of a well-formed model into strip order. -/
theorem WellFormed.ordered {m : Model} (h : WellFormed m) :
    WellFormed { m with tabs := ordered m.tabs m.groups } :=
  h.retab ((ordered_perm _ _).map Tab.id) rfl (fun t ht g hg => h.grouped t (mem_ordered.mp ht) g hg)

/-- Opening a tab under an identifier that no tab has. -/
theorem wellFormed_openTab {random : Nat → JsString} {mint : Mint} {m : Model} (h : WellFormed m)
    (page : JsString) (hfresh : m.tabs.length < maxTabs → nextId random mint ∉ m.tabs.map Tab.id) :
    WellFormed (openTab random mint m page).1.model := by
  unfold openTab
  split_ifs with hlimit
  · exact h
  · have hnew := hfresh (by omega)
    refine WellFormed.ordered (m := { m with tabs := m.tabs ++ [⟨_, page, false, none⟩], activeTab := _ }) ?_
    refine ⟨by simp, ?_, by simp, ?_⟩
    · rw [List.map_append, List.nodup_append]
      refine ⟨h.distinct, by simp, ?_⟩
      intro a ha b hb heq
      rw [List.map_cons, List.map_nil, List.mem_singleton] at hb
      have hid : a = nextId random mint := heq.trans hb
      exact hnew (hid ▸ ha)
    · intro t ht g hg
      rcases List.mem_append.mp ht with ht | ht
      · exact h.grouped t ht g hg
      · rw [List.mem_singleton.mp ht] at hg
        cases hg

/-- With two tabs, one is left whichever identifier closes. -/
theorem exists_other {m : Model} (hdistinct : (m.tabs.map Tab.id).Nodup) (hlen : ¬ m.tabs.length ≤ 1) (id : JsString) :
    m.tabs.filter (fun t => t.id ≠ id) ≠ [] := by
  intro hnil
  rw [List.filter_eq_nil_iff] at hnil
  have hall : ∀ t ∈ m.tabs, t.id = id := fun t ht => by simpa using hnil t ht
  have hreplicate : m.tabs.map Tab.id = List.replicate m.tabs.length id := by
    rw [List.eq_replicate_iff]
    refine ⟨List.length_map _, ?_⟩
    intro a ha
    obtain ⟨t, ht, rfl⟩ := List.mem_map.mp ha
    exact hall t ht
  rw [hreplicate, List.nodup_replicate] at hdistinct
  exact hlen hdistinct

/-- The tab selected after a close is one that is left. -/
theorem active_close_mem {m : Model} (hdistinct : (m.tabs.map Tab.id).Nodup) (hactive : m.activeTab ∈ m.tabs.map Tab.id)
    (id : JsString) : (close m id).model.activeTab ∈ (close m id).model.tabs.map Tab.id := by
  unfold close
  by_cases hlen : m.tabs.length ≤ 1
  · rw [if_pos hlen]
    exact hactive
  · rw [if_neg hlen]
    split
    · exact hactive
    · have hne := exists_other hdistinct hlen id
      have hfirst : ((m.tabs.filter (fun t => t.id ≠ id)).head?.map Tab.id).getD [] ∈
          (m.tabs.filter (fun t => t.id ≠ id)).map Tab.id := by
        obtain ⟨t, ts, hcons⟩ := List.exists_cons_of_ne_nil hne
        rw [hcons]
        simp
      simp only
      split_ifs with hclosed hmem
      · exact hmem
      · exact hfirst
      · -- the active tab is another one, so it is still there
        obtain ⟨t, ht, hid⟩ := List.mem_map.mp hactive
        refine List.mem_map.mpr ⟨t, List.mem_filter.mpr ⟨ht, ?_⟩, hid⟩
        rw [← hid] at hclosed
        simpa using hclosed

theorem wellFormed_close {m : Model} (h : WellFormed m) (id : JsString) :
    WellFormed (close m id).model := by
  have hselected := active_close_mem h.distinct h.active id
  unfold close at hselected ⊢
  by_cases hlen : m.tabs.length ≤ 1
  · rw [if_pos hlen]
    exact h
  · rw [if_neg hlen] at hselected ⊢
    cases hfind : m.tabs.findIdx? (fun t => t.id = id) with
    | none => exact h
    | some index =>
      rw [hfind] at hselected
      exact h.filter _ hselected

/-- What `close` keeps, `closeMatching` keeps: it closes the doomed tabs one by one. -/
theorem closeMatching_preserves {P : Model → Prop} (hclose : ∀ {m}, P m → ∀ id, P (close m id).model)
    {m : Model} (h : P m) (test : JsString → Bool) (labelFor : JsString → JsString) (invert : Bool) :
    P (closeMatching m test labelFor invert).model := by
  have hfold : ∀ (doomed : List Tab) (m : Model), P m →
      P (doomed.foldl (fun next t => (close next t.id).model) m) := by
    intro doomed
    induction doomed with
    | nil => intro m h; exact h
    | cons t doomed ih => intro m h; exact ih _ (hclose h t.id)
  unfold closeMatching
  simp only
  split_ifs
  · exact h
  · exact hfold _ m h

theorem wellFormed_closeMatching {m : Model} (h : WellFormed m) (test : JsString → Bool)
    (labelFor : JsString → JsString) (invert : Bool) :
    WellFormed (closeMatching m test labelFor invert).model :=
  closeMatching_preserves (fun h => wellFormed_close h) h test labelFor invert

/-- Closing the others selects the tab kept, which has to be there unless nothing is pinned either. -/
theorem wellFormed_closeOthers {m : Model} (h : WellFormed m) {keepId : JsString}
    (hkeep : keepId ∈ m.tabs.map Tab.id ∨ ∀ t ∈ m.tabs, t.pinned = false) :
    WellFormed (closeOthers m keepId).model := by
  unfold closeOthers
  simp only
  split_ifs with hnil
  · exact h
  · have hmem : keepId ∈ (m.tabs.filter (fun t => t.id = keepId ∨ t.pinned)).map Tab.id := by
      rcases hkeep with hmem | hloose
      · obtain ⟨t, ht, hid⟩ := List.mem_map.mp hmem
        exact List.mem_map.mpr ⟨t, List.mem_filter.mpr ⟨ht, by simp [hid]⟩, hid⟩
      · obtain ⟨t, ts, hcons⟩ := List.exists_cons_of_ne_nil hnil
        have ht : t ∈ m.tabs.filter (fun t => t.id = keepId ∨ t.pinned) := by
          rw [hcons]
          exact List.mem_cons_self
        obtain ⟨htabs, hcond⟩ := List.mem_filter.mp ht
        have hid : t.id = keepId := by simpa [hloose t htabs] using hcond
        exact List.mem_map.mpr ⟨t, ht, hid⟩
    exact (h.filter _ hmem).ordered

/-- Changing tabs without touching an identifier, then ordering them. -/
theorem WellFormed.mapTabs {m : Model} (h : WellFormed m) {f : Tab → Tab} (hid : ∀ t, (f t).id = t.id)
    {groups : List Group}
    (hgrouped : ∀ t ∈ m.tabs, ∀ g, (f t).group = some g → g ∈ groups.map Group.id) :
    WellFormed { m with tabs := Tabs.ordered (m.tabs.map f) groups, groups := groups } := by
  refine h.retab ?_ rfl ?_
  · refine ((ordered_perm _ _).map Tab.id).trans ?_
    rw [List.map_map]
    have heq : Tab.id ∘ f = Tab.id := funext hid
    rw [heq]
  · intro t ht g hg
    obtain ⟨u, hu, rfl⟩ := List.mem_map.mp (mem_ordered.mp ht)
    exact hgrouped u hu g hg

theorem wellFormed_setPinned {m : Model} (h : WellFormed m) (id : JsString) (pinned : Bool) :
    WellFormed (setPinned m id pinned).model := by
  refine h.mapTabs ?_ ?_
  · intro t
    split_ifs <;> rfl
  · intro t ht g hg
    refine h.grouped t ht g ?_
    split_ifs at hg <;> exact hg

/-- Moving an entry within a list keeps the entries. -/
theorem moveWithin_perm {α : Type} (l : List α) (source target : Nat) (ht : target < l.length) :
    (moveWithin l source target).Perm l := by
  unfold moveWithin
  split
  · rename_i a hs
    obtain ⟨hlt, rfl⟩ := List.getElem?_eq_some_iff.mp hs
    have hlen : (l.eraseIdx source).length = l.length - 1 := List.length_eraseIdx_of_lt hlt
    refine (List.perm_insertIdx _ _ (by omega)).trans ?_
    exact List.getElem_cons_eraseIdx_perm hlt
  · exact .refl _

theorem clamp_lt {length : Nat} (h : 0 < length) (toIndex : Int) : clamp length toIndex < length := by
  unfold clamp
  omega

/-- Reordering permutes the tabs. -/
theorem reorder_perm (m : Model) (id : JsString) (toIndex : Int) :
    (reorder m id toIndex).model.tabs.Perm m.tabs := by
  unfold reorder
  split
  · exact .refl _
  · rename_i tab hfind
    have htab : tab ∈ m.tabs.filter (fun t => region t = region tab) :=
      List.mem_filter.mpr ⟨List.mem_of_find?_eq_some hfind, by simp⟩
    have hpos : 0 < (m.tabs.filter (fun t => region t = region tab)).length := List.length_pos_of_mem htab
    refine (ordered_perm _ _).trans (((moveWithin_perm _ _ _ (clamp_lt hpos toIndex)).append_right _).trans ?_)
    have hnot : (fun t : Tab => decide (region t ≠ region tab)) =
        fun t => !decide (region t = region tab) := by
      funext t
      simp
    rw [hnot]
    exact List.filter_append_perm _ _

theorem reorder_rest (m : Model) (id : JsString) (toIndex : Int) :
    (reorder m id toIndex).model.groups = m.groups ∧ (reorder m id toIndex).model.activeTab = m.activeTab := by
  unfold reorder
  split <;> exact ⟨rfl, rfl⟩

theorem wellFormed_reorder {m : Model} (h : WellFormed m) (id : JsString) (toIndex : Int) :
    WellFormed (reorder m id toIndex).model := by
  have hperm := reorder_perm m id toIndex
  obtain ⟨hgroups, hactive⟩ := reorder_rest m id toIndex
  refine h.retab (hperm.map Tab.id) hactive ?_
  intro t ht g hg
  rw [hgroups]
  exact h.grouped t (hperm.mem_iff.mp ht) g hg

/-- Changing groups keeps the model well-formed while every identifier of a group stays. -/
theorem WellFormed.regroup {m : Model} (h : WellFormed m) {groups : List Group}
    (hids : ∀ g ∈ m.groups.map Group.id, g ∈ groups.map Group.id) : WellFormed { m with groups := groups } :=
  h.retab (.refl _) rfl (fun t ht g hg => hids g (h.grouped t ht g hg))

theorem wellFormed_createGroup {random : Nat → JsString} {mint : Mint} {m : Model} (h : WellFormed m)
    (name colour : JsString) : WellFormed (createGroup random mint m name colour).1.model := by
  unfold createGroup
  split_ifs
  · exact h
  · refine h.regroup ?_
    intro g hg
    rw [List.map_append]
    exact List.mem_append_left _ hg

/-- Updating the groups of one identifier keeps the identifiers. -/
theorem updateGroup_ids (m : Model) (groupId : JsString) {f : Group → Group} (hf : ∀ g, (f g).id = g.id) :
    (updateGroup m groupId f).groups.map Group.id = m.groups.map Group.id := by
  rw [updateGroup, List.map_map]
  refine List.map_congr_left ?_
  intro g _
  simp only [Function.comp]
  split_ifs
  · exact hf g
  · rfl

theorem wellFormed_updateGroup {m : Model} (h : WellFormed m) (groupId : JsString) {f : Group → Group}
    (hf : ∀ g, (f g).id = g.id) : WellFormed (updateGroup m groupId f) := by
  have hids := updateGroup_ids m groupId hf
  exact h.regroup (fun g hg => hids ▸ hg)

theorem renumber_ids (groups : List Group) : (renumber groups).map Group.id = groups.map Group.id := by
  have hcomp : Group.id ∘ (fun g : Group × Nat => { g.1 with order := (g.2 : ℚ) }) = Group.id ∘ Prod.fst := rfl
  rw [renumber, List.map_map, hcomp, ← List.map_map, List.zipIdx_map_fst]

theorem wellFormed_reorderGroup {m : Model} (h : WellFormed m) (groupId : JsString) (toIndex : Int) :
    WellFormed (reorderGroup m groupId toIndex).model := by
  unfold reorderGroup
  simp only
  split
  · exact h
  · rename_i index hindex
    have hpos : 0 < (StableSort.sortOn Group.order m.groups).length := by
      have hlt := (List.findIdx?_eq_some_iff_getElem.mp hindex).1
      omega
    have hperm := (moveWithin_perm _ index _ (clamp_lt hpos toIndex)).trans (StableSort.perm_sortOn _ m.groups)
    have hgroups : ∀ g ∈ m.groups.map Group.id, g ∈ (renumber (moveWithin
        (StableSort.sortOn Group.order m.groups) index
        (clamp (StableSort.sortOn Group.order m.groups).length toIndex))).map Group.id := by
      intro g hg
      rw [renumber_ids]
      exact (hperm.map Group.id).mem_iff.mpr hg
    exact (h.regroup hgroups).ordered

theorem wellFormed_deleteGroup {m : Model} (h : WellFormed m) (groupId : JsString) :
    WellFormed (deleteGroup m groupId).model := by
  refine h.mapTabs ?_ ?_
  · intro t
    split_ifs <;> rfl
  · intro t ht g hg
    split_ifs at hg with heq
    obtain ⟨group, hmem, hid⟩ := List.mem_map.mp (h.grouped t ht g hg)
    rw [renumber_ids]
    refine List.mem_map.mpr ⟨group, List.mem_filter.mpr ⟨hmem, ?_⟩, hid⟩
    rw [hg, Option.some.injEq] at heq
    simpa [hid] using heq

theorem wellFormed_moveToGroup {m : Model} (h : WellFormed m) (tabId : JsString) (groupId : Option JsString) :
    WellFormed (moveToGroup m tabId groupId).model := by
  unfold moveToGroup
  split_ifs with hunknown
  · exact h
  · refine h.mapTabs ?_ ?_
    · intro t
      split_ifs <;> rfl
    · intro t ht g hg
      split_ifs at hg
      · -- the group moved to was looked up
        have hg : groupId = some g := hg
        subst hg
        have hmem : some g ∈ m.groups.map (fun g => some g.id) := by
          by_contra hnot
          exact hunknown ⟨by simp, hnot⟩
        obtain ⟨group, hgroup, hid⟩ := List.mem_map.mp hmem
        exact List.mem_map.mpr ⟨group, hgroup, Option.some.inj hid⟩
      · exact h.grouped t ht g hg

theorem wellFormed_setDock {m : Model} (h : WellFormed m) (dock : JsString) :
    WellFormed (setDock m dock).model := by
  unfold setDock
  split
  · exact h
  · exact ⟨h.nonempty, h.distinct, h.active, h.grouped⟩

theorem wellFormed_activate {m : Model} (h : WellFormed m) {id : JsString} (hid : id ∈ m.tabs.map Tab.id) :
    WellFormed (activate m id).model := ⟨h.nonempty, h.distinct, hid, h.grouped⟩

/-! ## Runs -/

section
variable (random : Nat → JsString)

/-- A call that names a tab to keep or to select names one that is there (to keep, unless none is pinned),
    and a tab opened gets an identifier that no tab has. -/
def Sensible (s : State) : Op → Prop
  | .openTab _ => s.model.tabs.length < maxTabs → nextId random s.mint ∉ s.model.tabs.map Tab.id
  | .closeOthers keepId => keepId ∈ s.model.tabs.map Tab.id ∨ ∀ t ∈ s.model.tabs, t.pinned = false
  | .activate id => id ∈ s.model.tabs.map Tab.id
  | _ => True

/-- **Step lemma.** -/
theorem wellFormed_step {s : State} {op : Op} (h : WellFormed s.model) (hok : Sensible random s op) :
    WellFormed (step random s op).model := by
  cases op with
  | openTab page => exact wellFormed_openTab h page hok
  | close id => exact wellFormed_close h id
  | closeMatching test labelFor invert => exact wellFormed_closeMatching h test labelFor invert
  | closeOthers keepId => exact wellFormed_closeOthers h hok
  | setPinned id pinned => exact wellFormed_setPinned h id pinned
  | reorder id toIndex => exact wellFormed_reorder h id toIndex
  | createGroup name colour => exact wellFormed_createGroup h name colour
  | renameGroup groupId name => exact wellFormed_updateGroup h groupId (fun _ => rfl)
  | setGroupColour groupId colour =>
    simp only [step, setGroupColour]
    split
    · exact h
    · exact wellFormed_updateGroup h groupId (fun _ => rfl)
  | setGroupCollapsed groupId collapsed => exact wellFormed_updateGroup h groupId (fun _ => rfl)
  | reorderGroup groupId toIndex => exact wellFormed_reorderGroup h groupId toIndex
  | deleteGroup groupId => exact wellFormed_deleteGroup h groupId
  | moveToGroup tabId groupId => exact wellFormed_moveToGroup h tabId groupId
  | setDock dock => exact wellFormed_setDock h dock
  | activate id => exact wellFormed_activate h hok

/-- Where a run starts: an empty strip, or a model read from disk under fresh identifiers. -/
inductive Started : State → Prop where
  | empty (mint : Mint) (page : JsString) :
      Started ⟨(Tabs.empty random mint page).1, (Tabs.empty random mint page).2⟩
  | normalise {mint mint' : Mint} {x : JsValue} {known : Option (List JsString)} {default : Option JsString}
      {m : Model} (h : Tabs.normalise random mint x known default = some (m, mint'))
      (hfresh : FreshForRepeats random mint x known) : Started ⟨m, mint'⟩

/-- **Run lemma.** Every model reached by sensible calls is well-formed. -/
theorem wellFormed_of_sensible {s : State} {ops : List Op} (hs : Started random s)
    (h : AllSteps (Sensible random) (step random) s ops) : WellFormed (run (step random) s ops).model := by
  have hstart : WellFormed s.model := by
    cases hs with
    | empty mint page => exact wellFormed_empty random mint page
    | normalise hn hfresh => exact wellFormed_normalise random hn hfresh
  exact invariant (I := fun s => WellFormed s.model) (fun _ _ hI hok => wellFormed_step random hI hok) hstart h

end

/-- Draws that all came out the same: the counter alone keeps identifiers apart. -/
def sameDraw : Nat → JsString := fun _ => js "4fzyo"

/-- A stored strip whose two tabs share an identifier, the second in a group. -/
def storedStrip : JsValue :=
  .obj [(js "groups", .arr [.obj [(js "id", .str (js "g")), (js "name", .str (js "Work"))]]),
    (js "tabs", .arr
      [.obj [(js "id", .str (js "t")), (js "page", .str (js "ollama"))],
        .obj [(js "id", .str (js "t")), (js "page", .str (js "models")), (js "group", .str (js "g"))]]),
    (js "activeTab", .str (js "t")), (js "dock", .str (js "top"))]

/-- The strip it becomes: the repeated identifier is minted anew, and the grouped tab comes first. -/
def repairedStrip : Model :=
  { tabs := [⟨js "tb-1-4fzyo", js "models", false, some (js "g")⟩, ⟨js "t", js "ollama", false, none⟩]
    groups := [⟨js "g", js "Work", .grape, false, 0⟩]
    activeTab := js "t"
    dock := .top }

/-- Opening, pinning and closing the rest of the repaired strip. -/
theorem wellFormed_repairedStrip : WellFormed (run (step sameDraw) ⟨repairedStrip, ⟨1, 1⟩⟩
    [.openTab (js "status"), .setPinned (js "t") true, .closeOthers (js "tb-2-4fzyo"),
      .activate (js "t")]).model := by
  have hread : normalise sameDraw ⟨0, 0⟩ storedStrip none none = some (repairedStrip, ⟨1, 1⟩) := by
    decide +kernel
  refine wellFormed_of_sensible sameDraw (.normalise hread ?_) ?_
  · unfold FreshForRepeats
    decide +kernel
  · refine ⟨fun _ => ?_, trivial, Or.inl ?_, ?_, trivial⟩
    · decide +kernel
    · show js "tb-2-4fzyo" ∈ _
      decide +kernel
    · show js "t" ∈ _
      decide +kernel

/-- Closing all but a tab that does not exist, with one tab pinned: the active tab is none of the strip. -/
theorem not_wellFormed_after_closeOthers : ¬ WellFormed (run (step sameDraw)
    ⟨(empty sameDraw ⟨0, 0⟩ (js "ollama")).1, (empty sameDraw ⟨0, 0⟩ (js "ollama")).2⟩
    [.setPinned (js "tb-1-4fzyo") true, .closeOthers (js "ghost")]).model := by
  intro h
  exact absurd h.active (by decide +kernel)

end Tabs
end MaterialOpenWebui
