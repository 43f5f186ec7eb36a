import Mathlib.Algebra.GroupWithZero.Nat
import Mathlib.Data.List.Basic
import Mathlib.Data.List.Nodup

/-!
# `Lib.Dict` — dictionaries that keep the order of insertion

A dictionary is the list of its items, in the order their keys were first inserted, each key once. Setting a
key that is there keeps its place, a new key goes to the end, and removing one closes the gap. What a
dictionary holds is `get?`; every operation comes with the lemma that says what it does to `get?`, and with
what it does to the keys where their order matters.
-/

/-- A dictionary, as the list of its items. -/
structure Dict (κ α : Type) where
  items : List (κ × α)
  nodup : (items.map Prod.fst).Nodup

namespace Dict

variable {κ α β : Type}

def keys (d : Dict κ α) : List κ := d.items.map Prod.fst

theorem nodup_keys (d : Dict κ α) : d.keys.Nodup := d.nodup

instance : Membership κ (Dict κ α) := ⟨fun d k => k ∈ d.keys⟩

theorem mem_iff_mem_keys {d : Dict κ α} {k : κ} : k ∈ d ↔ k ∈ d.keys := Iff.rfl

def size (d : Dict κ α) : Nat := d.items.length

def empty : Dict κ α := ⟨[], List.nodup_nil⟩

theorem not_mem_empty (k : κ) : k ∉ (empty : Dict κ α) := List.not_mem_nil

/-- Changes every value. -/
def map (f : κ → α → β) (d : Dict κ α) : Dict κ β where
  items := d.items.map (fun p => (p.1, f p.1 p.2))
  nodup := by
    rw [List.map_map]
    exact d.nodup

@[simp] theorem keys_map (f : κ → α → β) (d : Dict κ α) : (d.map f).keys = d.keys := by
  simp [keys, map, Function.comp_def]

theorem mem_map {f : κ → α → β} {d : Dict κ α} {k : κ} : k ∈ d.map f ↔ k ∈ d := by
  rw [mem_iff_mem_keys, keys_map, mem_iff_mem_keys]

variable [DecidableEq κ]

/-- What the first item of a key holds. -/
def lookup : List (κ × α) → κ → Option α
  | [], _ => none
  | p :: items, k => if k = p.1 then some p.2 else lookup items k

theorem lookup_cons (p : κ × α) (items : List (κ × α)) (k : κ) :
    lookup (p :: items) k = if k = p.1 then some p.2 else lookup items k := rfl

def get? (d : Dict κ α) (k : κ) : Option α := lookup d.items k

instance (k : κ) (d : Dict κ α) : Decidable (k ∈ d) := inferInstanceAs (Decidable (k ∈ d.keys))

@[simp] theorem get?_empty (k : κ) : (empty : Dict κ α).get? k = none := rfl

/-! ## Looking up -/

theorem lookup_eq_none_iff {items : List (κ × α)} {k : κ} :
    lookup items k = none ↔ k ∉ items.map Prod.fst := by
  induction items with
  | nil => simp [lookup]
  | cons p items ih =>
    rw [lookup_cons]
    by_cases hk : k = p.1
    · simp [hk]
    · simp [hk, ih]

theorem lookup_eq_some_iff {items : List (κ × α)} (hnodup : (items.map Prod.fst).Nodup) {k : κ} {v : α} :
    lookup items k = some v ↔ (k, v) ∈ items := by
  induction items with
  | nil => simp [lookup]
  | cons p items ih =>
    obtain ⟨k', v'⟩ := p
    simp only [List.map_cons, List.nodup_cons] at hnodup
    rw [lookup_cons]
    by_cases hk : k = k'
    · subst hk
      have hrest : (k, v) ∉ items := fun hmem => hnodup.1 (List.mem_map_of_mem (f := Prod.fst) hmem)
      simp [hrest, eq_comm]
    · simp [hk, ih hnodup.2]

theorem get?_eq_some_iff {d : Dict κ α} {k : κ} {v : α} : d.get? k = some v ↔ (k, v) ∈ d.items :=
  lookup_eq_some_iff d.nodup

theorem get?_eq_none_iff {d : Dict κ α} {k : κ} : d.get? k = none ↔ k ∉ d := lookup_eq_none_iff

theorem mem_iff {d : Dict κ α} {k : κ} : k ∈ d ↔ ∃ v, d.get? k = some v := by
  rw [← Option.ne_none_iff_exists', Ne, get?_eq_none_iff, not_not]

theorem mem_of_get? {d : Dict κ α} {k : κ} {v : α} (h : d.get? k = some v) : k ∈ d := mem_iff.mpr ⟨v, h⟩

/-! ## Setting a key -/

def setItems (items : List (κ × α)) (k : κ) (v : α) : List (κ × α) :=
  match items with
  | [] => [(k, v)]
  | p :: items => if p.1 = k then (k, v) :: items else p :: setItems items k v

theorem keys_setItems (items : List (κ × α)) (k : κ) (v : α) : (setItems items k v).map Prod.fst =
    if k ∈ items.map Prod.fst then items.map Prod.fst else items.map Prod.fst ++ [k] := by
  induction items with
  | nil => simp [setItems]
  | cons p items ih =>
    rw [setItems]
    by_cases hk : p.1 = k
    · simp [hk]
    · have hk' : ¬ k = p.1 := fun heq => hk heq.symm
      rw [if_neg hk, List.map_cons, ih]
      by_cases hmem : k ∈ items.map Prod.fst
      · rw [List.map_cons, if_pos hmem, if_pos (List.mem_cons_of_mem _ hmem)]
      · have hall : k ∉ (p :: items).map Prod.fst := by
          rw [List.map_cons, List.mem_cons]
          exact not_or.mpr ⟨hk', hmem⟩
        rw [if_neg hmem, if_neg hall, List.map_cons, List.cons_append]

theorem lookup_setItems (items : List (κ × α)) (k : κ) (v : α) (k' : κ) :
    lookup (setItems items k v) k' = if k' = k then some v else lookup items k' := by
  induction items with
  | nil =>
    rw [setItems, lookup_cons]
  | cons p items ih =>
    rw [setItems]
    by_cases hp : p.1 = k
    · rw [if_pos hp, lookup_cons, lookup_cons]
      by_cases hk : k' = k <;> simp [hk, hp]
    · rw [if_neg hp, lookup_cons, lookup_cons, ih]
      by_cases hk : k' = k
      · subst hk
        have hp' : ¬ k' = p.1 := fun heq => hp heq.symm
        simp [hp']
      · simp [hk]

/-- `d[k] = v`. -/
def set (d : Dict κ α) (k : κ) (v : α) : Dict κ α where
  items := setItems d.items k v
  nodup := by
    rw [keys_setItems]
    split
    · exact d.nodup
    · rename_i hmem
      exact List.nodup_append.mpr ⟨d.nodup, List.nodup_singleton k, fun a ha b hb heq =>
        hmem (List.mem_singleton.mp hb ▸ heq ▸ ha)⟩

theorem get?_set (d : Dict κ α) (k : κ) (v : α) (k' : κ) :
    (d.set k v).get? k' = if k' = k then some v else d.get? k' := lookup_setItems d.items k v k'

@[simp] theorem get?_set_self (d : Dict κ α) (k : κ) (v : α) : (d.set k v).get? k = some v := by
  rw [get?_set, if_pos rfl]

theorem get?_set_of_ne (d : Dict κ α) {k k' : κ} (v : α) (h : k' ≠ k) : (d.set k v).get? k' = d.get? k' := by
  rw [get?_set, if_neg h]

theorem mem_set {d : Dict κ α} {k : κ} {v : α} {k' : κ} : k' ∈ d.set k v ↔ k' = k ∨ k' ∈ d := by
  rw [mem_iff, mem_iff, get?_set]
  by_cases hk : k' = k <;> simp [hk]

theorem keys_set (d : Dict κ α) (k : κ) (v : α) :
    (d.set k v).keys = if k ∈ d then d.keys else d.keys ++ [k] := keys_setItems d.items k v

theorem keys_set_of_mem {d : Dict κ α} {k : κ} (v : α) (h : k ∈ d) : (d.set k v).keys = d.keys := by
  rw [keys_set, if_pos h]

theorem setItems_of_not_mem {items : List (κ × α)} {k : κ} (v : α) (h : k ∉ items.map Prod.fst) :
    setItems items k v = items ++ [(k, v)] := by
  induction items with
  | nil => rfl
  | cons p items ih =>
    rw [List.map_cons, List.mem_cons, not_or] at h
    rw [setItems, if_neg (Ne.symm h.1), ih h.2, List.cons_append]

/-- A new key goes to the end. -/
theorem items_set_of_not_mem {d : Dict κ α} {k : κ} (v : α) (h : k ∉ d) : (d.set k v).items = d.items ++ [(k, v)] :=
  setItems_of_not_mem v h

/-! ## Setting several keys -/

/-- Sets each of the keys for which there is a value. -/
def setEach (d : Dict κ α) (value : κ → Option α) (ks : List κ) : Dict κ α :=
  ks.foldl (fun d k => match value k with | some v => d.set k v | none => d) d

theorem get?_setEach (d : Dict κ α) (value : κ → Option α) (ks : List κ) (j : κ) :
    (d.setEach value ks).get? j = if j ∈ ks then (value j).or (d.get? j) else d.get? j := by
  induction ks generalizing d with
  | nil => simp [setEach]
  | cons k ks ih =>
    rw [setEach, List.foldl_cons]
    have hih := fun d => ih (d := d)
    simp only [setEach] at hih
    rw [hih]
    by_cases hj : j = k
    · subst hj
      cases value j <;> simp
    · have hget : (match value k with | some v => d.set k v | none => d).get? j = d.get? j := by
        cases value k with
        | none => rfl
        | some v => exact get?_set_of_ne d v hj
      have hcons : j ∈ k :: ks ↔ j ∈ ks :=
        ⟨fun h => (List.mem_cons.mp h).resolve_left hj, List.mem_cons_of_mem _⟩
      simp only [hget, hcons]

theorem keys_setEach {d : Dict κ α} {value : κ → Option α} {ks : List κ}
    (h : ∀ k ∈ ks, (value k).isSome = true → k ∈ d) : (d.setEach value ks).keys = d.keys := by
  induction ks generalizing d with
  | nil => rfl
  | cons k ks ih =>
    rw [setEach, List.foldl_cons]
    cases hv : value k with
    | none => exact ih fun j hj => h j (List.mem_cons_of_mem _ hj)
    | some v =>
      have hk : k ∈ d := h k List.mem_cons_self (by rw [hv]; rfl)
      have hrest := ih (d := d.set k v) fun j hj hsome =>
        mem_set.mpr (Or.inr (h j (List.mem_cons_of_mem _ hj) hsome))
      exact hrest.trans (keys_set_of_mem v hk)

/-! ## Removing a key -/

/-- `d.pop(k, None)`. -/
def erase (d : Dict κ α) (k : κ) : Dict κ α where
  items := d.items.filter (fun p => p.1 ≠ k)
  nodup := d.nodup.sublist (List.filter_sublist.map _)

theorem get?_erase (d : Dict κ α) (k k' : κ) : (d.erase k).get? k' = if k' = k then none else d.get? k' := by
  by_cases hk : k' = k
  · rw [if_pos hk, get?_eq_none_iff, mem_iff_mem_keys, keys, List.mem_map]
    rintro ⟨p, hp, rfl⟩
    have hne : p.1 ≠ k := of_decide_eq_true (List.mem_filter.mp hp).2
    exact hne hk
  · rw [if_neg hk]
    apply Option.ext
    intro v
    rw [get?_eq_some_iff, get?_eq_some_iff, erase, List.mem_filter]
    simp [hk]

theorem mem_erase {d : Dict κ α} {k k' : κ} : k' ∈ d.erase k ↔ k' ≠ k ∧ k' ∈ d := by
  rw [mem_iff, mem_iff, get?_erase]
  by_cases hk : k' = k <;> simp [hk]

/-! ## Setting or removing a key -/

/-- Sets a key to a value, or removes it if there is none. -/
def put (d : Dict κ α) (k : κ) : Option α → Dict κ α
  | some v => d.set k v
  | none => d.erase k

theorem get?_put (d : Dict κ α) (k : κ) (v : Option α) (k' : κ) :
    (d.put k v).get? k' = if k' = k then v else d.get? k' := by
  cases v with
  | none => exact get?_erase d k k'
  | some v => exact get?_set d k v k'

/-! ## Changing every value -/

theorem get?_map (f : κ → α → β) (d : Dict κ α) (k : κ) : (d.map f).get? k = (d.get? k).map (f k) := by
  simp only [get?, map]
  induction d.items with
  | nil => rfl
  | cons p items ih =>
    rw [List.map_cons, lookup_cons, lookup_cons]
    by_cases hk : k = p.1
    · subst hk
      simp
    · simp [hk, ih]

/-! ## Keeping some items -/

def filter (p : κ → α → Bool) (d : Dict κ α) : Dict κ α where
  items := d.items.filter (fun item => p item.1 item.2)
  nodup := d.nodup.sublist (List.filter_sublist.map _)

theorem get?_filter (p : κ → α → Bool) (d : Dict κ α) (k : κ) :
    (d.filter p).get? k = (d.get? k).filter (p k) := by
  apply Option.ext
  intro v
  rw [get?_eq_some_iff, Option.filter_eq_some_iff, get?_eq_some_iff, filter, List.mem_filter]

/-! ## Adding the items of another -/

/-- `{**d, **dict(items)}`. -/
def updateItems (d : Dict κ α) (items : List (κ × α)) : Dict κ α :=
  items.foldl (fun d p => d.set p.1 p.2) d

/-- `{**d, **e}`. -/
def update (d e : Dict κ α) : Dict κ α := d.updateItems e.items

/-- A dictionary from items, of which a later one of the same key wins. -/
def ofList (items : List (κ × α)) : Dict κ α := empty.updateItems items

theorem get?_updateItems (d : Dict κ α) {items : List (κ × α)} (hnodup : (items.map Prod.fst).Nodup) (k : κ) :
    (d.updateItems items).get? k = (lookup items k).or (d.get? k) := by
  induction items generalizing d with
  | nil => rfl
  | cons p items ih =>
    simp only [List.map_cons, List.nodup_cons] at hnodup
    rw [updateItems, List.foldl_cons]
    have hih := ih (d.set p.1 p.2) hnodup.2
    rw [updateItems] at hih
    rw [hih, get?_set, lookup_cons]
    by_cases hk : k = p.1
    · subst hk
      have hnone : lookup items p.1 = none := lookup_eq_none_iff.mpr hnodup.1
      simp [hnone]
    · simp [hk]

theorem get?_update (d e : Dict κ α) (k : κ) : (d.update e).get? k = (e.get? k).or (d.get? k) :=
  get?_updateItems d e.nodup k

theorem mem_update {d e : Dict κ α} {k : κ} : k ∈ d.update e ↔ k ∈ d ∨ k ∈ e := by
  rw [mem_iff, mem_iff, mem_iff, get?_update]
  cases d.get? k <;> cases e.get? k <;> simp

theorem keys_updateItems (d : Dict κ α) {items : List (κ × α)} (h : ∀ p ∈ items, p.1 ∈ d) :
    (d.updateItems items).keys = d.keys := by
  induction items generalizing d with
  | nil => rfl
  | cons p items ih =>
    have hp := keys_set_of_mem p.2 (h p List.mem_cons_self)
    rw [updateItems, List.foldl_cons]
    have hrest : ∀ q ∈ items, q.1 ∈ d.set p.1 p.2 := fun q hq =>
      mem_set.mpr (Or.inr (h q (List.mem_cons_of_mem _ hq)))
    exact (ih (d.set p.1 p.2) hrest).trans hp

/-- Adding keys that are there keeps their places. -/
theorem keys_update {d e : Dict κ α} (h : ∀ k ∈ e, k ∈ d) : (d.update e).keys = d.keys :=
  keys_updateItems d fun p hp => h p.1 (List.mem_map_of_mem hp)

/-- The keys that are new come behind, in their order. -/
theorem keys_updateItems_eq (d : Dict κ α) {items : List (κ × α)} (hnodup : (items.map Prod.fst).Nodup) :
    (d.updateItems items).keys = d.keys ++ (items.map Prod.fst).filter (· ∉ d) := by
  induction items generalizing d with
  | nil => exact (List.append_nil _).symm
  | cons p items ih =>
    obtain ⟨hnot, hrest⟩ := List.nodup_cons.mp hnodup
    have hih := ih (d.set p.1 p.2) hrest
    rw [updateItems] at hih
    rw [updateItems, List.foldl_cons, hih, keys_set, List.map_cons, List.filter_cons]
    have hsame : (items.map Prod.fst).filter (· ∉ d.set p.1 p.2) = (items.map Prod.fst).filter (· ∉ d) := by
      refine List.filter_congr fun k hk => ?_
      have hne : k ≠ p.1 := fun heq => hnot (heq ▸ hk)
      rw [decide_eq_decide, mem_set]
      simp [hne]
    by_cases hp : p.1 ∈ d
    · rw [hsame, if_pos hp, if_neg (by simpa using hp)]
    · rw [hsame, if_neg hp, if_pos (by simpa using hp), List.append_assoc]
      rfl

theorem keys_update_eq (d e : Dict κ α) : (d.update e).keys = d.keys ++ e.keys.filter (· ∉ d) := keys_updateItems_eq d e.nodup

theorem mem_items_set {d : Dict κ α} {k : κ} {v : α} {p : κ × α} (h : p ∈ (d.set k v).items) :
    p = (k, v) ∨ p ∈ d.items := by
  have hget := get?_eq_some_iff.mpr (show (p.1, p.2) ∈ (d.set k v).items from h)
  rw [get?_set] at hget
  split at hget
  · rename_i hk
    cases hget
    exact Or.inl (Prod.ext hk rfl)
  · exact Or.inr (get?_eq_some_iff.mp hget)

theorem mem_items_updateItems {d : Dict κ α} {items : List (κ × α)} {p : κ × α}
    (h : p ∈ (d.updateItems items).items) : p ∈ items ∨ p ∈ d.items := by
  induction items generalizing d with
  | nil => exact Or.inr h
  | cons q items ih =>
    rcases ih (d := d.set q.1 q.2) h with hmem | hmem
    · exact Or.inl (List.mem_cons_of_mem _ hmem)
    · rcases mem_items_set hmem with rfl | hmem
      · exact Or.inl List.mem_cons_self
      · exact Or.inr hmem

/-- The items come from the list. -/
theorem mem_items_ofList {items : List (κ × α)} {p : κ × α} (h : p ∈ (ofList items).items) : p ∈ items :=
  (mem_items_updateItems h).resolve_right fun hnil => by cases hnil

theorem get?_ofList {items : List (κ × α)} (hnodup : (items.map Prod.fst).Nodup) (k : κ) :
    (ofList items).get? k = lookup items k := by
  rw [ofList, get?_updateItems empty hnodup, get?_empty, Option.or_none]

theorem mem_ofList {items : List (κ × α)} {k : κ} : k ∈ ofList items ↔ k ∈ items.map Prod.fst := by
  have hgen : ∀ (items : List (κ × α)) (d : Dict κ α), k ∈ d.updateItems items ↔ k ∈ items.map Prod.fst ∨ k ∈ d := by
    intro items
    induction items with
    | nil => simp [updateItems]
    | cons p items ih =>
      intro d
      have hih := ih (d.set p.1 p.2)
      rw [mem_set] at hih
      rw [updateItems, List.foldl_cons]
      refine hih.trans ?_
      rw [List.map_cons, List.mem_cons]
      exact ⟨fun h => h.elim (fun h => Or.inl (Or.inr h)) fun h => h.elim (fun h => Or.inl (Or.inl h)) Or.inr,
        fun h => h.elim (fun h => h.elim (fun h => Or.inr (Or.inl h)) Or.inl) fun h => Or.inr (Or.inr h)⟩
  rw [ofList, hgen]
  simp [not_mem_empty]

/-! ## Equality -/

theorem ext_lookup {items items' : List (κ × α)} (hnodup : (items.map Prod.fst).Nodup)
    (hkeys : items.map Prod.fst = items'.map Prod.fst) (h : ∀ k, lookup items k = lookup items' k) :
    items = items' := by
  induction items generalizing items' with
  | nil => exact (List.map_eq_nil_iff.mp hkeys.symm).symm
  | cons p items ih =>
    cases items' with
    | nil => cases hkeys
    | cons q items' =>
      obtain ⟨k, v⟩ := p
      obtain ⟨k', v'⟩ := q
      simp only [List.map_cons, List.cons.injEq] at hkeys
      obtain ⟨rfl, hrest⟩ := hkeys
      have hhead := h k
      simp only [lookup_cons, if_true, Option.some.injEq] at hhead
      subst hhead
      obtain ⟨hnot, hnodup⟩ := List.nodup_cons.mp hnodup
      congr 1
      apply ih hnodup hrest
      intro j
      by_cases hj : j = k
      · subst hj
        rw [lookup_eq_none_iff.mpr hnot, lookup_eq_none_iff.mpr (hrest ▸ hnot)]
      · have htail := h j
        rw [lookup_cons, lookup_cons, if_neg hj, if_neg hj] at htail
        exact htail

/-- Two dictionaries with the same keys, in the same order, and the same values. -/
theorem ext {d e : Dict κ α} (hkeys : d.keys = e.keys) (h : ∀ k, d.get? k = e.get? k) : d = e := by
  obtain ⟨items, hnodup⟩ := d
  obtain ⟨items', hnodup'⟩ := e
  have heq : items = items' := ext_lookup hnodup hkeys h
  subst heq
  rfl

/-- Setting a key to what it holds. -/
theorem update_assoc (d e f : Dict κ α) : (d.update e).update f = d.update (e.update f) := by
  refine ext ?_ fun k => ?_
  · rw [keys_update_eq, keys_update_eq, keys_update_eq, keys_update_eq, List.filter_append,
      List.append_assoc, List.filter_filter]
    refine congrArg (fun ks => d.keys ++ (e.keys.filter (· ∉ d) ++ ks)) (List.filter_congr fun k _ => ?_)
    rw [Bool.eq_iff_iff]
    simp [mem_update]
  · rw [get?_update, get?_update, get?_update, get?_update, Option.or_assoc]

theorem set_self {d : Dict κ α} {k : κ} {v : α} (h : d.get? k = some v) : d.set k v = d := by
  apply ext (keys_set_of_mem v (mem_of_get? h))
  intro j
  rw [get?_set]
  by_cases hj : j = k
  · rw [if_pos hj, hj, h]
  · rw [if_neg hj]

/-- Of two values under one key the second stays. -/
theorem set_set (d : Dict κ α) (k : κ) (v w : α) : (d.set k v).set k w = d.set k w := by
  apply ext
  · rw [keys_set_of_mem w (mem_set.mpr (Or.inl rfl)), keys_set, keys_set]
  · intro j
    simp only [get?_set]
    split <;> rfl

theorem keys_ofList {items : List (κ × α)} (hnodup : (items.map Prod.fst).Nodup) :
    (ofList items).keys = items.map Prod.fst := by
  have hgen : ∀ (items : List (κ × α)) (d : Dict κ α), (d.keys ++ items.map Prod.fst).Nodup →
      (d.updateItems items).keys = d.keys ++ items.map Prod.fst := by
    intro items
    induction items with
    | nil => intro d _; exact (List.append_nil _).symm
    | cons p items ih =>
      intro d hnodup
      have hnot : p.1 ∉ d := fun hmem =>
        (List.nodup_append.mp hnodup).2.2 p.1 hmem p.1 List.mem_cons_self rfl
      have hkeys : (d.set p.1 p.2).keys = d.keys ++ [p.1] := by rw [keys_set, if_neg hnot]
      have happend : d.keys ++ (p :: items).map Prod.fst = (d.set p.1 p.2).keys ++ items.map Prod.fst := by
        rw [hkeys, List.map_cons, List.append_assoc, List.singleton_append]
      rw [happend] at hnodup ⊢
      exact ih _ hnodup
  exact hgen items empty hnodup

/-- The items of a dictionary, set one after the other, make it again. -/
theorem ofList_items (d : Dict κ α) : ofList d.items = d :=
  ext (keys_ofList d.nodup) fun k => get?_ofList d.nodup k

/-! ## Items with repeated keys -/

/-- The dictionary of the items, of which the first of a key counts. -/
def firsts : List (κ × α) → Dict κ α
  | [] => empty
  | p :: items =>
    { items := p :: ((firsts items).erase p.1).items
      nodup := List.nodup_cons.mpr
        ⟨fun h => (mem_erase.mp (show p.1 ∈ (firsts items).erase p.1 from h)).1 rfl, ((firsts items).erase p.1).nodup⟩ }

theorem get?_firsts (items : List (κ × α)) (k : κ) : (firsts items).get? k = lookup items k := by
  induction items with
  | nil => rfl
  | cons p items ih =>
    rw [lookup_cons, ← ih]
    show lookup (p :: ((firsts items).erase p.1).items) k = _
    rw [lookup_cons]
    by_cases hk : k = p.1
    · rw [if_pos hk, if_pos hk]
    · rw [if_neg hk, if_neg hk]
      exact (get?_erase (firsts items) p.1 k).trans (if_neg hk)

theorem items_firsts {items : List (κ × α)} (hnodup : (items.map Prod.fst).Nodup) :
    (firsts items).items = items := by
  induction items with
  | nil => rfl
  | cons p items ih =>
    obtain ⟨hnot, hrest⟩ := List.nodup_cons.mp hnodup
    show p :: ((firsts items).items.filter _) = p :: items
    rw [ih hrest]
    congr 1
    refine List.filter_eq_self.mpr fun q hq => decide_eq_true fun heq => ?_
    exact hnot (heq ▸ List.mem_map_of_mem hq)

/-- The items of a dictionary make it again. -/
theorem firsts_items (d : Dict κ α) : firsts d.items = d := by
  obtain ⟨items, hnodup⟩ := d
  have h := items_firsts hnodup
  cases hd : firsts items with
  | mk items' _ =>
    rw [hd] at h
    subst h
    rfl

end Dict
