import Mathlib.Data.List.Basic

/-!
# `Lib.Nested` — dictionaries within dictionaries

A dictionary whose values are leaves or dictionaries again, in the order of its keys. A tree is one inductive
type, so a function over all levels is a structural recursion, and `Entry` is what a key holds. A path of keys
leads to an entry, or nowhere: to a key that is missing, or through a leaf.
-/

inductive Nested (κ α : Type) where
  | nil
  | leaf (key : κ) (value : α) (rest : Nested κ α)
  | node (key : κ) (sub rest : Nested κ α)
  deriving DecidableEq

namespace Nested

variable {κ α : Type}

/-- What a key holds. -/
inductive Entry (κ α : Type) where
  | leaf (value : α)
  | node (sub : Nested κ α)
  deriving DecidableEq

def cons (key : κ) (entry : Entry κ α) (rest : Nested κ α) : Nested κ α :=
  match entry with
  | .leaf value => leaf key value rest
  | .node sub => node key sub rest

/-- The number of keys, over all levels. -/
def size : Nested κ α → Nat
  | nil => 0
  | leaf _ _ rest => 1 + rest.size
  | node _ sub rest => 1 + sub.size + rest.size

variable [DecidableEq κ]

/-! ## Trees -/

def get? : Nested κ α → κ → Option (Entry κ α)
  | nil, _ => none
  | leaf key value rest, k => if k = key then some (.leaf value) else rest.get? k
  | node key sub rest, k => if k = key then some (.node sub) else rest.get? k

/-- In the place of the key, or at the end. -/
def set : Nested κ α → κ → Entry κ α → Nested κ α
  | nil, k, entry => cons k entry nil
  | leaf key value rest, k, entry => if k = key then cons key entry rest else leaf key value (rest.set k entry)
  | node key sub rest, k, entry => if k = key then cons key entry rest else node key sub (rest.set k entry)

/-- Every key once, on every level. -/
def Wf : Nested κ α → Prop
  | nil => True
  | leaf key _ rest => rest.get? key = none ∧ rest.Wf
  | node key sub rest => rest.get? key = none ∧ sub.Wf ∧ rest.Wf

@[simp] theorem get?_nil (k : κ) : (nil : Nested κ α).get? k = none := rfl

theorem get?_cons (key : κ) (entry : Entry κ α) (rest : Nested κ α) (k : κ) :
    (cons key entry rest).get? k = if k = key then some entry else rest.get? k := by
  cases entry <;> rfl

theorem get?_set (t : Nested κ α) (k : κ) (entry : Entry κ α) (k' : κ) :
    (t.set k entry).get? k' = if k' = k then some entry else t.get? k' := by
  induction t with
  | nil => rw [set, get?_cons]
  | leaf key value rest ih =>
    rw [set]
    by_cases hk : k = key
    · subst hk
      rw [if_pos rfl, get?_cons, get?]
      split <;> rfl
    · rw [if_neg hk, get?, get?, ih]
      by_cases hk' : k' = key
      · subst hk'
        rw [if_pos rfl, if_pos rfl, if_neg (fun h => hk h.symm)]
      · rw [if_neg hk', if_neg hk']
  | node key sub rest _ ih =>
    rw [set]
    by_cases hk : k = key
    · subst hk
      rw [if_pos rfl, get?_cons, get?]
      split <;> rfl
    · rw [if_neg hk, get?, get?, ih]
      by_cases hk' : k' = key
      · subst hk'
        rw [if_pos rfl, if_pos rfl, if_neg (fun h => hk h.symm)]
      · rw [if_neg hk', if_neg hk']

theorem set_self {t : Nested κ α} {k : κ} {entry : Entry κ α} (h : t.get? k = some entry) : t.set k entry = t := by
  induction t with
  | nil => cases h
  | leaf key value rest ih =>
    rw [get?] at h
    rw [set]
    split at h
    · rename_i hk
      cases h
      rw [if_pos hk, cons]
    · rename_i hk
      rw [if_neg hk, ih h]
  | node key sub rest _ ih =>
    rw [get?] at h
    rw [set]
    split at h
    · rename_i hk
      cases h
      rw [if_pos hk, cons]
    · rename_i hk
      rw [if_neg hk, ih h]

theorem size_set_of_none {t : Nested κ α} {k : κ} (entry : Entry κ α) (h : t.get? k = none) :
    t.size < (t.set k entry).size := by
  induction t with
  | nil =>
    rw [set]
    cases entry with
    | leaf value => exact Nat.zero_lt_one
    | node sub =>
      show 0 < 1 + sub.size + 0
      omega
  | leaf key value rest ih =>
    rw [get?] at h
    split at h
    · cases h
    · rename_i hk
      rw [set, if_neg hk, size, size]
      exact Nat.add_lt_add_left (ih h) 1
  | node key sub rest _ ih =>
    rw [get?] at h
    split at h
    · cases h
    · rename_i hk
      rw [set, if_neg hk, size, size]
      exact Nat.add_lt_add_left (ih h) _

/-- Another dictionary in the place of one. -/
theorem size_set_node {t : Nested κ α} {k : κ} {sub : Nested κ α} (sub' : Nested κ α) (h : t.get? k = some (.node sub)) :
    (t.set k (.node sub')).size + sub.size = t.size + sub'.size := by
  induction t with
  | nil => cases h
  | leaf key value rest ih =>
    rw [get?] at h
    split at h
    · cases h
    · rename_i hk
      have hrest := ih h
      rw [set, if_neg hk, size, size]
      omega
  | node key sub₀ rest _ ih =>
    rw [get?] at h
    rw [set]
    split at h
    · rename_i hk
      cases h
      rw [if_pos hk, cons, size, size]
      omega
    · rename_i hk
      have hrest := ih h
      rw [if_neg hk, size, size]
      omega

theorem size_of_get? {t sub : Nested κ α} {k : κ} (h : t.get? k = some (.node sub)) : sub.size < t.size := by
  induction t with
  | nil => cases h
  | leaf key value rest ih =>
    rw [get?] at h
    split at h
    · cases h
    · have hrest := ih h
      rw [size]
      omega
  | node key sub₀ rest _ ih =>
    rw [get?] at h
    rw [size]
    split at h
    · cases h
      omega
    · have hrest := ih h
      omega

theorem Wf.of_get? {t sub : Nested κ α} {k : κ} (hwf : t.Wf) (h : t.get? k = some (.node sub)) : sub.Wf := by
  induction t with
  | nil => cases h
  | leaf key value rest ih =>
    rw [get?] at h
    split at h
    · cases h
    · exact ih hwf.2 h
  | node key sub₀ rest _ ih =>
    rw [get?] at h
    split at h
    · cases h
      exact hwf.2.1
    · exact ih hwf.2.2 h

theorem exists_get?_of_ne_nil {t : Nested κ α} (h : t ≠ nil) : ∃ k entry, t.get? k = some entry := by
  cases t with
  | nil => exact absurd rfl h
  | leaf key value rest => exact ⟨key, _, if_pos rfl⟩
  | node key sub rest => exact ⟨key, _, if_pos rfl⟩

theorem ne_nil_of_get? {t : Nested κ α} {k : κ} {entry : Entry κ α} (h : t.get? k = some entry) : t ≠ nil := by
  rintro rfl
  cases h

/-! ## Paths -/

/-- The entry at the end of the path. -/
def follow : Entry κ α → List κ → Option (Entry κ α)
  | entry, [] => some entry
  | .leaf _, _ :: _ => none
  | .node t, k :: ks => (t.get? k).bind fun entry => follow entry ks

@[simp] theorem follow_nil (entry : Entry κ α) : follow entry [] = some entry := by cases entry <;> rfl

@[simp] theorem follow_leaf_cons (value : α) (k : κ) (ks : List κ) : follow (.leaf value : Entry κ α) (k :: ks) = none := rfl

@[simp] theorem follow_node_cons (t : Nested κ α) (k : κ) (ks : List κ) :
    follow (.node t) (k :: ks) = (t.get? k).bind fun entry => follow entry ks := rfl

/-! ## Filling -/

/-- What the template has and the tree lacks, added on every level. -/
def fill (t : Nested κ α) : Nested κ α → Nested κ α
  | nil => t
  | leaf k value rest =>
      match t.get? k with
      | none => fill (t.set k (.leaf value)) rest
      | some _ => fill t rest
  | node k sub rest =>
      match t.get? k with
      | none => fill (t.set k (.node sub)) rest
      | some (.node s) => fill (t.set k (.node (fill s sub))) rest
      | some (.leaf _) => fill t rest

/-- Every key of the template is there, and where both have a dictionary the keys of the template's are too. -/
def Covers (t : Nested κ α) : Nested κ α → Prop
  | nil => True
  | leaf k _ rest => t.get? k ≠ none ∧ Covers t rest
  | node k sub rest =>
      (match t.get? k with
        | none => False
        | some (.node s) => Covers s sub
        | some (.leaf _) => True) ∧ Covers t rest

theorem fill_of_covers {t template : Nested κ α} (h : t.Covers template) : t.fill template = t := by
  induction template generalizing t with
  | nil => rfl
  | leaf k value rest ih =>
    rw [fill]
    split
    · rename_i hnone
      exact absurd hnone h.1
    · exact ih h.2
  | node k sub rest ihsub ihrest =>
    obtain ⟨hsub, hrest⟩ := h
    rw [fill]
    split
    · rename_i hnone
      rw [hnone] at hsub
      exact absurd hsub id
    · rename_i s hs
      rw [hs] at hsub
      rw [ihsub hsub, set_self hs]
      exact ihrest hrest
    · exact ihrest hrest

/-- The tree never gets smaller, and keeps its size only where nothing is lacking. -/
theorem size_fill (t template : Nested κ α) :
    t.size ≤ (t.fill template).size ∧ ((t.fill template).size = t.size → t.Covers template) := by
  induction template generalizing t with
  | nil => exact ⟨Nat.le_refl _, fun _ => trivial⟩
  | leaf k value rest ih =>
    rw [fill]
    split
    · rename_i hnone
      have hlt := size_set_of_none (.leaf value) hnone
      have hle := (ih (t.set k (.leaf value))).1
      exact ⟨by omega, fun h => absurd h (by omega)⟩
    · rename_i entry hsome
      exact ⟨(ih t).1, fun h => ⟨by rw [hsome]; exact Option.some_ne_none _, (ih t).2 h⟩⟩
  | node k sub rest ihsub ihrest =>
    rw [fill, Covers]
    split
    · rename_i hnone
      have hlt := size_set_of_none (.node sub) hnone
      have hle := (ihrest (t.set k (.node sub))).1
      exact ⟨by omega, fun h => absurd h (by omega)⟩
    · rename_i s hs
      have hset := size_set_node (s.fill sub) hs
      obtain ⟨hle, hcovers⟩ := ihsub s
      obtain ⟨hle', hcovers'⟩ := ihrest (t.set k (.node (s.fill sub)))
      refine ⟨by omega, fun h => ?_⟩
      have hsub : s.Covers sub := hcovers (by omega)
      refine ⟨hsub, ?_⟩
      have hsame : t.set k (.node (s.fill sub)) = t := by rw [fill_of_covers hsub, set_self hs]
      rw [hsame] at hcovers' h
      exact hcovers' h
    · exact ⟨(ihrest t).1, fun h => ⟨trivial, (ihrest t).2 h⟩⟩

theorem fill_eq_self_iff {t template : Nested κ α} : t.fill template = t ↔ t.Covers template :=
  ⟨fun h => (size_fill t template).2 (by rw [h]), fill_of_covers⟩

end Nested
