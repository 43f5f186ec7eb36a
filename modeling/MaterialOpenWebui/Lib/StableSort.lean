import Mathlib.Data.List.Sort
import Mathlib.Order.Defs.LinearOrder

/-!
# `Lib.StableSort` — sorting a list by a key

`sortOn key` sorts stably by a key in a linear order. What a sorted list looks like does not depend on how it
was sorted: it is the concatenation, over the keys in ascending order, of the entries with that key
(`Ascending.eq_flatMap`). Entries with one key stay in the order they had (`filter_sortOn`), and what stood
first overtakes whatever has no smaller key (`first_sortOn`).
-/

namespace StableSort

variable {α κ : Type} [LinearOrder κ] (key : α → κ)

/-- Stable sort by a key. -/
def sortOn (l : List α) : List α := l.insertionSort (fun a b => key a ≤ key b)

/-- Ascending in the key. -/
def Ascending (l : List α) : Prop := l.Pairwise (fun a b => key a ≤ key b)

instance total_key : Std.Total (fun a b : α => key a ≤ key b) := ⟨fun _ _ => le_total _ _⟩

instance trans_key : IsTrans α (fun a b => key a ≤ key b) := ⟨fun _ _ _ => le_trans⟩

theorem perm_sortOn (l : List α) : (sortOn key l).Perm l := List.perm_insertionSort _ l

theorem mem_sortOn {l : List α} {a : α} : a ∈ sortOn key l ↔ a ∈ l := (perm_sortOn key l).mem_iff

theorem ascending_sortOn (l : List α) : Ascending key (sortOn key l) := List.pairwise_insertionSort _ l

variable {key}

/-- Entries with one key keep their order. -/
theorem filter_sortOn {p : α → Bool} {l : List α} (h : ∀ a ∈ l, ∀ b ∈ l, p a → p b → key a = key b) :
    (sortOn key l).filter p = l.filter p := by
  have hpairs : (l.filter p).Pairwise (fun a b => key a ≤ key b) := by
    apply List.pairwise_of_forall_mem_list
    intro a ha b hb
    obtain ⟨ha, hpa⟩ := List.mem_filter.mp ha
    obtain ⟨hb, hpb⟩ := List.mem_filter.mp hb
    exact le_of_eq (h a ha b hb hpa hpb)
  have hsub : (l.filter p).Sublist (sortOn key l) := List.sublist_insertionSort hpairs List.filter_sublist
  have hsub' := hsub.filter p
  rw [List.filter_filter, List.filter_congr (fun a _ => Bool.and_self (p a))] at hsub'
  exact (hsub'.eq_of_length ((perm_sortOn key l).filter p).length_eq.symm).symm

/-- What stood first overtakes whatever has no smaller key. -/
theorem first_sortOn {u t : α} {l : List α} (ht : t ∈ l) (h : key u ≤ key t) :
    [u, t].Sublist (sortOn key (u :: l)) :=
  List.pair_sublist_insertionSort h (List.cons_sublist_cons.mpr (List.singleton_sublist.mpr ht))

/-- A sorted list is told by the entries of each key. -/
theorem Ascending.ext {l l' : List α} (h : Ascending key l) (h' : Ascending key l')
    (heq : ∀ k, l.filter (fun a => key a = k) = l'.filter (fun a => key a = k)) : l = l' := by
  induction l generalizing l' with
  | nil =>
    cases l' with
    | nil => rfl
    | cons b l' =>
      have hb := heq (key b)
      simp at hb
  | cons a l ih =>
    obtain ⟨hhead, htail⟩ := List.pairwise_cons.mp h
    cases l' with
    | nil =>
      have ha := heq (key a)
      simp at ha
    | cons b l' =>
      obtain ⟨hhead', htail'⟩ := List.pairwise_cons.mp h'
      have hmem : ∀ x, x ∈ a :: l ↔ x ∈ b :: l' := by
        intro x
        have hx := congrArg (x ∈ ·) (heq (key x))
        simpa using hx
      -- the two heads have the least key there is
      have hkey : key a = key b := by
        apply le_antisymm
        · rcases List.mem_cons.mp ((hmem b).mpr List.mem_cons_self) with rfl | hb
          · exact le_refl _
          · exact hhead b hb
        · rcases List.mem_cons.mp ((hmem a).mp List.mem_cons_self) with rfl | ha
          · exact le_refl _
          · exact hhead' a ha
      have hfirst := heq (key a)
      rw [List.filter_cons_of_pos (by simp), List.filter_cons_of_pos (by simp [hkey])] at hfirst
      obtain ⟨rfl, -⟩ := List.cons.inj hfirst
      rw [ih htail htail' fun k => ?_]
      have hk := heq k
      rw [List.filter_cons, List.filter_cons] at hk
      split_ifs at hk
      · exact (List.cons.inj hk).2
      · exact hk

/-- The entries with the least key come first. -/
theorem Ascending.eq_filter_append {l : List α} (h : Ascending key l) {k : κ} (hk : ∀ a ∈ l, k ≤ key a) :
    l = l.filter (fun a => key a = k) ++ l.filter (fun a => k < key a) := by
  induction l with
  | nil => rfl
  | cons a l ih =>
    obtain ⟨hhead, htail⟩ := List.pairwise_cons.mp h
    by_cases heq : key a = k
    · have hrest := ih htail (fun b hb => hk b (List.mem_cons_of_mem a hb))
      have hnot : ¬ k < key a := by rw [heq]; exact lt_irrefl k
      simp only [List.filter_cons, heq, decide_true, if_true, List.cons_append]
      simpa [heq] using hrest
    · -- from here on every key is above `k`
      have hlt : ∀ b ∈ a :: l, k < key b := by
        have ha : k < key a := lt_of_le_of_ne (hk a (by simp)) (Ne.symm heq)
        intro b hb
        rcases List.mem_cons.mp hb with rfl | hb
        · exact ha
        · exact lt_of_lt_of_le ha (hhead b hb)
      have hnone : (a :: l).filter (fun a => key a = k) = [] := by
        rw [List.filter_eq_nil_iff]
        intro b hb
        simpa using ne_of_gt (hlt b hb)
      have hall : (a :: l).filter (fun a => k < key a) = a :: l := by
        rw [List.filter_eq_self]
        intro b hb
        simpa using hlt b hb
      rw [hnone, hall, List.nil_append]

/-- **A sorted list, key by key.** -/
theorem Ascending.eq_flatMap {l : List α} (h : Ascending key l) {ks : List κ} (hks : ks.Pairwise (· < ·))
    (hmem : ∀ a ∈ l, key a ∈ ks) : l = ks.flatMap (fun k => l.filter (fun a => key a = k)) := by
  induction ks generalizing l with
  | nil =>
    cases l with
    | nil => rfl
    | cons a l => exact absurd (hmem a (by simp)) List.not_mem_nil
  | cons k ks ih =>
    obtain ⟨hhead, htail⟩ := List.pairwise_cons.mp hks
    have hk : ∀ a ∈ l, k ≤ key a := by
      intro a ha
      rcases List.mem_cons.mp (hmem a ha) with heq | hin
      · exact le_of_eq heq.symm
      · exact le_of_lt (hhead _ hin)
    have hrest : Ascending key (l.filter (fun a => k < key a)) := h.sublist List.filter_sublist
    have hks' : ∀ a ∈ l.filter (fun a => k < key a), key a ∈ ks := by
      intro a ha
      obtain ⟨ha, hlt⟩ := List.mem_filter.mp ha
      have hlt : k < key a := by simpa using hlt
      exact (List.mem_cons.mp (hmem a ha)).resolve_left (ne_of_gt hlt)
    have hsame : ks.flatMap (fun k' => (l.filter (fun a => k < key a)).filter (fun a => key a = k')) =
        ks.flatMap (fun k' => l.filter (fun a => key a = k')) := by
      refine List.flatMap_congr ?_
      intro k' hk'
      rw [List.filter_filter]
      refine List.filter_congr ?_
      intro a _
      have hlt := hhead k' hk'
      by_cases heq : key a = k'
      · simp [heq, hlt]
      · simp [heq]
    rw [List.flatMap_cons, ← hsame, ← ih hrest htail hks']
    exact h.eq_filter_append hk

end StableSort
