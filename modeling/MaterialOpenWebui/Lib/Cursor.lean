import Mathlib.Data.List.Basic

/-!
# `Lib.Cursor` — going through a list that changes meanwhile

A loop over a list that is not copied keeps the number of elements that it has taken. What it has still to take is the list
from there on: an element that is added comes to it, and one that is removed before it moves the rest, so that the next
element is passed over (`drop_erase_of_taken`).
-/

namespace Cursor

variable {α : Type} {i : Nat} {l : List α}

/-- What is added is still to be taken. -/
theorem mem_drop_append {x : α} (h : x ∈ l.drop i) (l' : List α) : x ∈ (l ++ l').drop i := by
  rw [List.drop_append]
  exact List.mem_append_left _ h

theorem mem_drop_iff_getElem? {x : α} : x ∈ l.drop i ↔ l[i]? = some x ∨ x ∈ l.drop (i + 1) := by
  by_cases hi : i < l.length
  · rw [List.drop_eq_getElem_cons hi, List.mem_cons, List.getElem?_eq_getElem hi, Option.some_inj, eq_comm]
  · have hnone := List.getElem?_eq_none (Nat.not_lt.mp hi)
    rw [hnone, List.drop_of_length_le (Nat.not_lt.mp hi), List.drop_of_length_le (by omega)]
    simp

variable [BEq α] [LawfulBEq α]

/-- What is removed among the rest is not before it. -/
theorem drop_erase_of_not_taken {x : α} (h : x ∉ l.take i) : (l.erase x).drop i = (l.drop i).erase x := by
  by_cases hi : i ≤ l.length
  · have hlength : (l.take i).length = i := by rw [List.length_take, Nat.min_eq_left hi]
    have herase : l.erase x = l.take i ++ (l.drop i).erase x := by
      conv_lhs => rw [← List.take_append_drop i l]
      exact List.erase_append_right _ h
    rw [herase, List.drop_append, hlength, Nat.sub_self, List.drop_of_length_le (Nat.le_of_eq hlength), List.nil_append,
      List.drop_zero]
  · have hlong : l.length ≤ i := Nat.le_of_not_le hi
    rw [List.drop_of_length_le hlong, List.drop_of_length_le (Nat.le_trans List.length_erase_le hlong), List.erase_nil]

/-- **What is removed before the rest** takes the next element with it. -/
theorem drop_erase_of_taken {x : α} (h : x ∈ l.take i) : (l.erase x).drop i = l.drop (i + 1) := by
  have herase : l.erase x = (l.take i).erase x ++ l.drop i := by
    conv_lhs => rw [← List.take_append_drop i l]
    exact List.erase_append_left _ h
  have hpos : 0 < (l.take i).length := List.length_pos_of_mem h
  by_cases hi : i ≤ l.length
  · have hlength : ((l.take i).erase x).length = i - 1 := by
      rw [List.length_erase_of_mem h, List.length_take, Nat.min_eq_left hi]
    have hone : i - (i - 1) = 1 := by
      rw [List.length_take] at hpos
      omega
    rw [herase, List.drop_append, hlength, hone, List.drop_of_length_le (by omega), List.nil_append, List.drop_drop]
  · have hlong : l.length ≤ i := Nat.le_of_not_le hi
    rw [List.drop_of_length_le (Nat.le_trans List.length_erase_le hlong), List.drop_of_length_le (by omega)]

end Cursor
