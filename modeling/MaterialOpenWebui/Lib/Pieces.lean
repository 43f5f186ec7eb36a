import Mathlib.Data.List.Basic

/-!
# `Lib.Pieces` — a separated sequence that arrives in parts

A sequence is divided at a separator (`List.splitOn`). If it arrives in parts, each field comes in pieces: what of it
was in each part. `pieces` are these, field by field, and a field is its pieces, one after the other
(`flatten_pieces`).
-/

namespace Pieces

variable {α : Type} [DecidableEq α] {sep : α}

/-! ## Dividing -/

theorem splitOn_ne_nil (xs : List α) : xs.splitOn sep ≠ [] := List.splitOnP_ne_nil _ xs

theorem splitOn_cons (x : α) (xs : List α) : (x :: xs).splitOn sep =
    if x = sep then [] :: xs.splitOn sep else (xs.splitOn sep).modifyHead (x :: ·) := by
  show List.splitOnP (· == sep) (x :: xs) = _
  rw [List.splitOnP_cons_eq_if_modifyHead]
  by_cases hx : x = sep
  · rw [if_pos hx, if_pos (beq_iff_eq.mpr hx)]
    rfl
  · rw [if_neg hx, if_neg (fun h => hx (beq_iff_eq.mp h))]
    rfl

theorem not_mem_of_mem_splitOn {xs field : List α} (h : field ∈ xs.splitOn sep) : sep ∉ field := by
  induction xs generalizing field with
  | nil =>
    rw [List.splitOn_nil, List.mem_singleton] at h
    rw [h]
    exact List.not_mem_nil
  | cons x xs ih =>
    rw [splitOn_cons] at h
    split at h
    · rcases List.mem_cons.mp h with rfl | h
      · exact List.not_mem_nil
      · exact ih h
    · rename_i hx
      cases hsplit : xs.splitOn sep with
      | nil => exact absurd hsplit (splitOn_ne_nil xs)
      | cons first fields =>
        rw [hsplit] at ih h
        rw [List.modifyHead_cons] at h
        rcases List.mem_cons.mp h with rfl | h
        · rw [List.mem_cons, not_or]
          exact ⟨fun heq => hx heq.symm, ih List.mem_cons_self⟩
        · exact ih (List.mem_cons_of_mem _ h)

theorem head_splitOn (xs : List α) : (xs.splitOn sep).head? = some (xs.takeWhile (· ≠ sep)) := by
  induction xs with
  | nil => rfl
  | cons x xs ih =>
    rw [splitOn_cons, List.takeWhile_cons]
    by_cases hx : x = sep
    · rw [if_pos hx, if_neg (by rwa [decide_eq_true_eq, not_not])]
      rfl
    · rw [if_neg hx, if_pos (decide_eq_true hx)]
      obtain ⟨first, fields, hsplit⟩ := List.exists_cons_of_ne_nil (splitOn_ne_nil xs)
      rw [hsplit] at ih ⊢
      exact congrArg (fun o => o.map (x :: ·)) ih

omit [DecidableEq α] in
theorem mem_intercalate {x : α} {parts : List (List α)} (h : x ∈ [sep].intercalate parts) :
    x = sep ∨ ∃ part ∈ parts, x ∈ part := by
  induction parts with
  | nil => exact absurd h List.not_mem_nil
  | cons part parts ih =>
    cases parts with
    | nil => exact .inr ⟨part, List.mem_cons_self, by simpa [List.intercalate] using h⟩
    | cons part' parts =>
      rw [List.intercalate_cons_cons, List.append_assoc, List.mem_append, List.mem_append, List.mem_singleton] at h
      rcases h with h | h | h
      · exact .inr ⟨part, List.mem_cons_self, h⟩
      · exact .inl h
      · exact (ih h).imp_right fun ⟨p, hp, hx⟩ => ⟨p, List.mem_cons_of_mem _ hp, hx⟩

/-! ## Pieces -/

/-- The fields of a part, before the pieces of the fields of the rest: the last of them goes on there. -/
def hang : List (List α) → List (List (List α)) → List (List (List α))
  | [], rest => rest
  | [field], rest => rest.modifyHead (field :: ·)
  | field :: fields, rest => [field] :: hang fields rest

/-- The pieces of each field. -/
def pieces (sep : α) : List (List α) → List (List (List α))
  | [] => [[]]
  | part :: parts => hang (part.splitOn sep) (pieces sep parts)

omit [DecidableEq α] in
/-- A longer first field, of the part or of the whole. -/
theorem flatten_hang_modifyHead (x : α) {fields : List (List α)} (hfields : fields ≠ []) {rest : List (List (List α))}
    (hrest : rest ≠ []) : (hang (fields.modifyHead (x :: ·)) rest).map List.flatten =
      ((hang fields rest).map List.flatten).modifyHead (x :: ·) := by
  obtain ⟨field, fields, rfl⟩ := List.exists_cons_of_ne_nil hfields
  obtain ⟨first, rest, rfl⟩ := List.exists_cons_of_ne_nil hrest
  rw [List.modifyHead_cons]
  cases fields with
  | nil =>
    show ((x :: field) ++ first.flatten) :: _ = (x :: (field ++ first.flatten)) :: _
    rw [List.cons_append]
  | cons second fields =>
    show ((x :: field) ++ []) :: _ = (x :: (field ++ [])) :: _
    rw [List.cons_append]

theorem flatten_hang (part ys : List α) {rest : List (List (List α))} (h : rest.map List.flatten = ys.splitOn sep) :
    (hang (part.splitOn sep) rest).map List.flatten = (part ++ ys).splitOn sep := by
  have hrest : rest ≠ [] := by
    rintro rfl
    exact splitOn_ne_nil ys h.symm
  induction part with
  | nil =>
    obtain ⟨first, rest, rfl⟩ := List.exists_cons_of_ne_nil hrest
    rw [List.nil_append, ← h]
    rfl
  | cons x part ih =>
    rw [List.cons_append, splitOn_cons, splitOn_cons]
    split
    · -- the part begins with a separator: an empty field that is complete
      obtain ⟨field, fields, hfields⟩ := List.exists_cons_of_ne_nil (splitOn_ne_nil part)
      rw [← ih, hfields]
      rfl
    · rw [flatten_hang_modifyHead x (splitOn_ne_nil part) hrest, ih]

/-- **A field is its pieces**, one after the other. -/
theorem flatten_pieces (parts : List (List α)) : (pieces sep parts).map List.flatten = parts.flatten.splitOn sep := by
  induction parts with
  | nil => rfl
  | cons part parts ih => exact flatten_hang part parts.flatten ih

theorem pieces_ne_nil (parts : List (List α)) : pieces sep parts ≠ [] := by
  intro h
  have hfields : (pieces sep parts).map List.flatten = parts.flatten.splitOn sep := flatten_pieces parts
  rw [h] at hfields
  exact splitOn_ne_nil _ hfields.symm

/-- A field that is complete has come in some piece. -/
theorem ne_nil_of_pieces {parts : List (List α)} {first : List (List α)} {others : List (List (List α))}
    (h : pieces sep parts = first :: others) (hothers : others ≠ []) : first ≠ [] := by
  cases parts with
  | nil =>
    obtain ⟨-, rfl⟩ := List.cons_eq_cons.mp h
    exact absurd rfl hothers
  | cons part parts =>
    have hpart : part.splitOn sep ≠ [] := splitOn_ne_nil part
    have hparts : pieces sep parts ≠ [] := pieces_ne_nil parts
    obtain ⟨field, fields, hfields⟩ := List.exists_cons_of_ne_nil hpart
    obtain ⟨piece, rest, hrest⟩ := List.exists_cons_of_ne_nil hparts
    rw [pieces, hfields, hrest] at h
    cases fields with
    | nil =>
      obtain ⟨rfl, -⟩ := List.cons_eq_cons.mp h
      exact List.cons_ne_nil _ _
    | cons second fields =>
      obtain ⟨rfl, -⟩ := List.cons_eq_cons.mp h
      exact List.cons_ne_nil _ _

end Pieces
