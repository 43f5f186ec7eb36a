import Mathlib.Data.List.Basic

/-!
# `Lib.Cut` — lists cut where a machine says so

A machine reads a list and tells, by its state, which elements separate. The pieces are what stands between them. Two machines
may be run over one list, and then it is of interest where they first differ.
-/

namespace Cut

variable {σ τ α : Type}

def run (step : σ → α → σ) (s : σ) (l : List α) : σ := l.foldl step s

/-- The pieces, of which there is always one. -/
def cut (step : σ → α → σ) (sep : σ → α → Bool) : σ → List α → List (List α)
  | _, [] => [[]]
  | s, a :: l => if sep s a then [] :: cut step sep (step s a) l else (cut step sep (step s a) l).modifyHead (a :: ·)

/-- Nothing separates. -/
def Whole (step : σ → α → σ) (sep : σ → α → Bool) (s : σ) (l : List α) : Prop :=
  ∀ front a back, l = front ++ a :: back → sep (run step s front) a = false

theorem run_append (step : σ → α → σ) (s : σ) (l l' : List α) : run step s (l ++ l') = run step (run step s l) l' :=
  List.foldl_append

theorem cut_ne_nil (step : σ → α → σ) (sep : σ → α → Bool) (s : σ) (l : List α) : cut step sep s l ≠ [] := by
  induction l generalizing s with
  | nil => exact List.cons_ne_nil [] []
  | cons a l ih =>
    rw [cut]
    split
    · exact List.cons_ne_nil _ _
    · intro h
      exact ih (step s a) (List.modifyHead_eq_nil_iff.mp h)

section
variable {step : σ → α → σ} {sep : σ → α → Bool}

theorem whole_nil (s : σ) : Whole step sep s [] := by
  intro front a back h
  cases front <;> cases h

theorem whole_cons {s : σ} {a : α} {l : List α} :
    Whole step sep s (a :: l) ↔ sep s a = false ∧ Whole step sep (step s a) l := by
  constructor
  · intro h
    exact ⟨h [] a l rfl, fun front b back heq => h (a :: front) b back (congrArg (a :: ·) heq)⟩
  · rintro ⟨ha, hl⟩ front b back heq
    cases front with
    | nil =>
      cases heq
      exact ha
    | cons a' front =>
      obtain ⟨rfl, htail⟩ := List.cons.inj heq
      exact hl front b back htail

theorem whole_append {s : σ} {l l' : List α} :
    Whole step sep s (l ++ l') ↔ Whole step sep s l ∧ Whole step sep (run step s l) l' := by
  induction l generalizing s with
  | nil => exact ⟨fun h => ⟨whole_nil s, h⟩, And.right⟩
  | cons a l ih =>
    rw [List.cons_append, whole_cons, whole_cons, ih, and_assoc]
    rfl

/-- What stands before the first separator is the beginning of the first piece. -/
theorem cut_append {s : σ} {front : List α} (h : Whole step sep s front) (l : List α) :
    cut step sep s (front ++ l) = (cut step sep (run step s front) l).modifyHead (front ++ ·) := by
  induction front generalizing s with
  | nil =>
    show cut step sep s l = (cut step sep s l).modifyHead fun piece => piece
    cases cut step sep s l <;> rfl
  | cons a front ih =>
    have ⟨ha, hfront⟩ := whole_cons.mp h
    rw [List.cons_append, cut, ha, if_neg Bool.false_ne_true, ih hfront, List.modifyHead_modifyHead]
    rfl

theorem cut_of_whole {s : σ} {l : List α} (h : Whole step sep s l) : cut step sep s l = [l] := by
  have hcut := cut_append h []
  rw [List.append_nil] at hcut
  rw [hcut, cut, List.modifyHead_cons, List.append_nil]

theorem cut_at {s : σ} {front : List α} (h : Whole step sep s front) {a : α} (ha : sep (run step s front) a = true)
    (l : List α) : cut step sep s (front ++ a :: l) = front :: cut step sep (step (run step s front) a) l := by
  rw [cut_append h, cut, if_pos ha, List.modifyHead_cons, List.append_nil]

/-- An element that does not separate is in the first piece. -/
theorem cut_past {s : σ} {front : List α} (h : Whole step sep s front) {a : α} (ha : sep (run step s front) a = false)
    (l : List α) : ∃ back rest, cut step sep s (front ++ a :: l) = (front ++ a :: back) :: rest := by
  rw [cut_append h, cut, ha, if_neg Bool.false_ne_true, List.modifyHead_modifyHead]
  cases hl : cut step sep (step (run step s front) a) l with
  | nil => exact absurd hl (cut_ne_nil _ _ _ l)
  | cons back rest => exact ⟨back, rest, rfl⟩

end

section
variable {step : σ → α → σ} {sep : σ → α → Bool} {step' : τ → α → τ} {sep' : τ → α → Bool}

/-- The pieces tell whether the first element separates. -/
theorem first_inj {b b' : Bool} {a : α} {l l' : List (List α)} (hl : l ≠ []) (hl' : l' ≠ [])
    (h : (if b then [] :: l else l.modifyHead (a :: ·)) = if b' then [] :: l' else l'.modifyHead (a :: ·)) :
    b = b' ∧ l = l' := by
  obtain ⟨piece, rest, rfl⟩ := List.exists_cons_of_ne_nil hl
  obtain ⟨piece', rest', rfl⟩ := List.exists_cons_of_ne_nil hl'
  cases b with
  | true =>
    cases b' with
    | true => exact ⟨rfl, (List.cons.inj h).2⟩
    | false => cases (List.cons.inj h).1
  | false =>
    cases b' with
    | true => cases (List.cons.inj h).1
    | false =>
      obtain ⟨hpiece, rfl⟩ := List.cons.inj h
      obtain ⟨-, rfl⟩ := List.cons.inj hpiece
      exact ⟨rfl, rfl⟩

/-- The pieces are the same if the separators are. -/
theorem cut_eq_iff {s : σ} {t : τ} {l : List α} : cut step sep s l = cut step' sep' t l ↔
    ∀ front a back, l = front ++ a :: back → sep (run step s front) a = sep' (run step' t front) a := by
  induction l generalizing s t with
  | nil =>
    refine iff_of_true rfl fun front a back h => ?_
    cases front <;> cases h
  | cons a l ih =>
    constructor
    · intro h
      have hsep : sep s a = sep' t a ∧ cut step sep (step s a) l = cut step' sep' (step' t a) l :=
        first_inj (cut_ne_nil _ _ _ l) (cut_ne_nil _ _ _ l) h
      rintro (_ | ⟨b, front⟩) c back heq
      · cases heq
        exact hsep.1
      · obtain ⟨rfl, htail⟩ := List.cons.inj heq
        exact ih.mp hsep.2 front c back htail
    · intro h
      have hsep : sep s a = sep' t a := h [] a l rfl
      have hrest := (ih (s := step s a) (t := step' t a)).mpr fun front b back heq =>
        h (a :: front) b back (congrArg (a :: ·) heq)
      rw [cut, cut, hsep, hrest]

end

/-- The first element that separates for one of the machines. -/
theorem exists_first (step : σ → α → σ) (sep : σ → α → Bool) (step' : τ → α → τ) (sep' : τ → α → Bool) (s : σ) (t : τ)
    (l : List α) : (Whole step sep s l ∧ Whole step' sep' t l) ∨
    ∃ front a back, l = front ++ a :: back ∧ Whole step sep s front ∧ Whole step' sep' t front ∧
      (sep (run step s front) a = true ∨ sep' (run step' t front) a = true) := by
  induction l generalizing s t with
  | nil => exact .inl ⟨whole_nil s, whole_nil t⟩
  | cons a l ih =>
    by_cases ha : sep s a = true ∨ sep' t a = true
    · exact .inr ⟨[], a, l, rfl, whole_nil s, whole_nil t, ha⟩
    · rw [not_or, Bool.not_eq_true, Bool.not_eq_true] at ha
      rcases ih (step s a) (step' t a) with ⟨hs, ht⟩ | ⟨front, b, back, rfl, hs, ht, hb⟩
      · exact .inl ⟨whole_cons.mpr ⟨ha.1, hs⟩, whole_cons.mpr ⟨ha.2, ht⟩⟩
      · exact .inr ⟨a :: front, b, back, rfl, whole_cons.mpr ⟨ha.1, hs⟩, whole_cons.mpr ⟨ha.2, ht⟩, hb⟩

end Cut
