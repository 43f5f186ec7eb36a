import Mathlib.Data.List.Basic

/-!
# `Lib.Quoted` — fields in quotes, and machines that read them

A field with special characters is put in quotes, and the quotes inside are doubled. A machine that reads such fields has two
modes; what it does with a character that counts as text is to put it to what it has. Whatever else the machine does, it reads a
written field as its text (`Reads.field`).
-/

namespace Quoted

variable {α σ β : Type}

section
variable [DecidableEq α]

def double (q : α) (s : List α) : List α := s.flatMap fun c => if c = q then [q, q] else [c]

def quoted (q : α) (s : List α) : List α := q :: (double q s ++ [q])

/-- A field, in quotes where it has to be. -/
def field (q : α) (must : Bool) (s : List α) : List α := if must then quoted q s else s

theorem mem_double {q c : α} {s : List α} : c ∈ double q s ↔ c ∈ s := by
  constructor
  · intro h
    obtain ⟨d, hd, hc⟩ := List.mem_flatMap.mp h
    split at hc
    · rename_i hq
      subst hq
      rcases List.mem_pair.mp hc with rfl | rfl <;> exact hd
    · rwa [List.mem_singleton.mp hc]
  · intro h
    refine List.mem_flatMap.mpr ⟨c, h, ?_⟩
    split
    · rename_i hq
      exact hq ▸ List.mem_cons_self
    · exact List.mem_singleton_self c

/-- A field has its text, and quotes. -/
theorem mem_of_mem_field {q c : α} {must : Bool} {s : List α} (h : c ∈ field q must s) : c = q ∨ c ∈ s := by
  rw [field] at h
  split at h
  · rcases List.mem_cons.mp h with h | h
    · exact .inl h
    · rcases List.mem_append.mp h with h | h
      · exact .inr (mem_double.mp h)
      · exact .inl (List.mem_singleton.mp h)
  · exact .inr h

end

/-- How a machine reads text: `run` in quotes or not, from what it has; `special` are the characters that are no text outside of
quotes. -/
structure Reads (run : Bool → σ → List α → β) (put : σ → α → σ) (q : α) (special : α → Prop) : Prop where
  opening : ∀ s rest, run false s (q :: rest) = run true s rest
  doubled : ∀ s rest, run true s (q :: q :: rest) = run true (put s q) rest
  closing : ∀ s rest, rest.head? ≠ some q → run true s (q :: rest) = run false s rest
  inside : ∀ s c rest, c ≠ q → run true s (c :: rest) = run true (put s c) rest
  plain : ∀ s c rest, ¬ special c → run false s (c :: rest) = run false (put s c) rest

section
variable {run : Bool → σ → List α → β} {put : σ → α → σ} {q : α} {special : α → Prop} (h : Reads run put q special)
include h

theorem Reads.text {t : List α} (ht : ∀ c ∈ t, ¬ special c) (s : σ) (rest : List α) :
    run false s (t ++ rest) = run false (t.foldl put s) rest := by
  induction t generalizing s with
  | nil => rfl
  | cons c t ih =>
    rw [List.cons_append, h.plain s c _ (ht c List.mem_cons_self)]
    exact ih (fun c hc => ht c (List.mem_cons_of_mem _ hc)) (put s c)

theorem Reads.double [DecidableEq α] (t : List α) (s : σ) (rest : List α) :
    run true s (double q t ++ rest) = run true (t.foldl put s) rest := by
  induction t generalizing s with
  | nil => rfl
  | cons c t ih =>
    rw [Quoted.double, List.flatMap_cons, List.append_assoc]
    by_cases hc : c = q
    · rw [if_pos hc, List.cons_append, List.cons_append, List.nil_append, h.doubled, hc]
      exact ih (put s q)
    · rw [if_neg hc, List.cons_append, List.nil_append, h.inside s c _ hc]
      exact ih (put s c)

/-- **One field.** What was written is read, if no quote follows. -/
theorem Reads.field [DecidableEq α] {must : Bool} {t : List α} (hmust : must = false → ∀ c ∈ t, ¬ special c) (s : σ)
    {rest : List α} (hrest : rest.head? ≠ some q) :
    run false s (field q must t ++ rest) = run false (t.foldl put s) rest := by
  cases must with
  | false => exact h.text (hmust rfl) s rest
  | true =>
    show run false s (q :: (Quoted.double q t ++ [q]) ++ rest) = _
    rw [List.cons_append, List.append_assoc, h.opening, h.double]
    exact h.closing _ rest hrest

end

theorem foldl_push {t s : List α} : t.foldl (fun s c => s ++ [c]) s = s ++ t := by
  induction t generalizing s with
  | nil => exact (List.append_nil s).symm
  | cons c t ih => rw [List.foldl_cons, ih, List.append_assoc, List.singleton_append]

end Quoted
