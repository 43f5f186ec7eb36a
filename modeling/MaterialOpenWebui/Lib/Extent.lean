import Mathlib.Data.List.TakeDrop

/-!
# `Lib.Extent` — how much of a text an automaton takes

An automaton goes on as long as it can, and takes the text up to the last place where it could have stopped. It does not look
beyond what it takes: what is cut off behind that makes no difference.
-/

namespace Extent

/-- What becomes of a text: how much of it is taken, that it is refused, or that reading it breaks off. -/
inductive Reading where
  | took (n : Nat)
  | refused
  | raised
deriving DecidableEq

variable {σ α : Type} (next : σ → α → Option σ) (final : σ → Reading)

/-- From a state; `final` is what becomes of a text that ends in it. -/
def read (q : σ) : List α → Reading
  | [] => final q
  | c :: s =>
    match next q c with
    | none => final q
    | some q' =>
      match read q' s with
      | .took n => .took (n + 1)
      | .refused => final q
      | .raised => .raised

variable {next final}

theorem read_eq_final {q : σ} {s : List α} (h : read next final q s = .refused) : final q = .refused := by
  cases s with
  | nil => exact h
  | cons c s =>
    unfold read at h
    split at h
    · exact h
    · split at h <;> first | exact h | cases h

/-- What is refused is refused at any length. -/
theorem read_take_refused {q : σ} {s : List α} (h : read next final q s = .refused) (m : Nat) :
    read next final q (s.take m) = .refused := by
  induction s generalizing q m with
  | nil => rwa [List.take_nil]
  | cons c s ih =>
    have hfinal := read_eq_final h
    cases m with
    | zero => exact hfinal
    | succ m =>
      rw [List.take_succ_cons]
      unfold read at h ⊢
      cases hnext : next q c with
      | none => exact hfinal
      | some q' =>
        rw [hnext] at h
        cases hread : read next final q' s with
        | refused =>
          simp only [ih hread m]
          exact hfinal
        | took n => simp [hread] at h
        | raised => simp [hread] at h

/-- **Locality.** What is cut off behind what is taken makes no difference. -/
theorem read_take (hfinal : ∀ q n, final q = .took n → n = 0) {q : σ} {s : List α} {n : Nat}
    (h : read next final q s = .took n) : n ≤ s.length ∧ ∀ m, n ≤ m → read next final q (s.take m) = .took n := by
  induction s generalizing q n with
  | nil => exact ⟨Nat.le_of_eq (hfinal q n h), fun m _ => by rwa [List.take_nil]⟩
  | cons c s ih =>
    have hstop : final q = .took n → (∀ m, read next final q ((c :: s).take (m + 1)) = final q) →
        n ≤ (c :: s).length ∧ ∀ m, n ≤ m → read next final q ((c :: s).take m) = .took n := by
      intro hq hcut
      refine ⟨hfinal q n hq ▸ Nat.zero_le _, fun m _ => ?_⟩
      cases m with
      | zero => exact hq
      | succ m => rw [hcut m, hq]
    unfold read at h
    cases hnext : next q c with
    | none =>
      simp only [hnext] at h
      refine hstop h fun m => ?_
      simp only [List.take_succ_cons, read, hnext]
    | some q' =>
      cases hread : read next final q' s with
      | took k =>
        simp only [hnext, hread] at h
        cases h
        obtain ⟨hlen, hcut⟩ := ih hread
        refine ⟨Nat.succ_le_succ hlen, fun m hm => ?_⟩
        obtain ⟨m, rfl⟩ := Nat.exists_eq_add_one_of_ne_zero (show m ≠ 0 by omega)
        simp only [List.take_succ_cons, read, hnext, hcut m (by omega)]
      | refused =>
        simp only [hnext, hread] at h
        refine hstop h fun m => ?_
        simp only [List.take_succ_cons, read, hnext, read_take_refused hread m]
      | raised =>
        simp only [hnext, hread] at h
        cases h

/-- What is taken ends with an element that leads to a state where the automaton can stop. -/
theorem read_last {stops : α → Prop} (hstops : ∀ q c q' n, next q c = some q' → final q' = .took n → stops c)
    (hfinal : ∀ q n, final q = .took n → n = 0) {q : σ} {s : List α} {n : Nat} (h : read next final q s = .took n) :
    final q = .took n ∨ ∃ m c, n = m + 1 ∧ s[m]? = some c ∧ stops c := by
  induction s generalizing q n with
  | nil => exact .inl h
  | cons c s ih =>
    unfold read at h
    cases hnext : next q c with
    | none =>
      simp only [hnext] at h
      exact .inl h
    | some q' =>
      cases hread : read next final q' s with
      | took k =>
        simp only [hnext, hread] at h
        cases h
        rcases ih hread with hq | ⟨m, d, rfl, hd, hstop⟩
        · exact .inr ⟨0, c, by rw [hfinal q' k hq], rfl, hstops q c q' k hnext hq⟩
        · exact .inr ⟨m + 1, d, rfl, hd, hstop⟩
      | refused =>
        simp only [hnext, hread] at h
        exact .inl h
      | raised =>
        simp only [hnext, hread] at h
        cases h

end Extent
