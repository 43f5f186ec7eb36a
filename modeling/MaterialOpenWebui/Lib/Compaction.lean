import Mathlib.Data.List.Basic

/-!
# `Lib.Compaction` — a log whose beginning is replaced by a snapshot

What a log stands for is the state that its updates make, applied in order to the empty one. A snapshot of a state is an
update too; where it is lossless (`Lossless`), it may stand for the updates that made the state (`merged_compact`).
-/

namespace Compaction

variable {σ υ : Type}

/-- The state that the updates make. -/
def merged (apply : σ → υ → σ) (s : σ) (us : List υ) : σ := us.foldl apply s

/-- A snapshot of what some updates made does what they do. -/
def Lossless (apply : σ → υ → σ) (snapshot : σ → υ) (empty : σ) : Prop :=
  ∀ s us, apply s (snapshot (merged apply empty us)) = merged apply s us

/-- The first `n` updates are replaced by a snapshot. -/
def compact (apply : σ → υ → σ) (snapshot : σ → υ) (empty : σ) (n : Nat) (us : List υ) : List υ :=
  snapshot (merged apply empty (us.take n)) :: us.drop n

variable {apply : σ → υ → σ} {snapshot : σ → υ} {empty : σ}

theorem merged_append (s : σ) (us vs : List υ) : merged apply s (us ++ vs) = merged apply (merged apply s us) vs :=
  List.foldl_append

/-- **Compaction** keeps what the log stands for. -/
theorem merged_compact (h : Lossless apply snapshot empty) (s : σ) (n : Nat) (us : List υ) :
    merged apply s (compact apply snapshot empty n us) = merged apply s us := by
  calc merged apply s (compact apply snapshot empty n us)
      = merged apply (apply s (snapshot (merged apply empty (us.take n)))) (us.drop n) := rfl
    _ = merged apply (merged apply s (us.take n)) (us.drop n) := by rw [h]
    _ = merged apply s (us.take n ++ us.drop n) := (merged_append s _ _).symm
    _ = merged apply s us := by rw [List.take_append_drop]

/-- What two logs make alike, they make alike with more updates. -/
theorem merged_append_congr {s : σ} {us us' : List υ} (h : merged apply s us = merged apply s us') (vs : List υ) :
    merged apply s (us ++ vs) = merged apply s (us' ++ vs) := by
  rw [merged_append, merged_append, h]

end Compaction
