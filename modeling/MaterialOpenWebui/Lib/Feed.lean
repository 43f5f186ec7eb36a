import Mathlib.Data.List.Basic

/-!
# `Lib.Feed` — readers that are fed in pieces

A reader has a state, and puts out something at each element it reads. What it makes of a list it makes of the parts of the list,
one after the other, so a stream may be cut anywhere (`feed_chunks`). A reader of what another puts out is a reader of what the other
reads (`feed_through`).
-/

namespace Feed

variable {σ τ α β γ : Type}

/-- What a reader puts out, and its state at the end. -/
def feed (step : σ → α → List β × σ) : σ → List α → List β × σ
  | s, [] => ([], s)
  | s, a :: as =>
    let (out, s') := step s a
    let (outs, t) := feed step s' as
    (out ++ outs, t)

section
variable (step : σ → α → List β × σ)

@[simp] theorem feed_nil (s : σ) : feed step s [] = ([], s) := rfl

theorem feed_cons (s : σ) (a : α) (as : List α) :
    feed step s (a :: as) = ((step s a).1 ++ (feed step (step s a).2 as).1, (feed step (step s a).2 as).2) := rfl

theorem feed_append (s : σ) (as bs : List α) : feed step s (as ++ bs) =
    ((feed step s as).1 ++ (feed step (feed step s as).2 bs).1, (feed step (feed step s as).2 bs).2) := by
  induction as generalizing s with
  | nil => rfl
  | cons a as ih =>
    rw [List.cons_append, feed_cons, ih, feed_cons]
    simp only [List.append_assoc]

/-- **A stream may be cut anywhere**: fed chunk by chunk, a reader does what it does when it is fed at once. -/
theorem feed_chunks (s : σ) (chunks : List (List α)) : feed (feed step) s chunks = feed step s chunks.flatten := by
  induction chunks generalizing s with
  | nil => rfl
  | cons chunk chunks ih => rw [feed_cons, List.flatten_cons, feed_append, ih]

end

/-- Two readers that do the same in every state that is reached. -/
theorem feed_congr {step step' : σ → α → List β × σ} {I : σ → Prop}
    (hstep : ∀ s a, I s → step s a = step' s a ∧ I (step s a).2)
    {s : σ} (hs : I s) (as : List α) : feed step s as = feed step' s as := by
  induction as generalizing s with
  | nil => rfl
  | cons a as ih =>
    obtain ⟨heq, hI⟩ := hstep s a hs
    rw [feed_cons, feed_cons, ← heq, ih hI]

/-- The second reader reads what the first puts out. -/
def through (step : σ → α → List β × σ) (next : τ → β → List γ × τ) (s : σ × τ) (a : α) : List γ × (σ × τ) :=
  let (bs, s') := step s.1 a
  let (cs, t) := feed next s.2 bs
  (cs, (s', t))

theorem feed_through (step : σ → α → List β × σ) (next : τ → β → List γ × τ) (s : σ × τ) (as : List α) :
    feed (through step next) s as =
      ((feed next s.2 (feed step s.1 as).1).1, ((feed step s.1 as).2, (feed next s.2 (feed step s.1 as).1).2)) := by
  induction as generalizing s with
  | nil => rfl
  | cons a as ih =>
    rw [feed_cons, ih, feed_cons, feed_append]
    rfl

end Feed
