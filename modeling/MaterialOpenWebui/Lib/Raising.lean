import Mathlib.Data.List.Basic

/-!
# `Lib.Raising` — steps that may raise, and the state they raise in

A step takes a state to the next one, or raises; a program that catches the exception goes on from the state in which it was
raised. So both outcomes carry a state, and what holds after a step is said of both: `Ends Q E` is `Q` after a normal end
and `E` where an exception was raised.
-/

namespace Raising

variable {σ α : Type}

/-- The state in which the steps ended, one way or the other. -/
def ending : Except σ σ → σ
  | .ok s => s
  | .error s => s

/-- `Q` holds after a normal end, and `E` after an exception. -/
def Ends (Q E : σ → Prop) : Except σ σ → Prop
  | .ok s => Q s
  | .error s => E s

theorem Ends.bind {Q Q' E : σ → Prop} {x : Except σ σ} {f : σ → Except σ σ} (h : Ends Q E x)
    (hf : ∀ s, Q s → Ends Q' E (f s)) : Ends Q' E (x >>= f) := by
  cases x with
  | error s => exact h
  | ok s => exact hf s h

theorem Ends.mono {Q Q' E E' : σ → Prop} {x : Except σ σ} (h : Ends Q E x) (hQ : ∀ s, Q s → Q' s)
    (hE : ∀ s, E s → E' s) : Ends Q' E' x := by
  cases x with
  | error s => exact hE s h
  | ok s => exact hQ s h

/-- Either way, what follows from both holds of the state at the end. -/
theorem Ends.ending {Q E I : σ → Prop} {x : Except σ σ} (h : Ends Q E x) (hQ : ∀ s, Q s → I s) (hE : ∀ s, E s → I s) :
    I (ending x) := by
  cases x with
  | error s => exact hE s h
  | ok s => exact hQ s h

end Raising
