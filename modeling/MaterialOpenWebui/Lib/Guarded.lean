import Mathlib.Data.List.Basic

/-!
# `Lib.Guarded` — computations that may refuse, and what they ask for on the way

A checked computation either yields a value or refuses with an error. `Meets allowed P` says of one that its value has a property
and that its errors are among the allowed ones: the rules below prove it along the binds. A `Traced` computation also records what
it asked for, also where it refuses later.
-/

namespace Guarded

variable {ε α β τ : Type}

/-! ## Refusals -/

/-- `if (cond) throw e` -/
def refuse (cond : Prop) [Decidable cond] (e : ε) : Except ε Unit := if cond then .error e else .ok ()

/-- The value has the property, or the error is allowed. -/
def Meets (allowed : ε → Prop) (P : α → Prop) : Except ε α → Prop
  | .ok a => P a
  | .error e => allowed e

section
variable {allowed : ε → Prop} {P Q : α → Prop} {R : β → Prop}

theorem Meets.mono {x : Except ε α} (h : Meets allowed P x) (hPQ : ∀ a, P a → Q a) : Meets allowed Q x := by
  cases x with
  | ok a => exact hPQ a h
  | error e => exact h

/-- **The bind rule.** -/
theorem Meets.bind {x : Except ε α} {f : α → Except ε β} (h : Meets allowed P x) (hf : ∀ a, P a → Meets allowed R (f a)) :
    Meets allowed R (x >>= f) := by
  cases x with
  | ok a => exact hf a h
  | error e => exact h

theorem meets_refuse {cond : Prop} [Decidable cond] {e : ε} (he : allowed e) :
    Meets allowed (fun _ => ¬ cond) (refuse cond e) := by
  rw [refuse]
  split
  · exact he
  · assumption

theorem Meets.of_ok {x : Except ε α} (h : Meets allowed P x) {a : α} (hx : x = .ok a) : P a := by
  rw [hx] at h
  exact h

end

theorem bind_eq_ok {x : Except ε α} {f : α → Except ε β} {b : β} : (x >>= f) = .ok b ↔ ∃ a, x = .ok a ∧ f a = .ok b := by
  cases x with
  | ok a =>
    constructor
    · exact fun h => ⟨a, rfl, h⟩
    · rintro ⟨a', ha, h⟩
      cases ha
      exact h
  | error e =>
    constructor
    · exact fun h => by cases h
    · rintro ⟨a', ha, -⟩
      cases ha

theorem bind_ok {x : Except ε α} {f : α → Except ε β} {a : α} {b : β} (hx : x = .ok a)
    (hf : f a = .ok b) : (x >>= f) = .ok b :=
  bind_eq_ok.mpr ⟨a, hx, hf⟩

theorem refuse_of_not {cond : Prop} [Decidable cond] (h : ¬ cond) (e : ε) : refuse cond e = .ok () := if_neg h

theorem refuse_eq_ok {cond : Prop} [Decidable cond] {e : ε} {u : Unit} : refuse cond e = .ok u ↔ ¬ cond := by
  rw [refuse]
  split
  · rename_i h
    exact ⟨fun heq => (by cases heq), fun hnot => absurd h hnot⟩
  · rename_i h
    exact ⟨fun _ => h, fun _ => rfl⟩

/-! ## Traces -/

/-- What was asked for, and how it ended. -/
structure Traced (τ ε α : Type) where
  trace : List τ
  result : Except ε α

namespace Traced

/-- What a computation that refused would have asked for later is not asked for. -/
def bind (x : Traced τ ε α) (f : α → Traced τ ε β) : Traced τ ε β :=
  match x.result with
  | .ok a => ⟨x.trace ++ (f a).trace, (f a).result⟩
  | .error e => ⟨x.trace, .error e⟩

instance : Monad (Traced τ ε) where
  pure a := ⟨[], .ok a⟩
  bind := bind

/-- A computation that asks for nothing. -/
def lift (x : Except ε α) : Traced τ ε α := ⟨[], x⟩

def ask (t : τ) (x : Except ε α) : Traced τ ε α := ⟨[t], x⟩

theorem result_bind (x : Traced τ ε α) (f : α → Traced τ ε β) : (x >>= f).result = x.result >>= fun a => (f a).result := by
  show (bind x f).result = _
  rw [bind]
  cases x.result <;> rfl

/-- With what the value has, what is asked for later has the property too. -/
theorem trace_bind {x : Traced τ ε α} {f : α → Traced τ ε β} {allowed : ε → Prop} {P : α → Prop}
    (hx : Meets allowed P x.result)
    {T : List τ → Prop} (hstop : T x.trace) (hnext : ∀ a, P a → T (x.trace ++ (f a).trace)) : T (x >>= f).trace := by
  show T (bind x f).trace
  rw [bind]
  cases hresult : x.result with
  | ok a => exact hnext a (hx.of_ok hresult)
  | error e => exact hstop

theorem result_bind_ok {x : Traced τ ε α} {f : α → Traced τ ε β} {a : α} {b : β} (hx : x.result = .ok a)
    (hf : (f a).result = .ok b) :
    (x >>= f).result = .ok b := by
  rw [result_bind]
  exact bind_ok hx hf

end Traced

end Guarded
