import Mathlib.Data.List.Basic

/-!
# `Lib.Run` — runs of a state machine, and invariants over them

A machine is a total step function: an action that is refused, throws or is not enabled leaves the state as
it is. A run is a list of actions, so an interleaving of several parties is just the list of their steps in
the order they were taken, and "every state reached" is "after every list of actions".

`AllSteps ok` says that every step of a run was taken under the condition `ok`, a condition on the state
before the step and the action. `invariant` is the one induction: what every such step preserves holds after
every such run. `holds_iff` and `related_iff` tell exactly which runs keep a property, or two machines related.
-/

namespace Run

variable {σ α : Type}

/-- A computation that throws nowhere is its parts, one after the other. -/
theorem bind_ok {ε β γ : Type} {x : Except ε β} {f : β → Except ε γ} {c : γ} (h : x >>= f = .ok c) :
    ∃ b, x = .ok b ∧ f b = .ok c := by
  cases x with
  | error e => cases h
  | ok b => exact ⟨b, rfl, h⟩

/-- The state after the actions, in order. -/
def run (step : σ → α → σ) (s : σ) (as : List α) : σ := as.foldl step s

@[simp] theorem run_nil (step : σ → α → σ) (s : σ) : run step s [] = s := rfl

@[simp] theorem run_cons (step : σ → α → σ) (s : σ) (a : α) (as : List α) :
    run step s (a :: as) = run step (step s a) as := rfl

theorem run_append (step : σ → α → σ) (s : σ) (as bs : List α) :
    run step s (as ++ bs) = run step (run step s as) bs := List.foldl_append

/-- Every step of the run was taken under `ok`. -/
def AllSteps (ok : σ → α → Prop) (step : σ → α → σ) : σ → List α → Prop
  | _, [] => True
  | s, a :: as => ok s a ∧ AllSteps ok step (step s a) as

theorem allSteps_append {ok : σ → α → Prop} {step : σ → α → σ} {s : σ} {as bs : List α} :
    AllSteps ok step s (as ++ bs) ↔ AllSteps ok step s as ∧ AllSteps ok step (run step s as) bs := by
  induction as generalizing s with
  | nil => simp [AllSteps]
  | cons a as ih => simp only [List.cons_append, AllSteps, run_cons, ih, and_assoc]

theorem AllSteps.mono {ok ok' : σ → α → Prop} {step : σ → α → σ} (himp : ∀ s a, ok s a → ok' s a) {s : σ} {as : List α}
    (h : AllSteps ok step s as) : AllSteps ok' step s as := by
  induction as generalizing s with
  | nil => trivial
  | cons a as ih => exact ⟨himp s a h.1, ih h.2⟩

/-- A condition on the actions alone. -/
theorem allSteps_of_forall {ok : σ → α → Prop} {step : σ → α → σ} {as : List α} (h : ∀ a ∈ as, ∀ s, ok s a) (s : σ) :
    AllSteps ok step s as := by
  induction as generalizing s with
  | nil => trivial
  | cons a as ih => exact ⟨h a List.mem_cons_self s, ih (fun b hb => h b (List.mem_cons_of_mem a hb)) _⟩

/-- **The invariant rule.** -/
theorem invariant {ok : σ → α → Prop} {step : σ → α → σ} {I : σ → Prop}
    (hstep : ∀ s a, I s → ok s a → I (step s a)) {s : σ} {as : List α}
    (hs : I s) (hok : AllSteps ok step s as) : I (run step s as) := by
  induction as generalizing s with
  | nil => exact hs
  | cons a as ih => exact ih (hstep s a hs hok.1) hok.2

/-- Two conditions that agree wherever the invariant holds allow the same runs, if the first keeps it. -/
theorem allSteps_congr {ok ok' : σ → α → Prop} {step : σ → α → σ} {I : σ → Prop}
    (hstep : ∀ s a, I s → ok s a → I (step s a)) (hiff : ∀ s a, I s → (ok s a ↔ ok' s a)) {s : σ} {as : List α}
    (hs : I s) : AllSteps ok step s as ↔ AllSteps ok' step s as := by
  induction as generalizing s with
  | nil => exact Iff.rfl
  | cons a as ih =>
    simp only [AllSteps]
    rw [← hiff s a hs]
    exact and_congr_right (fun hok => ih (hstep s a hs hok))

/-- A property holds after every beginning of a run exactly when every step is one that keeps it. -/
theorem holds_iff {ok : σ → α → Prop} {step : σ → α → σ} {I P : σ → Prop} (hinv : ∀ s a, I s → I (step s a))
    (hstep : ∀ s a, I s → P s → (P (step s a) ↔ ok s a)) {s : σ} {as : List α} (hs : I s) (hp : P s) :
    (∀ n, P (run step s (as.take n))) ↔ AllSteps ok step s as := by
  induction as generalizing s with
  | nil => exact iff_of_true (fun n => by rw [List.take_nil]; exact hp) trivial
  | cons a as ih =>
    constructor
    · intro h
      have hnext : P (step s a) := h 1
      exact ⟨(hstep s a hs hp).mp hnext, (ih (hinv s a hs) hnext).mp fun n => h (n + 1)⟩
    · rintro ⟨hok, hrest⟩ n
      cases n with
      | zero => exact hp
      | succ n => exact (ih (hinv s a hs) ((hstep s a hs hp).mpr hok)).mpr hrest n

/-- Two machines keep their states related after every beginning of a run exactly when every step is one that relates
the next states. -/
theorem related_iff {τ : Type} {ok : σ → α → Prop} {step : σ → α → σ} {step' : τ → α → τ} {R : σ → τ → Prop}
    (hstep : ∀ s t a, R s t → (R (step s a) (step' t a) ↔ ok s a)) {s : σ} {t : τ} {as : List α} (hs : R s t) :
    (∀ n, R (run step s (as.take n)) (run step' t (as.take n))) ↔ AllSteps ok step s as := by
  induction as generalizing s t with
  | nil => exact iff_of_true (fun n => by rw [List.take_nil]; exact hs) trivial
  | cons a as ih =>
    constructor
    · intro h
      have hnext : R (step s a) (step' t a) := h 1
      exact ⟨(hstep s t a hs).mp hnext, (ih hnext).mp fun n => h (n + 1)⟩
    · rintro ⟨hok, hrest⟩ n
      cases n with
      | zero => exact hs
      | succ n => exact (ih ((hstep s t a hs).mpr hok)).mpr hrest n

end Run
