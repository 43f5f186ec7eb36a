import MaterialOpenWebui.Backend.Model

/-!
# `Backend.Stopping` — a stopped backend says so

After `stop` the reported state should stay `stopped` until `start` is called again, whatever is still
delivered. Exit events respect that; a call of `start` that is still in flight does not: a port that arrives
starts the child, an answer makes the backend ready, and a poll that finds no child gives up and reports a
failure. So the state stays if and only if no call was in flight when `stop` was called (`stays_stopped_iff`).
-/

namespace MaterialOpenWebui
namespace Backend
open Js Run

/-! ## The law -/

/-- The call has neither returned nor thrown. -/
def Phase.Pending : Phase → Prop
  | .port _ => True
  | .health _ _ => True
  | .pause _ _ => True
  | .returned _ => False
  | .threw => False

/-- No call of `start` is in flight. -/
def Settled (s : State) : Prop := ∀ (i : Nat) (p : Phase), s.starts[i]? = some p → ¬ p.Pending

section
variable (join : List JsString → JsString) (repoRoot resourcesPath : JsString)

/-- The reported state is `stopped`, and stays so however the run goes on without a call of `start`. -/
def StaysStopped (s : State) : Prop :=
  ∀ bs : List Step, (∀ b ∈ bs, ∀ existsSync, b ≠ .start existsSync) →
    (run (step join repoRoot resourcesPath) s bs).state = .stopped

/-! ## Steps -/

structure Quiet (s : State) : Prop where
  settled : Settled s
  stopped : s.state = .stopped

/-- **Step lemma**: nothing that is still delivered wakes a quiet backend. -/
theorem quiet_step {s : State} {a : Step} (h : Quiet s) (ha : ∀ existsSync, a ≠ .start existsSync) :
    Quiet (step join repoRoot resourcesPath s a) := by
  cases a with
  | start existsSync => exact absurd rfl (ha existsSync)
  | portReady i port now =>
    simp only [step, portReady]
    split
    · rename_i hi
      exact absurd trivial (h.settled i _ hi)
    · exact h
  | portFails i =>
    simp only [step, portFails]
    split
    · rename_i hi
      exact absurd trivial (h.settled i _ hi)
    · exact h
  | answered i healthy =>
    simp only [step, answered]
    split
    · rename_i hi
      exact absurd trivial (h.settled i _ hi)
    · exact h
  | wake i now =>
    simp only [step, wake]
    split
    · rename_i hi
      exact absurd trivial (h.settled i _ hi)
    · exact h
  | exits p code =>
    simp only [step, exits]
    split <;> exact ⟨h.settled, h.stopped⟩
  | exitEvent p =>
    simp only [step, exitEvent]
    split
    · -- the handler of a child looks at the state before it reports a failure
      rw [if_pos h.stopped]
      exact ⟨h.settled, h.stopped⟩
    · exact h
  | stop =>
    simp only [step, stop]
    split <;> exact ⟨h.settled, rfl⟩

theorem stop_state (s : State) : (stop s).state = .stopped := by
  unfold stop
  simp only
  split <;> rfl

theorem stop_starts (s : State) : (stop s).starts = s.starts := by
  unfold stop
  simp only
  split <;> rfl

/-! ## Runs -/

theorem stays_stopped {s : State} (h : Settled s) : StaysStopped join repoRoot resourcesPath (stop s) := by
  intro bs hbs
  have hquiet : Quiet (stop s) := ⟨by unfold Settled; rw [stop_starts]; exact h, stop_state s⟩
  have hsteps : ∀ (t : State) (cs : List Step), (∀ c ∈ cs, ∀ existsSync, c ≠ .start existsSync) →
      AllSteps (fun _ a => ∀ existsSync, a ≠ .start existsSync) (step join repoRoot resourcesPath) t cs := by
    intro t cs hcs
    induction cs generalizing t with
    | nil => trivial
    | cons c cs ih => exact ⟨hcs c List.mem_cons_self, ih _ (fun d hd => hcs d (List.mem_cons_of_mem c hd))⟩
  exact (invariant (fun _ _ hI ha => quiet_step join repoRoot resourcesPath hI ha) hquiet
    (hsteps (stop s) bs hbs)).stopped

/-- A call that is in flight when the backend is stopped can still change what it reports: a port starts it,
    an answer makes it ready, and the next poll finds no child and reports a failure. -/
theorem pending_awakes {s : State} {i : Nat} {p : Phase} (hi : s.starts[i]? = some p) (hp : p.Pending) :
    ∃ b : Step, (∀ existsSync, b ≠ .start existsSync) ∧
      (step join repoRoot resourcesPath (stop s) b).state ≠ .stopped := by
  have hstarts : (stop s).starts[i]? = some p := by rw [stop_starts, hi]
  cases p with
  | port python =>
    refine ⟨.portReady i 0 0, nofun, ?_⟩
    simp only [step, portReady, hstarts]
    show BackendState.starting 0 ≠ .stopped
    exact nofun
  | health port deadline =>
    refine ⟨.answered i true, nofun, ?_⟩
    simp only [step, answered, hstarts, if_true]
    exact nofun
  | pause port deadline =>
    refine ⟨.wake i deadline, nofun, ?_⟩
    simp only [step, wake, hstarts, poll, if_neg (Int.lt_irrefl deadline), giveUp, stop_state]
    exact nofun
  | returned state => exact absurd hp id
  | threw => exact absurd hp id

/-- **After `stop` the state stays `stopped` if and only if no call of `start` was in flight**, in every run. -/
theorem stays_stopped_iff (as : List Step) :
    StaysStopped join repoRoot resourcesPath (run (step join repoRoot resourcesPath) initial (as ++ [.stop])) ↔
      Settled (run (step join repoRoot resourcesPath) initial as) := by
  rw [run_append]
  show StaysStopped join repoRoot resourcesPath (stop (run (step join repoRoot resourcesPath) initial as)) ↔ _
  constructor
  · intro hstays i p hi hp
    obtain ⟨b, hb, hstate⟩ := pending_awakes join repoRoot resourcesPath hi hp
    apply hstate
    exact hstays [b] (fun c hc => List.mem_singleton.mp hc ▸ hb)
  · exact stays_stopped join repoRoot resourcesPath

end

/-! ## An answer that comes late -/

/-- The backend is stopped while the first poll is under way. -/
def stoppedWhilePolling : List Step :=
  [.start (fun _ => true), .portReady 0 8081 1772820000000, .stop]

/-- The poll fails, the next one finds no child, and the stopped backend reports a failure. -/
theorem failed_after_stop :
    (run (step List.flatten (js "repo") (js "resources")) initial
      (stoppedWhilePolling ++ [.answered 0 false, .wake 0 1772820000400])).state = .failed noAnswerReason none ∧
    ¬ StaysStopped List.flatten (js "repo") (js "resources")
      (run (step List.flatten (js "repo") (js "resources")) initial stoppedWhilePolling) := by
  have hfailed : (run (step List.flatten (js "repo") (js "resources")) initial
      (stoppedWhilePolling ++ [.answered 0 false, .wake 0 1772820000400])).state =
        .failed noAnswerReason none := rfl
  refine ⟨hfailed, ?_⟩
  intro h
  have hstays := h [.answered 0 false, .wake 0 1772820000400] (by
    intro b hb existsSync heq
    subst heq
    simp only [List.mem_cons, List.not_mem_nil, or_false, reduceCtorEq] at hb)
  rw [← run_append, hfailed] at hstays
  cases hstays

end Backend
end MaterialOpenWebui
