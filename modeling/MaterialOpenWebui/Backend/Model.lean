import MaterialOpenWebui.Js.Text
import MaterialOpenWebui.Lib.Run

/-!
# `Backend.Model` — the supervisor of the Python backend (`electron/backend.ts`)

`start` is asynchronous: it awaits a free port, spawns the child, and then polls its health, one `await` after
the other, until the child answers, is gone, or a minute is over. `stop`, the exit events of children and
other calls of `start` may come between any two of these steps.

Processes are numbered in the order they are spawned. One that ends is noticed by the `Backend` only when its
exit event is delivered, which may be any time later; one that `stop` has killed still has its exit event to
come. Spawning succeeds; the listeners and what the child writes are left out.
-/

namespace MaterialOpenWebui
namespace Backend
open Js

/-! ## Data -/

inductive BackendState where
  | stopped
  | starting (port : Nat)
  | ready (port : Nat) (url : JsString)
  | unavailable (reason : JsString) (tried : List JsString)
  | failed (reason : JsString) (exitCode : Option Int)
  deriving DecidableEq

/-- A process that was spawned. -/
inductive Proc where
  | running
  /-- `stop` has sent it the signal. -/
  | killed
  /-- It has ended, and its exit event is still to be delivered. -/
  | exited (code : Option Int)
  | gone
  deriving DecidableEq

/-- Where a call of `start` is. -/
inductive Phase where
  /-- It awaits a free port, to run this interpreter. -/
  | port (python : JsString)
  /-- It awaits the answer of `/health`. -/
  | health (port : Nat) (deadline : Int)
  /-- It awaits the pause between two polls. -/
  | pause (port : Nat) (deadline : Int)
  /-- It has returned. -/
  | returned (state : BackendState)
  /-- It has thrown: there was no free port. -/
  | threw
  deriving DecidableEq

structure State where
  child : Option Nat
  state : BackendState
  procs : List Proc
  starts : List Phase

def State.set (s : State) (state : BackendState) : State := { s with state }

def State.phase (s : State) (i : Nat) (p : Phase) : State := { s with starts := s.starts.set i p }

/-! ## `start` -/

section
variable (join : List JsString → JsString) (repoRoot resourcesPath : JsString)

/-- Candidate interpreters, most specific first. -/
def candidates : List (JsString × JsString) :=
  let backendDir := join [repoRoot, js "backend"]
  [(js "checkout .venv", join [repoRoot, js ".venv", js "Scripts", js "python.exe"]),
    (js "checkout .venv (posix)", join [repoRoot, js ".venv", js "bin", js "python"]),
    (js "backend .venv", join [backendDir, js ".venv", js "Scripts", js "python.exe"]),
    (js "backend .venv (posix)", join [backendDir, js ".venv", js "bin", js "python"]),
    (js "bundled runtime", join [resourcesPath, js "python", js "python.exe"])]

/-- What was tried, and the first interpreter that is there. -/
def search (existsSync : JsString → Bool) : List (JsString × JsString) → List JsString × Option JsString
  | [] => ([], none)
  | (label, exe) :: cs =>
    let tried := label ++ js " (" ++ exe ++ js ")"
    if exe ≠ [] ∧ existsSync exe then ([tried], some exe)
    else
      let rest := search existsSync cs
      (tried :: rest.1, rest.2)

def unavailableReason : JsString :=
  js "No Python runtime was found for the Open WebUI backend. The application runs local-only until one exists: chats, settings and one-time codes still work, and the surfaces that need the backend say so rather than showing an empty table."

/-- `start` up to its first `await`. -/
def startCall (s : State) (existsSync : JsString → Bool) : State :=
  let call := fun (s : State) p => { s with starts := s.starts ++ [p] }
  match s.state with
  | .ready _ _ => call s (.returned s.state)
  | .starting _ => call s (.returned s.state)
  | _ =>
    match search existsSync (candidates join repoRoot resourcesPath) with
    | (tried, none) =>
      let s := s.set (.unavailable unavailableReason tried)
      call s (.returned s.state)
    | (_, some python) => call s (.port python)

end

def healthTimeoutMs : Int := 60000

/-- `spawn`: the new child is the one the backend holds. -/
def spawnChild (s : State) : State := { s with child := some s.procs.length, procs := s.procs ++ [.running] }

def noAnswerReason : JsString :=
  js "The backend did not answer /health within 60s. It may still be installing dependencies on first run."

/-- What follows the loop, when it has not settled. -/
def giveUp (s : State) (i : Nat) : State :=
  let s := match s.state with
    | .failed _ _ => s
    | _ => s.set (.failed noAnswerReason none)
  s.phase i (.returned s.state)

/-- The head of the polling loop. -/
def poll (s : State) (i port : Nat) (deadline now : Int) : State :=
  if now < deadline then
    match s.child with
    | none => giveUp s i
    | some _ => s.phase i (.health port deadline)
  else giveUp s i

/-! ## Events -/

/-- The free port that call `i` awaits is there. -/
def portReady (s : State) (i port : Nat) (now : Int) : State :=
  match s.starts[i]? with
  | some (.port _) => poll (spawnChild (s.set (.starting port))) i port (now + healthTimeoutMs) now
  | _ => s

def portFails (s : State) (i : Nat) : State :=
  match s.starts[i]? with
  | some (.port _) => s.phase i .threw
  | _ => s

/-- The poll of call `i` is answered, or has timed out. -/
def answered (s : State) (i : Nat) (healthy : Bool) : State :=
  match s.starts[i]? with
  | some (.health port deadline) =>
    if healthy then
      let s := s.set (.ready port (js "http://127.0.0.1:" ++ natText port))
      s.phase i (.returned s.state)
    else s.phase i (.pause port deadline)
  | _ => s

/-- The pause of call `i` is over. -/
def wake (s : State) (i : Nat) (now : Int) : State :=
  match s.starts[i]? with
  | some (.pause port deadline) => poll s i port deadline now
  | _ => s

/-- A process ends. -/
def exits (s : State) (p : Nat) (code : Option Int) : State :=
  match s.procs[p]? with
  | some .running => { s with procs := s.procs.set p (.exited code) }
  | some .killed => { s with procs := s.procs.set p (.exited code) }
  | _ => s

def exitedReason : JsString := js "The backend process exited. Its output is in this window's console."

/-- The exit event of a process is delivered. -/
def exitEvent (s : State) (p : Nat) : State :=
  match s.procs[p]? with
  | some (.exited code) =>
    let s := { s with child := none, procs := s.procs.set p .gone }
    if s.state = .stopped then s else s.set (.failed exitedReason code)
  | _ => s

/-- `child.kill()`: of a process that has ended already nothing is left to kill. -/
def kill (procs : List Proc) (p : Nat) : List Proc :=
  procs.modify p fun proc => if proc = .running then .killed else proc

def stop (s : State) : State :=
  let stopped := { s with child := none, state := .stopped }
  match s.child with
  | none => stopped
  | some p => { stopped with procs := kill s.procs p }

/-! ## Steps -/

inductive Step where
  | start (existsSync : JsString → Bool)
  | portReady (i port : Nat) (now : Int)
  | portFails (i : Nat)
  | answered (i : Nat) (healthy : Bool)
  | wake (i : Nat) (now : Int)
  | exits (p : Nat) (code : Option Int)
  | exitEvent (p : Nat)
  | stop

def step (join : List JsString → JsString) (repoRoot resourcesPath : JsString) (s : State) : Step → State
  | .start existsSync => startCall join repoRoot resourcesPath s existsSync
  | .portReady i port now => portReady s i port now
  | .portFails i => portFails s i
  | .answered i healthy => answered s i healthy
  | .wake i now => wake s i now
  | .exits p code => exits s p code
  | .exitEvent p => exitEvent s p
  | .stop => stop s

def initial : State := ⟨none, .stopped, [], []⟩

end Backend
end MaterialOpenWebui
