import MaterialOpenWebui.Lib.Cursor
import MaterialOpenWebui.Lib.Dict
import MaterialOpenWebui.Lib.Run
import MaterialOpenWebui.Py.Text

/-!
# `Tasks.Local` — the tasks of one process, without Redis (`backend/open_webui/tasks.py`)

A task is registered under its id, and its id in the list of an item. When it is done its callback makes a task that takes
it out of both; a task of a chat also does so by itself, before it is done. `stop_item_tasks` goes through the list of the
item itself, and waits for each of the tasks in it: what is taken out meanwhile moves the rest of the list.

The coroutines of the tasks and of everything else run between any two steps: they register tasks, finish, take themselves
out of the registry, and call the functions that stop tasks. The callbacks are run in the order they were scheduled.
-/

namespace MaterialOpenWebui
namespace Tasks
open Py

/-! ## The event loop -/

/-- How a task ends. -/
inductive Outcome where
  | returned
  | cancelled
  | raised
  deriving DecidableEq

/-- An `asyncio.Task` that `create_task` has made. -/
structure Task where
  /-- the id of its item -/
  id : Option Str
  cancel_requested : Bool
  outcome : Option Outcome
  deriving DecidableEq

/-- What the event loop is to run. -/
inductive Handle where
  /-- the callback of a task that is done -/
  | done_callback (task_id : Str)
  /-- the task that the callback makes -/
  | cleanup (task_id : Str)
  /-- a call that waits for a task that is done -/
  | wakeup (call : Nat)
  deriving DecidableEq

structure Reply where
  status : Bool
  message : Str
  deriving DecidableEq

/-- Where a call is. -/
inductive Progress where
  | awaiting (task_id : Str)
  | returned (reply : Reply)
  | raised
  deriving DecidableEq

/-- The loop of `stop_item_tasks`: the list it goes through, and how many it has taken. -/
structure Loop where
  item_id : Str
  ref : Nat
  index : Nat
  deriving DecidableEq

/-- A call of `stop_item_tasks`, or of `stop_task`, which has no loop. -/
structure Call where
  loop : Option Loop
  progress : Progress
  /-- the ids that the list had when the call was made -/
  registered : List Str
  deriving DecidableEq

structure State where
  /-- the ids in `tasks` -/
  tasks : List Str
  item_tasks : Dict (Option Str) Nat
  /-- the lists, by the numbers that `item_tasks` has for them -/
  lists : List (List Str)
  /-- every task that was made -/
  objects : Dict Str Task
  ready : List Handle
  calls : Dict Nat Call

namespace State

/-- A list, as it is now. -/
def list (s : State) (ref : Nat) : List Str := (s.lists[ref]?).getD []

end State

/-! ## The registry -/

/-- `item_tasks.get(id, [])`. -/
def item_list (s : State) (id : Option Str) : List Str :=
  match s.item_tasks.get? id with
  | some ref => s.list ref
  | none => []

/-- Adds a task to the list of its item, or makes a list for it. -/
def add_item_task (s : State) (id : Option Str) (task_id : Str) : State :=
  match s.item_tasks.get? id with
  | some ref =>
    if s.list ref ≠ [] then { s with lists := s.lists.modify ref (· ++ [task_id]) }
    -- a list without elements is false: another is made in its place
    else { s with item_tasks := s.item_tasks.set id s.lists.length, lists := s.lists ++ [[task_id]] }
  | none => { s with item_tasks := s.item_tasks.set id s.lists.length, lists := s.lists ++ [[task_id]] }

def create_task (s : State) (id : Option Str) (task_id : Str) : State :=
  add_item_task
    { s with tasks := s.tasks ++ [task_id], objects := s.objects.set task_id ⟨id, false, none⟩ } id task_id

/-- Takes a task out of the list of its item, which goes with the last. -/
def remove_item_task (s : State) (id : Option Str) (task_id : Str) : State :=
  match s.item_tasks.get? id with
  | some ref =>
    if task_id ∈ s.list ref then
      { s with
        lists := s.lists.modify ref (·.erase task_id)
        item_tasks := if (s.list ref).erase task_id = [] then s.item_tasks.erase id else s.item_tasks }
    else s
  | none => s

/-- `if id`. -/
def named : Option Str → Bool
  | some id => id ≠ []
  | none => false

def cleanup_task (s : State) (task_id : Str) (id : Option Str) : State :=
  let s := { s with tasks := s.tasks.filter (· ≠ task_id) }
  if named id then remove_item_task s id task_id else s

/-! ## Stopping -/

/-- `task.cancel()`, which does nothing to a task that is done. -/
def cancel (s : State) (task_id : Str) : State :=
  match s.objects.get? task_id with
  | some task =>
    if task.outcome.isSome then s
    else { s with objects := s.objects.set task_id { task with cancel_requested := true } }
  | none => s

/-- What `stop_task` does when the task is done. -/
def after_await (task_id : Str) : Outcome → Progress
  | .cancelled => .returned ⟨true, py "Task " ++ task_id ++ py " successfully stopped."⟩
  | .returned => .returned ⟨true, py "Task " ++ task_id ++ py " successfully cancelled."⟩
  | .raised => .raised

/-- `await task`, which does not wait for a task that is done. -/
def await_task (s : State) (task_id : Str) : Progress :=
  match (s.objects.get? task_id).bind Task.outcome with
  | some outcome => after_await task_id outcome
  | none => .awaiting task_id

/-- `stop_task`, up to its end or to where it waits. -/
def stop_task (s : State) (task_id : Str) : State × Progress :=
  if task_id ∈ s.tasks then
    let s := cancel { s with tasks := s.tasks.filter (· ≠ task_id) } task_id
    (s, await_task s task_id)
  else (s, .returned ⟨false, py "Task with ID " ++ task_id ++ py " not found."⟩)

/-- The rest of the loop, up to its end or to where it waits, and how many it has then taken. -/
def stop_loop (item_id : Str) (s : State) (index : Nat) : List Str → State × Progress × Nat
  | [] => (s, .returned ⟨true, py "All tasks for item " ++ item_id ++ py " stopped."⟩, index)
  | task_id :: rest =>
    match stop_task s task_id with
    -- a task that is not found ends the loop
    | (s, .returned reply) => if reply.status then stop_loop item_id s (index + 1) rest else (s, .returned reply, index + 1)
    | (s, progress) => (s, progress, index + 1)

/-- Goes on with the loop of a call. -/
def go_on (s : State) (n : Nat) (l : Loop) (registered : List Str) : State :=
  let (s, progress, index) := stop_loop l.item_id s l.index ((s.list l.ref).drop l.index)
  { s with calls := s.calls.set n ⟨some { l with index := index }, progress, registered⟩ }

def no_tasks (item_id : Str) : Reply := ⟨true, py "No tasks found for item " ++ item_id ++ py "."⟩

def stop_item_tasks (s : State) (n : Nat) (item_id : Str) : State :=
  match s.item_tasks.get? (some item_id) with
  | some ref =>
    if s.list ref = [] then { s with calls := s.calls.set n ⟨none, .returned (no_tasks item_id), []⟩ }
    else go_on s n ⟨item_id, ref, 0⟩ (s.list ref)
  | none => { s with calls := s.calls.set n ⟨none, .returned (no_tasks item_id), []⟩ }

/-- A call goes on when the task that it waits for is done. -/
def resume (s : State) (n : Nat) : State :=
  match s.calls.get? n with
  | some ⟨loop, .awaiting task_id, registered⟩ =>
    match await_task s task_id, loop with
    | .returned _, some l => go_on s n l registered
    | progress, loop => { s with calls := s.calls.set n ⟨loop, progress, registered⟩ }
  | _ => s

/-! ## The system -/

/-- The calls that wait for a task. -/
def waiters (s : State) (task_id : Str) : List Nat :=
  (s.calls.items.filter fun p => p.2.progress = .awaiting task_id).map Prod.fst

/-- A task is done: its callback and the calls that wait for it are scheduled. -/
def finish (s : State) (task_id : Str) (outcome : Outcome) : State :=
  match s.objects.get? task_id with
  | some task =>
    if task.outcome.isSome then s
    else
      { s with
        objects := s.objects.set task_id { task with outcome := some outcome }
        ready := s.ready ++ .done_callback task_id :: (waiters s task_id).map .wakeup }
  | none => s

/-- The item that a task was made for. -/
def itemOf (s : State) (task_id : Str) : Option Str := (s.objects.get? task_id).bind Task.id

def runHandle (s : State) : Handle → State
  | .done_callback task_id => { s with ready := s.ready ++ [.cleanup task_id] }
  | .cleanup task_id => cleanup_task s task_id (itemOf s task_id)
  | .wakeup n => resume s n

/-- The event loop runs what was scheduled first. -/
def tick (s : State) : State :=
  match s.ready with
  | [] => s
  | handle :: ready => runHandle { s with ready := ready } handle

inductive Action where
  | create (id : Option Str) (task_id : Str)
  | finish (task_id : Str) (outcome : Outcome)
  /-- a task takes itself out of the registry -/
  | deregister (task_id : Str)
  | stop_task (n : Nat) (task_id : Str)
  | stop_item_tasks (n : Nat) (item_id : Str)
  | tick

/-- Task ids are drawn by `uuid4`, and calls are numbered: an action with an old one is none. -/
def step (s : State) : Action → State
  | .create id task_id => if task_id ∈ s.objects then s else create_task s id task_id
  | .finish task_id outcome => finish s task_id outcome
  | .deregister task_id => cleanup_task s task_id (itemOf s task_id)
  | .stop_task n task_id =>
    if n ∈ s.calls then s
    else
      let (s, progress) := stop_task s task_id
      { s with calls := s.calls.set n ⟨none, progress, []⟩ }
  | .stop_item_tasks n item_id => if n ∈ s.calls then s else stop_item_tasks s n item_id
  | .tick => tick s

end Tasks
end MaterialOpenWebui
