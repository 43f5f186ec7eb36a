import MaterialOpenWebui.Lib.Dict
import MaterialOpenWebui.Lib.Run
import MaterialOpenWebui.Lib.StableSort
import MaterialOpenWebui.Py.Text

/-!
# `Timers.Model` — timers that several servers claim, cancel and execute (`backend/open_webui/utils/timers.py`)

A timer is a row of the table of chats; its status is a field of the JSON column `meta`. Each operation reads rows in one
step, and in a later one commits what it has made of them, `meta` as a whole. Steps of other operations, of this server or
another, come in between as far as the locks allow: on PostgreSQL those of the rows a claim has selected, and of the
parent chat; in one server one for each timer and one for each parent chat.

That a timer is missing or cannot be executed for want of its parent, its message, its user or a model is an outcome that
any execution may have. Timers are not deleted here.
-/

namespace MaterialOpenWebui
namespace Timers
open Py

/-! ## Data -/

inductive Status where
  | pending
  | running
  | completed
  | cancelled
  | error
  deriving DecidableEq

/-- The column `meta`, as far as it is read. -/
structure Meta where
  status : Status
  timer_claim_id : Option Str
  timer_started_at : Option Int
  timer_at : Int
  parent_chat_id : Str
  cancel_on : List Str

structure Row where
  user_id : Str
  data : Meta

/-- What an operation is to commit for a timer: what it has read of it, and what `meta` is to become. -/
structure Write where
  timer : Str
  read : Meta
  data : Meta

/-- How an execution ends. -/
inductive Outcome where
  | failed
  /-- The parent chat is busy: the timer is to wait again. -/
  | returned
  | inserted
  deriving DecidableEq

/-- Where an operation is. -/
inductive Phase where
  /-- It has selected rows, which it may lock, and is to commit its claims. -/
  | claiming (selected : List Str) (writes : List Write)
  | cancelling (writes : List Write)
  /-- It has found the timer running, and its claim the right one. -/
  | executing (server : Nat) (timer : Str) (read : Meta)
  /-- It has read the timer once more, and is to commit. -/
  | settling (server : Nat) (write : Write) (outcome : Outcome)
  /-- The prompt is inserted, and the answer is being made. -/
  | answering (server : Nat) (timer : Str)

structure State where
  rows : Dict Str Row
  /-- The timers whose prompt was inserted into the parent chat, each time. -/
  inserted : List Str
  operations : Dict Nat Phase

inductive Database where
  | postgresql
  | other
  deriving DecidableEq

/-! ## Locks -/

def Phase.locksRow (timer : Str) : Phase → Bool
  | .claiming selected _ => timer ∈ selected
  | _ => false

def Phase.locksTimer (server : Nat) (timer : Str) : Phase → Bool
  | .executing s t _ => s = server && t = timer
  | .settling s w _ => s = server && w.timer = timer
  | .answering s t => s = server && t = timer
  | _ => false

/-- The lock of the server, and on PostgreSQL that of the row. -/
def Phase.locksParent (database : Database) (server : Nat) (parent : Str) : Phase → Bool
  | .settling s w outcome =>
    outcome ≠ .failed && w.read.parent_chat_id = parent && (s = server || database = .postgresql)
  | _ => false

/-- Another operation has the row of a timer locked. -/
def rowLocked (database : Database) (s : State) (operation : Nat) (timer : Str) : Bool :=
  database = .postgresql && s.operations.items.any fun p => p.1 ≠ operation && p.2.locksRow timer

def timerLocked (s : State) (server : Nat) (timer : Str) : Bool :=
  s.operations.items.any fun p => p.2.locksTimer server timer

def parentLocked (database : Database) (s : State) (server : Nat) (parent : Str) : Bool :=
  s.operations.items.any fun p => p.2.locksParent database server parent

/-! ## Steps -/

def State.begin (s : State) (operation : Nat) (phase : Phase) : State :=
  { s with operations := s.operations.set operation phase }

/-- `create_timer`. -/
def create_timer (s : State) (timer user_id parent_chat_id : Str) (timer_at : Int) (cancel_on : List Str) : State :=
  if timer ∈ s.rows then s
  else
    let data := { status := .pending, timer_claim_id := none, timer_started_at := none, timer_at, parent_chat_id, cancel_on }
    { s with rows := s.rows.set timer ⟨user_id, data⟩ }

/-- `claim_due_timers` up to its commit. -/
def claim_due_timers (database : Database) (s : State) (operation : Nat) (now_ns : Int) (limit : Nat)
    (claim_ids : List Str) : State :=
  let rows := s.rows.items.filter fun p => p.2.data.status = .pending && !rowLocked database s operation p.1
  let due := rows.filter fun p => p.2.data.timer_at ≤ now_ns
  let chosen := (StableSort.sortOn (fun p : Str × Row => p.2.data.timer_at) due).take limit
  let claim (p : Str × Row) (claim_id : Str) : Write :=
    ⟨p.1, p.2.data,
      { p.2.data with status := .running, timer_started_at := some now_ns, timer_claim_id := some claim_id }⟩
  if operation ∈ s.operations ∨ claim_ids.length < chosen.length then s
  else s.begin operation (.claiming (rows.map Prod.fst) (List.zipWith claim chosen claim_ids))

/-- `cancel_timers_for_chat` up to its commit. -/
def cancel_timers_for_chat (s : State) (operation : Nat) (parent_chat_id event user_id : Str) : State :=
  let rows := s.rows.items.filter fun p =>
    p.2.user_id = user_id && p.2.data.parent_chat_id = parent_chat_id && p.2.data.status = .pending &&
      event ∈ p.2.data.cancel_on
  if operation ∈ s.operations then s
  else s.begin operation (.cancelling (rows.map fun p => ⟨p.1, p.2.data, { p.2.data with status := .cancelled }⟩))

/-- `execute_due_timer` up to where the timer is found to be claimed. -/
def execute_due_timer (s : State) (operation server : Nat) (timer : Str) (claim_id : Option Str) : State :=
  if operation ∈ s.operations ∨ timerLocked s server timer then s
  else
    match s.rows.get? timer with
    | none => s
    | some row =>
      if row.data.status ≠ .running then s
      else if claim_id.isSome && row.data.timer_claim_id ≠ claim_id then s
      else s.begin operation (.executing server timer row.data)

/-- `_set_timer_state` up to its commit. -/
def _set_timer_state (s : State) (operation : Nat) : State :=
  match s.operations.get? operation with
  | some (.executing server timer read) =>
    match s.rows.get? timer with
    | some row => s.begin operation (.settling server ⟨timer, read, { row.data with status := .error }⟩ .failed)
    | none => s
  | _ => s

/-- `execute_due_timer` from the lock of the parent chat up to the commit. -/
def reach_parent (database : Database) (s : State) (operation : Nat) (busy : Bool) : State :=
  match s.operations.get? operation with
  | some (.executing server timer read) =>
    match s.rows.get? timer with
    | some row =>
      if parentLocked database s server read.parent_chat_id then s
      else if busy then
        let data := { row.data with status := .pending, timer_claim_id := none, timer_started_at := none }
        s.begin operation (.settling server ⟨timer, read, data⟩ .returned)
      else s.begin operation (.settling server ⟨timer, read, { row.data with status := .completed }⟩ .inserted)
    | none => s
  | _ => s

/-- The rows with what is committed. -/
def apply (rows : Dict Str Row) (writes : List Write) : Dict Str Row :=
  writes.foldl (fun rows w =>
    match rows.get? w.timer with
    | some row => rows.set w.timer { row with data := w.data }
    | none => rows) rows

def Phase.writes : Phase → List Write
  | .claiming _ writes => writes
  | .cancelling writes => writes
  | .settling _ write _ => [write]
  | _ => []

/-- A commit, which waits for the rows that another operation has locked. -/
def commit (database : Database) (s : State) (operation : Nat) : State :=
  match s.operations.get? operation with
  | none => s
  | some phase =>
    if phase.writes.any fun w => rowLocked database s operation w.timer then s
    else
      let rows := apply s.rows phase.writes
      match phase with
      | .claiming _ _ => { s with rows, operations := s.operations.erase operation }
      | .cancelling _ => { s with rows, operations := s.operations.erase operation }
      | .settling server write outcome =>
        if outcome = .inserted then
          { rows, inserted := write.timer :: s.inserted,
            operations := s.operations.set operation (.answering server write.timer) }
        else { s with rows, operations := s.operations.erase operation }
      | _ => s

/-- The answer is made, and the lock of the timer is given back. -/
def finish (s : State) (operation : Nat) : State :=
  match s.operations.get? operation with
  | some (.answering _ _) => { s with operations := s.operations.erase operation }
  | _ => s

/-! ## Runs -/

inductive Action where
  | create (timer user_id parent_chat_id : Str) (timer_at : Int) (cancel_on : List Str)
  | claim (operation : Nat) (now_ns : Int) (limit : Nat) (claim_ids : List Str)
  | cancel (operation : Nat) (parent_chat_id event user_id : Str)
  | execute (operation server : Nat) (timer : Str) (claim_id : Option Str)
  | fail (operation : Nat)
  | reach (operation : Nat) (busy : Bool)
  | commit (operation : Nat)
  | finish (operation : Nat)

def step (database : Database) (s : State) : Action → State
  | .create timer user_id parent_chat_id timer_at cancel_on =>
    create_timer s timer user_id parent_chat_id timer_at cancel_on
  | .claim operation now_ns limit claim_ids => claim_due_timers database s operation now_ns limit claim_ids
  | .cancel operation parent_chat_id event user_id => cancel_timers_for_chat s operation parent_chat_id event user_id
  | .execute operation server timer claim_id => execute_due_timer s operation server timer claim_id
  | .fail operation => _set_timer_state s operation
  | .reach operation busy => reach_parent database s operation busy
  | .commit operation => commit database s operation
  | .finish operation => finish s operation

def initial : State := ⟨Dict.empty, [], Dict.empty⟩

end Timers
end MaterialOpenWebui
