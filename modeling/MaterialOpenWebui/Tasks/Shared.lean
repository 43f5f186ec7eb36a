import MaterialOpenWebui.Lib.Dict
import MaterialOpenWebui.Lib.Run
import MaterialOpenWebui.Py.Text

/-!
# `Tasks.Shared` — the tasks of all processes, in Redis (`backend/open_webui/tasks.py`)

A hash has the item of every task, and a set for each item has its tasks. A task is started before it is saved, and its
callback cleans it up when it is done; the commands of the save, of the clean-ups and of the calls of `stop_task` come to
Redis in any order. An entry of a task stays as long as a clean-up of it is still to come (`Live`). A save that comes after
the last clean-up leaves an entry for ever (`saved_after_cleanup`).

A pipeline is a transaction. The dictionaries of the process, which `cleanup_task` and `create_task` change too, are those of
`Tasks.Local`; with Redis nothing that is asked here reads them. The command that `stop_task` publishes makes the process of
the task cancel it, and a task may end at any time, cancelled or not.
-/

namespace MaterialOpenWebui
namespace SharedTasks
open Py

/-! ## Redis -/

structure Redis where
  /-- `REDIS_TASKS_KEY` -/
  tasks : Dict Str Str
  /-- `REDIS_ITEM_TASKS_KEY`, by item -/
  item_tasks : Dict Str (List Str)

/-- `SMEMBERS`, of a key that may not exist. -/
def members (item_tasks : Dict Str (List Str)) (item_id : Str) : List Str := (item_tasks.get? item_id).getD []

def sadd (item_tasks : Dict Str (List Str)) (item_id task_id : Str) : Dict Str (List Str) :=
  if task_id ∈ members item_tasks item_id then item_tasks
  else item_tasks.set item_id (members item_tasks item_id ++ [task_id])

def srem (item_tasks : Dict Str (List Str)) (item_id task_id : Str) : Dict Str (List Str) :=
  item_tasks.set item_id ((members item_tasks item_id).filter (· ≠ task_id))

/-- `item_id or None`. -/
def orNone (item_id : Option Str) : Option Str := item_id.filter (· ≠ [])

/-- The transaction of `redis_save_task`. -/
def redis_save_task (r : Redis) (task_id : Str) (item_id : Option Str) : Redis where
  tasks := r.tasks.set task_id ((orNone item_id).getD [])
  item_tasks :=
    match orNone item_id with
    | some item => sadd r.item_tasks item task_id
    | none => r.item_tasks

/-- The transaction of `redis_cleanup_task`. -/
def redis_cleanup_task (r : Redis) (task_id : Str) (item_id : Option Str) : Redis where
  tasks := r.tasks.erase task_id
  item_tasks :=
    match orNone item_id with
    | some item => srem r.item_tasks item task_id
    | none => r.item_tasks

def has_active_tasks (r : Redis) (chat_id : Str) : Bool := 0 < (members r.item_tasks chat_id).length

/-! ## The commands -/

/-- The next command of a function that is waiting for Redis. -/
inductive Op where
  /-- `redis_save_task` -/
  | save (task_id : Str) (item_id : Option Str)
  /-- `redis_cleanup_task` -/
  | cleanup (task_id : Str) (item_id : Option Str)
  | scard (task_id item_id : Str)
  | delete (task_id item_id : Str)
  /-- `stop_task` -/
  | hget (task_id : Str)
  | publish (task_id : Str) (item_id : Option Str)
  deriving DecidableEq

/-- The task that a function is about. -/
def Op.task_id : Op → Str
  | .save task_id _ | .cleanup task_id _ | .scard task_id _ | .delete task_id _ | .hget task_id |
    .publish task_id _ => task_id

/-- Redis executes a command, and the function goes on to its next one, if there is one. -/
def exec (r : Redis) : Op → Redis × Option Op
  | .save task_id item_id => (redis_save_task r task_id item_id, none)
  | .cleanup task_id item_id => (redis_cleanup_task r task_id item_id, (orNone item_id).map (.scard task_id))
  | .scard task_id item_id => (r, if (members r.item_tasks item_id).length = 0 then some (.delete task_id item_id) else none)
  | .delete _ item_id => ({ r with item_tasks := r.item_tasks.erase item_id }, none)
  | .hget task_id => (r, some (.publish task_id (r.tasks.get? task_id)))
  | .publish task_id item_id => (r, some (.cleanup task_id (orNone item_id)))

/-! ## The system -/

structure Task where
  item_id : Option Str
  done : Bool
  deriving DecidableEq

structure State where
  redis : Redis
  /-- the tasks of all processes -/
  tasks : Dict Str Task
  /-- the functions that are waiting for Redis, numbered -/
  ops : Dict Nat Op

inductive Action where
  /-- `create_task`: the task is started, and then saved -/
  | create (n : Nat) (task_id : Str) (item_id : Option Str)
  /-- a task ends, and its callback cleans it up -/
  | finish (n : Nat) (task_id : Str)
  /-- a task cleans itself up -/
  | deregister (n : Nat) (task_id : Str)
  | stop_task (n : Nat) (task_id : Str)
  /-- the next command of a function -/
  | go (n : Nat)

def setOp (s : State) (n : Nat) (op : Option Op) : State := { s with ops := s.ops.put n op }

/-- Task ids are drawn by `uuid4`, and functions are numbered: an action with an old one is none. -/
def step (s : State) : Action → State
  | .create n task_id item_id =>
    if task_id ∈ s.tasks ∨ n ∈ s.ops then s
    else setOp { s with tasks := s.tasks.set task_id ⟨item_id, false⟩ } n (some (.save task_id item_id))
  | .finish n task_id =>
    match s.tasks.get? task_id with
    | some task =>
      if task.done = true ∨ n ∈ s.ops then s
      else setOp { s with tasks := s.tasks.set task_id { task with done := true } } n (some (.cleanup task_id task.item_id))
    | none => s
  | .deregister n task_id =>
    match s.tasks.get? task_id with
    | some task => if n ∈ s.ops then s else setOp s n (some (.cleanup task_id task.item_id))
    | none => s
  | .stop_task n task_id => if n ∈ s.ops then s else setOp s n (some (.hget task_id))
  | .go n =>
    match s.ops.get? n with
    | some op => setOp { s with redis := (exec s.redis op).1 } n (exec s.redis op).2
    | none => s

/-! ## The sets -/

theorem mem_members_sadd {item_tasks : Dict Str (List Str)} {item item' t t' : Str} :
    t' ∈ members (sadd item_tasks item t) item' ↔ t' ∈ members item_tasks item' ∨ item' = item ∧ t' = t := by
  rw [sadd]
  split
  · rename_i hin
    exact ⟨Or.inl, fun h => h.elim id fun h => h.1 ▸ h.2 ▸ hin⟩
  · rw [members, Dict.get?_set]
    by_cases hitem : item' = item
    · subst hitem
      rw [if_pos rfl, Option.getD_some, List.mem_append, List.mem_singleton]
      simp
    · rw [if_neg hitem]
      simp [hitem, members]

theorem mem_members_srem {item_tasks : Dict Str (List Str)} {item item' t t' : Str} :
    t' ∈ members (srem item_tasks item t) item' ↔ t' ∈ members item_tasks item' ∧ ¬(item' = item ∧ t' = t) := by
  rw [srem, members, Dict.get?_set]
  by_cases hitem : item' = item
  · subst hitem
    rw [if_pos rfl, Option.getD_some, List.mem_filter]
    simp
  · rw [if_neg hitem]
    simp [hitem, members]

theorem mem_members_erase {item_tasks : Dict Str (List Str)} {item item' t : Str}
    (h : t ∈ members (item_tasks.erase item) item') : t ∈ members item_tasks item' := by
  rw [members, Dict.get?_erase] at h
  split at h
  · cases h
  · exact h

/-! ## The invariant -/

/-- A task is running, or a clean-up of all its entries is still to come. -/
def Live (s : State) (task_id : Str) : Prop :=
  ∃ task, s.tasks.get? task_id = some task ∧
    (task.done = false ∨ ∃ n, s.ops.get? n = some (.cleanup task_id task.item_id))

structure Inv (s : State) : Prop where
  /-- every entry is of a task that is live -/
  hash : ∀ t ∈ s.redis.tasks, Live s t
  sets : ∀ item t, t ∈ members s.redis.item_tasks item →
    Live s t ∧ item ≠ [] ∧ ∃ task, s.tasks.get? t = some task ∧ task.item_id = some item
  saves : ∀ n t item_id, s.ops.get? n = some (.save t item_id) →
    ∃ task, s.tasks.get? t = some task ∧ task.item_id = item_id

/-- What the theorem asks: a save comes to Redis while its task is live. -/
def Timely (s : State) : Action → Prop
  | .go n => ∀ t item_id, s.ops.get? n = some (.save t item_id) → Live s t
  | _ => True

theorem get?_setOp (s : State) (n : Nat) (op : Option Op) (m : Nat) :
    (setOp s n op).ops.get? m = if m = n then op else s.ops.get? m := Dict.get?_put ..

/-- A task stays live if the function that goes on is not the one that is to clean it up. -/
theorem Live.goes_on {s : State} {t : Str} (h : Live s t) (r : Redis) (n : Nat) (op : Option Op)
    (hother : ∀ task, s.tasks.get? t = some task → s.ops.get? n ≠ some (.cleanup t task.item_id)) :
    Live (setOp { s with redis := r } n op) t := by
  obtain ⟨task, hget, hlive⟩ := h
  refine ⟨task, hget, hlive.imp_right ?_⟩
  rintro ⟨m, hm⟩
  have hne : m ≠ n := fun heq => hother task hget (heq ▸ hm)
  exact ⟨m, by rw [get?_setOp, if_neg hne]; exact hm⟩

/-- A function that does not clean up goes on, and Redis has the entries that it had, and those of one live task. -/
theorem Inv.goes_on {s : State} (h : Inv s) {r : Redis} {n : Nat} {op : Option Op}
    (hother : ∀ t item, s.ops.get? n ≠ some (.cleanup t item)) (hhash : ∀ t ∈ r.tasks, t ∈ s.redis.tasks ∨ Live s t)
    (hsets : ∀ item t, t ∈ members r.item_tasks item → t ∈ members s.redis.item_tasks item ∨
      Live s t ∧ item ≠ [] ∧ ∃ task, s.tasks.get? t = some task ∧ task.item_id = some item)
    (hsave : ∀ t item_id, op = some (.save t item_id) → ∃ task, s.tasks.get? t = some task ∧ task.item_id = item_id) :
    Inv (setOp { s with redis := r } n op) := by
  have hlive : ∀ t, Live s t → Live (setOp { s with redis := r } n op) t := fun t ht =>
    ht.goes_on r n op fun task _ => hother t task.item_id
  refine ⟨fun t ht => ?_, fun item t ht => ?_, fun m t item_id hget => ?_⟩
  · exact hlive t ((hhash t ht).elim (h.hash t) id)
  · obtain ⟨hl, hitem⟩ := (hsets item t ht).elim (h.sets item t) id
    exact ⟨hlive t hl, hitem⟩
  · rw [get?_setOp] at hget
    split at hget
    · exact hsave t item_id hget
    · exact h.saves m t item_id hget

theorem orNone_eq_some {item_id : Option Str} {item : Str} :
    orNone item_id = some item ↔ item_id = some item ∧ item ≠ [] := by
  rw [orNone, Option.filter_eq_some_iff, decide_eq_true_eq]

/-- A clean-up takes the task out of Redis, but for the set of an item that it was not told. -/
theorem inv_cleanup {s : State} (h : Inv s) {n : Nat} {t : Str} {item_id : Option Str}
    (hget : s.ops.get? n = some (.cleanup t item_id)) (op : Option Op) (hop : ∀ t' item, op ≠ some (.save t' item)) :
    Inv (setOp { s with redis := redis_cleanup_task s.redis t item_id } n op) := by
  have hne : ∀ t', t' ≠ t → Live s t' → Live (setOp { s with redis := redis_cleanup_task s.redis t item_id } n op) t' := by
    intro t' hne hlive
    refine hlive.goes_on _ n op fun task _ heq => hne ?_
    rw [hget] at heq
    cases heq
    rfl
  have hsub : ∀ item t', t' ∈ members (redis_cleanup_task s.redis t item_id).item_tasks item →
      t' ∈ members s.redis.item_tasks item ∧ ¬(item_id = some item ∧ item ≠ [] ∧ t' = t) := by
    intro item t' ht
    rw [redis_cleanup_task] at ht
    cases hitem : orNone item_id with
    | none =>
      rw [hitem] at ht
      refine ⟨ht, fun hcases => ?_⟩
      rw [orNone_eq_some.mpr ⟨hcases.1, hcases.2.1⟩] at hitem
      cases hitem
    | some item' =>
      rw [hitem] at ht
      obtain ⟨hmem, hnot⟩ := mem_members_srem.mp ht
      refine ⟨hmem, fun hcases => hnot ⟨?_, hcases.2.2⟩⟩
      rw [orNone_eq_some.mpr ⟨hcases.1, hcases.2.1⟩] at hitem
      exact Option.some.inj hitem
  refine ⟨fun t' ht => ?_, fun item t' ht => ?_, fun m t' item_id' hget' => ?_⟩
  · obtain ⟨hne', hmem⟩ := Dict.mem_erase.mp (show t' ∈ s.redis.tasks.erase t from ht)
    exact hne t' hne' (h.hash t' hmem)
  · obtain ⟨hmem, hnot⟩ := hsub item t' ht
    obtain ⟨hlive, hitem, task, htask, heq⟩ := h.sets item t' hmem
    refine ⟨?_, hitem, task, htask, heq⟩
    -- the clean-up that is done now was not told the item, or the task would be out of the set
    refine hlive.goes_on _ n op fun task' htask' hsame => hnot ?_
    rw [htask] at htask'
    cases htask'
    rw [hget] at hsame
    cases hsame
    exact ⟨heq, hitem, rfl⟩
  · rw [get?_setOp] at hget'
    split at hget'
    · exact absurd hget' (hop t' item_id')
    · exact h.saves m t' item_id' hget'

theorem inv_go {s : State} (h : Inv s) (n : Nat) (hok : Timely s (.go n)) : Inv (step s (.go n)) := by
  rw [step]
  cases hget : s.ops.get? n with
  | none => exact h
  | some op =>
    cases op with
    | save t item_id =>
      have hlive := hok t item_id hget
      obtain ⟨task, htask, hitem⟩ := h.saves n t item_id hget
      refine h.goes_on (by rw [hget]; nofun) (fun t' ht => ?_) (fun item t' ht => ?_) nofun
      · rcases Dict.mem_set.mp (show t' ∈ s.redis.tasks.set t _ from ht) with rfl | hmem
        · exact Or.inr hlive
        · exact Or.inl hmem
      · have ht : t' ∈ members (redis_save_task s.redis t item_id).item_tasks item := ht
        rw [redis_save_task] at ht
        cases hor : orNone item_id with
        | none =>
          rw [hor] at ht
          exact Or.inl ht
        | some item' =>
          rw [hor] at ht
          obtain ⟨hsome, hne⟩ := orNone_eq_some.mp hor
          rcases mem_members_sadd.mp ht with hmem | ⟨rfl, rfl⟩
          · exact Or.inl hmem
          · exact Or.inr ⟨hlive, hne, task, htask, hitem.trans hsome⟩
    | cleanup t item_id =>
      refine inv_cleanup h hget _ fun t' item heq => ?_
      obtain ⟨_, _, heq⟩ := Option.map_eq_some_iff.mp heq
      cases heq
    | scard t item_id =>
      refine h.goes_on (by rw [hget]; nofun) (fun _ => Or.inl) (fun _ _ => Or.inl) fun t' item heq => ?_
      simp only [exec] at heq
      split at heq <;> cases heq
    | delete t item_id =>
      exact h.goes_on (by rw [hget]; nofun) (fun _ => Or.inl) (fun _ _ ht => Or.inl (mem_members_erase ht)) nofun
    | hget t => exact h.goes_on (by rw [hget]; nofun) (fun _ => Or.inl) (fun _ _ => Or.inl) nofun
    | publish t item_id => exact h.goes_on (by rw [hget]; nofun) (fun _ => Or.inl) (fun _ _ => Or.inl) nofun

/-- A step that sends no command to Redis. -/
theorem Inv.later {s s' : State} (h : Inv s) (hredis : s'.redis = s.redis) (hlive : ∀ t, Live s t → Live s' t)
    (hitem : ∀ t task, s.tasks.get? t = some task → ∃ task', s'.tasks.get? t = some task' ∧ task'.item_id = task.item_id)
    (hsaves : ∀ n t item_id, s'.ops.get? n = some (.save t item_id) → s.ops.get? n = some (.save t item_id) ∨
      ∃ task, s'.tasks.get? t = some task ∧ task.item_id = item_id) : Inv s' := by
  refine ⟨fun t ht => ?_, fun item t ht => ?_, fun n t item_id hget => ?_⟩
  · rw [hredis] at ht
    exact hlive t (h.hash t ht)
  · rw [hredis] at ht
    obtain ⟨hl, hne, task, hget, heq⟩ := h.sets item t ht
    obtain ⟨task', hget', hsame⟩ := hitem t task hget
    exact ⟨hlive t hl, hne, task', hget', hsame.trans heq⟩
  · rcases hsaves n t item_id hget with hold | hnew
    · obtain ⟨task, htask, heq⟩ := h.saves n t item_id hold
      obtain ⟨task', hget', hsame⟩ := hitem t task htask
      exact ⟨task', hget', hsame.trans heq⟩
    · exact hnew

theorem Live.new {s : State} {t : Str} (h : Live s t) {n : Nat} (hnew : n ∉ s.ops) (op : Op) :
    Live (setOp s n (some op)) t := by
  refine h.goes_on s.redis n (some op) fun task _ => ?_
  rw [Dict.get?_eq_none_iff.mpr hnew]
  nofun

theorem saves_new {s : State} {n : Nat} {op : Op} (hop : ∀ t item, op ≠ .save t item) {m : Nat} {t : Str}
    {item_id : Option Str} (hget : (setOp s n (some op)).ops.get? m = some (.save t item_id)) :
    s.ops.get? m = some (.save t item_id) := by
  rw [get?_setOp] at hget
  split at hget
  · exact absurd (Option.some.inj hget) (hop t item_id)
  · exact hget

theorem inv_create {s : State} (h : Inv s) {n : Nat} {t : Str} (item_id : Option Str) (ht : t ∉ s.tasks) (hn : n ∉ s.ops) :
    Inv (setOp { s with tasks := s.tasks.set t ⟨item_id, false⟩ } n (some (.save t item_id))) := by
  have hother : ∀ {t' task}, s.tasks.get? t' = some task → (s.tasks.set t ⟨item_id, false⟩).get? t' = some task := by
    intro t' task hget
    have hne : t' ≠ t := fun heq => ht (heq ▸ Dict.mem_of_get? hget)
    rw [Dict.get?_set_of_ne _ _ hne, hget]
  refine h.later rfl (fun t' hlive => ?_) (fun t' task hget => ⟨task, hother hget, rfl⟩) fun m t' item' hget => ?_
  · obtain ⟨task, hget, hlive⟩ := hlive
    have hstarted : Live { s with tasks := s.tasks.set t ⟨item_id, false⟩ } t' := ⟨task, hother hget, hlive⟩
    exact hstarted.new hn _
  · rw [get?_setOp] at hget
    split at hget
    · cases hget
      exact Or.inr ⟨_, Dict.get?_set_self .., rfl⟩
    · exact Or.inl hget

theorem inv_finish {s : State} (h : Inv s) {n : Nat} {t : Str} {task : Task}
    (ht : s.tasks.get? t = some task) (hn : n ∉ s.ops) :
    Inv (setOp { s with tasks := s.tasks.set t { task with done := true } } n (some (.cleanup t task.item_id))) := by
  refine h.later rfl (fun t' hlive => ?_) (fun t' task' hget => ?_) fun m t' item' hget => Or.inl ?_
  · by_cases heq : t' = t
    · -- its own clean-up is now to come
      subst heq
      exact ⟨_, Dict.get?_set_self .., Or.inr ⟨n, by rw [get?_setOp, if_pos rfl]⟩⟩
    · obtain ⟨task', hget, hlive⟩ := hlive
      have hended : Live { s with tasks := s.tasks.set t { task with done := true } } t' :=
        ⟨task', (Dict.get?_set_of_ne _ _ heq).trans hget, hlive⟩
      exact hended.new hn _
  · show ∃ task'', (s.tasks.set t _).get? t' = some task'' ∧ _
    by_cases heq : t' = t
    · subst heq
      rw [ht] at hget
      cases hget
      exact ⟨_, Dict.get?_set_self .., rfl⟩
    · exact ⟨task', (Dict.get?_set_of_ne _ _ heq).trans hget, rfl⟩
  · exact saves_new (fun _ _ heq => by cases heq) hget

theorem inv_new {s : State} (h : Inv s) {n : Nat} (hn : n ∉ s.ops) {op : Op} (hop : ∀ t item, op ≠ .save t item) :
    Inv (setOp s n (some op)) :=
  h.later rfl (fun _ hlive => hlive.new hn op) (fun _ task hget => ⟨task, hget, rfl⟩) fun _ _ _
    hget => Or.inl (saves_new hop hget)

/-- **One step.** -/
theorem inv_step (s : State) (a : Action) (h : Inv s) (hok : Timely s a) : Inv (step s a) := by
  cases a with
  | create n t item_id =>
    rw [step]
    split
    · exact h
    · rename_i hnew
      obtain ⟨ht, hn⟩ := not_or.mp hnew
      exact inv_create h item_id ht hn
  | finish n t =>
    rw [step]
    split
    · rename_i task ht
      split
      · exact h
      · rename_i hnew
        exact inv_finish h ht (not_or.mp hnew).2
    · exact h
  | deregister n t =>
    rw [step]
    split
    · split
      · exact h
      · rename_i hn
        exact inv_new h hn nofun
    · exact h
  | stop_task n t =>
    rw [step]
    split
    · exact h
    · rename_i hn
      exact inv_new h hn nofun
  | go n => exact inv_go h n hok

/-! ## Runs -/

/-- A task has ended, and no function that is about it waits for Redis. -/
def Settled (s : State) (t : Str) : Prop :=
  (∃ task, s.tasks.get? t = some task ∧ task.done = true) ∧ ∀ n op, s.ops.get? n = some op → op.task_id ≠ t

/-- A task that is settled is not live. -/
theorem not_live_of_settled {s : State} {t : Str} (h : Settled s t) : ¬Live s t := by
  rintro ⟨task, hget, hrunning | ⟨n, hop⟩⟩
  · obtain ⟨task', hget', hdone⟩ := h.1
    rw [hget] at hget'
    cases hget'
    rw [hrunning] at hdone
    cases hdone
  · exact h.2 n _ hop rfl

def start : State := ⟨⟨Dict.empty, Dict.empty⟩, Dict.empty, Dict.empty⟩

theorem inv_start : Inv start :=
  ⟨fun _ ht => absurd ht List.not_mem_nil, fun _ _ ht => absurd ht List.not_mem_nil, fun _ _ _ hget => nomatch hget⟩

/-- **The registry forgets finished tasks**, in every run whose saves are timely: what is settled is in neither the hash nor
any set, and an item all of whose tasks are settled has no active ones. -/
theorem forgets_finished (as : List Action) (hok : Run.AllSteps Timely step start as) :
    (∀ t, Settled (Run.run step start as) t → t ∉ (Run.run step start as).redis.tasks ∧
      ∀ item, t ∉ members (Run.run step start as).redis.item_tasks item) ∧
    ∀ item, (∀ t task, (Run.run step start as).tasks.get? t = some task → task.item_id = some item →
        Settled (Run.run step start as) t) →
      has_active_tasks (Run.run step start as).redis item = false := by
  have hinv := Run.invariant inv_step inv_start hok
  refine ⟨fun t ht => ⟨fun hmem => not_live_of_settled ht (hinv.hash t hmem), fun item hmem => ?_⟩, fun item hall => ?_⟩
  · exact not_live_of_settled ht (hinv.sets item t hmem).1
  · have hempty : members (Run.run step start as).redis.item_tasks item = [] := by
      refine List.eq_nil_iff_forall_not_mem.mpr fun t hmem => ?_
      obtain ⟨hlive, -, task, hget, hitem⟩ := hinv.sets item t hmem
      exact not_live_of_settled (hall t task hget hitem) hlive
    rw [has_active_tasks, hempty]
    rfl

/-- A task that is saved before it ends. -/
def savedFirst : List Action :=
  [.create 0 (py "1") (some (py "chat")), .go 0, .finish 1 (py "1"), .go 1, .go 1, .go 1]

theorem timely_savedFirst : Run.AllSteps Timely step start savedFirst := by
  refine ⟨trivial, fun t item_id hget => ?_, trivial, fun t item_id hget => ?_, fun t item_id hget => ?_,
    fun t item_id hget => ?_, trivial⟩
  · cases hget
    exact ⟨⟨some (py "chat"), false⟩, by decide, Or.inl rfl⟩
  · cases hget
  · cases hget
  · cases hget

theorem forgets_finished_saved : has_active_tasks (Run.run step start savedFirst).redis (py "chat") = false := by
  refine (forgets_finished savedFirst timely_savedFirst).2 (py "chat") fun t task hget _ => ?_
  have htask := List.mem_singleton.mp (Dict.get?_eq_some_iff.mp hget)
  cases htask
  exact ⟨⟨_, hget, rfl⟩, fun n op hop => by cases hop⟩

/-- A task ends, and is cleaned up, before it is saved. -/
def savedLast : List Action :=
  [.create 0 (py "1") (some (py "chat")), .finish 1 (py "1"), .go 1, .go 1, .go 1, .go 0]

theorem saved_after_cleanup :
    ¬∀ (as : List Action) (t : Str), Settled (Run.run step start as) t →
      t ∉ (Run.run step start as).redis.tasks := by
  intro h
  refine h savedLast (py "1") ⟨⟨⟨some (py "chat"), true⟩, by decide, rfl⟩, fun n op hget => ?_⟩ (by decide)
  cases hget

end SharedTasks
end MaterialOpenWebui
