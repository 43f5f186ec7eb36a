import MaterialOpenWebui.Tasks.Local

/-!
# `Tasks.Stopping` — what `stop_item_tasks` has asked to stop when it returns

Every task that the item had when the call was made has been asked, or is done, or is in the rest of the list. A step keeps
this if it takes nothing from the rest of a list that a call still has to go through: neither an unasked task itself, nor
the next one with a task before it (`Lib.Cursor`), nor everything after a task that has gone from the registry.
-/

namespace MaterialOpenWebui
namespace Tasks
open Py

/-! ## Asked -/

/-- A task is done. -/
def Done (s : State) (task_id : Str) : Prop := ∃ task, s.objects.get? task_id = some task ∧ task.outcome.isSome = true

/-- A task has been asked to cancel, or is done. -/
def Asked (s : State) (task_id : Str) : Prop :=
  ∃ task, s.objects.get? task_id = some task ∧ (task.cancel_requested = true ∨ task.outcome.isSome = true)

theorem Asked.mem {s : State} {task_id : Str} (h : Asked s task_id) : task_id ∈ s.objects :=
  let ⟨_, hget, _⟩ := h
  Dict.mem_of_get? hget

theorem Done.asked {s : State} {task_id : Str} (h : Done s task_id) : Asked s task_id :=
  let ⟨task, hget, hdone⟩ := h
  ⟨task, hget, Or.inr hdone⟩

/-- A state whose tasks are those of another, and no task of it is less asked. -/
structure Later (s s' : State) : Prop where
  asked : ∀ t, Asked s t → Asked s' t
  mem : ∀ t, t ∈ s.objects → t ∈ s'.objects

theorem Later.refl (s : State) : Later s s := ⟨fun _ h => h, fun _ h => h⟩

theorem Later.trans {s s' s'' : State} (h : Later s s') (h' : Later s' s'') : Later s s'' :=
  ⟨fun t ht => h'.asked t (h.asked t ht), fun t ht => h'.mem t (h.mem t ht)⟩

/-- Only the tasks themselves count. -/
theorem Later.of_objects {s s' : State} (h : s'.objects = s.objects) : Later s s' := by
  refine ⟨fun t ht => ?_, fun t ht => ?_⟩
  · rw [Asked, h]
    exact ht
  · rw [h]
    exact ht

/-- A task is set to one that is asked. -/
theorem Later.of_set {s s' : State} {task_id : Str} {task : Task} (h : s'.objects = s.objects.set task_id task)
    (hasked : task.cancel_requested = true ∨ task.outcome.isSome = true) : Later s s' := by
  refine ⟨fun t ht => ?_, fun t ht => ?_⟩
  · obtain ⟨task', hget, hasked'⟩ := ht
    rw [Asked, h]
    simp only [Dict.get?_set]
    split
    · exact ⟨task, rfl, hasked⟩
    · exact ⟨task', hget, hasked'⟩
  · rw [h]
    exact Dict.mem_set.mpr (Or.inr ht)

/-! ## One task -/

/-- Only the tasks and the registered ids differ. -/
structure SameLists (s s' : State) : Prop where
  item_tasks : s'.item_tasks = s.item_tasks
  lists : s'.lists = s.lists
  calls : s'.calls = s.calls

theorem SameLists.trans {s s' s'' : State} (h : SameLists s s') (h' : SameLists s' s'') : SameLists s s'' :=
  ⟨h'.item_tasks.trans h.item_tasks, h'.lists.trans h.lists, h'.calls.trans h.calls⟩

theorem sameLists_cancel (s : State) (task_id : Str) : SameLists s (cancel s task_id) := by
  rw [cancel]
  split
  · split <;> exact ⟨rfl, rfl, rfl⟩
  · exact ⟨rfl, rfl, rfl⟩

theorem later_cancel (s : State) (task_id : Str) : Later s (cancel s task_id) := by
  rw [cancel]
  split
  · split
    · exact .refl s
    · exact .of_set rfl (Or.inl rfl)
  · exact .refl s

theorem asked_cancel {s : State} {task_id : Str} (h : task_id ∈ s.objects) : Asked (cancel s task_id) task_id := by
  obtain ⟨task, hget⟩ := Dict.mem_iff.mp h
  rw [cancel, hget]
  by_cases hdone : task.outcome.isSome = true
  · simp only [hdone, if_true]
    exact ⟨task, hget, Or.inr hdone⟩
  · simp only [hdone]
    exact ⟨_, Dict.get?_set_self .., Or.inl rfl⟩

/-- Cancelling ends no task. -/
theorem done_cancel {s : State} {task_id t : Str} : Done (cancel s task_id) t ↔ Done s t := by
  rw [cancel]
  split
  · rename_i task hget
    split
    · exact Iff.rfl
    · rename_i hrunning
      simp only [Done, Dict.get?_set]
      split
      · rename_i heq
        subst heq
        simp [hget, hrunning]
      · exact Iff.rfl
  · exact Iff.rfl

theorem tasks_cancel (s : State) (task_id : Str) : (cancel s task_id).tasks = s.tasks := by
  rw [cancel]
  split
  · split <;> rfl
  · rfl

theorem sameLists_stop_task (s : State) (task_id : Str) : SameLists s (stop_task s task_id).1 := by
  rw [stop_task]
  split
  · exact (⟨rfl, rfl, rfl⟩ : SameLists s { s with tasks := s.tasks.filter (· ≠ task_id) }).trans (sameLists_cancel _ _)
  · exact ⟨rfl, rfl, rfl⟩

/-- What `stop_task` does with a task that is registered. -/
structure Stopped (s : State) (task_id : Str) (s' : State) : Prop where
  later : Later s s'
  asked : Asked s' task_id
  done_iff : ∀ t, Done s' t ↔ Done s t
  tasks : s'.tasks = s.tasks.filter (· ≠ task_id)

theorem stop_task_registered {s : State} {task_id : Str} (hin : task_id ∈ s.tasks) (hmem : task_id ∈ s.objects) :
    Stopped s task_id (stop_task s task_id).1 ∧
      ((stop_task s task_id).2 = .awaiting task_id ∨ (stop_task s task_id).2 = .raised ∨
        Done s task_id ∧ ∃ message, (stop_task s task_id).2 = .returned ⟨true, message⟩) := by
  have hstopped : Stopped s task_id (cancel { s with tasks := s.tasks.filter (· ≠ task_id) } task_id) :=
    { later := (Later.of_objects rfl : Later s { s with tasks := s.tasks.filter (· ≠ task_id) }).trans (later_cancel _ _)
      asked := asked_cancel hmem
      done_iff := fun _ => done_cancel
      tasks := tasks_cancel _ _ }
  rw [stop_task, if_pos hin]
  refine ⟨hstopped, ?_⟩
  show await_task _ task_id = _ ∨ await_task _ task_id = _ ∨ _ ∧ ∃ message, await_task _ task_id = _
  rw [await_task]
  split
  · rename_i outcome houtcome
    have hdone : Done s task_id := by
      obtain ⟨task, hget, htask⟩ := Option.bind_eq_some_iff.mp houtcome
      exact (hstopped.done_iff task_id).mp ⟨task, hget, by rw [htask]; rfl⟩
    cases outcome with
    | returned => exact Or.inr (Or.inr ⟨hdone, _, rfl⟩)
    | cancelled => exact Or.inr (Or.inr ⟨hdone, _, rfl⟩)
    | raised => exact Or.inr (Or.inl rfl)
  · exact Or.inl rfl

theorem stop_task_missing {s : State} {task_id : Str} (h : task_id ∉ s.tasks) :
    stop_task s task_id = (s, .returned ⟨false, py "Task with ID " ++ task_id ++ py " not found."⟩) := by
  rw [stop_task, if_neg h]

/-! ## The loop -/

/-- The loop does not come to a task that has gone before all from there on have been asked. It goes on to the next task
at once if one is done. -/
def LoopOk (s : State) : List Str → Prop
  | [] => True
  | t :: rest => (t ∈ s.tasks → Done s t → LoopOk s rest) ∧ (t ∉ s.tasks → ∀ u ∈ t :: rest, Asked s u)

theorem LoopOk.stopped {s s' : State} {task_id : Str} (h : Stopped s task_id s') {rest : List Str}
    (hnot : task_id ∉ rest) (hok : LoopOk s rest) : LoopOk s' rest := by
  induction rest with
  | nil => trivial
  | cons t rest ih =>
    obtain ⟨hne, hrest⟩ := not_or.mp (fun hmem => hnot (List.mem_cons.mpr hmem))
    have hin : t ∈ s'.tasks ↔ t ∈ s.tasks := by
      rw [h.tasks, List.mem_filter]
      simp [Ne.symm hne]
    refine ⟨fun ht hdone => ih hrest (hok.1 (hin.mp ht) ((h.done_iff t).mp hdone)), fun ht u hu => ?_⟩
    exact h.later.asked u (hok.2 (fun hmem => ht (hin.mpr hmem)) u hu)

/-- What is scheduled does not count. -/
theorem LoopOk.of_ready {s : State} {ready : List Handle} {rest : List Str} (h : LoopOk s rest) :
    LoopOk { s with ready := ready } rest := by
  induction rest with
  | nil => trivial
  | cons t rest ih => exact ⟨fun ht hdone => ih (h.1 ht hdone), h.2⟩

theorem sameLists_stop_loop (item_id : Str) (s : State) (index : Nat) (rest : List Str) :
    SameLists s (stop_loop item_id s index rest).1 := by
  induction rest generalizing s index with
  | nil => exact ⟨rfl, rfl, rfl⟩
  | cons t rest ih =>
    have hstop := sameLists_stop_task s t
    rw [stop_loop]
    cases hresult : stop_task s t with
    | mk s' progress =>
      rw [hresult] at hstop
      cases progress with
      | returned reply =>
        simp only
        split
        · exact hstop.trans (ih s' (index + 1))
        · exact hstop
      | awaiting w => exact hstop
      | raised => exact hstop

/-- What the loop leaves: every task is asked, or it waits and the task is in the rest. -/
structure Looped (s : State) (index : Nat) (rest : List Str) (result : State × Progress × Nat) : Prop where
  later : Later s result.1
  left : result.2.1 ≠ .raised → ∃ k, result.2.2 = index + k ∧ ∀ t ∈ rest,
    Asked result.1 t ∨ (∃ w, result.2.1 = .awaiting w) ∧ t ∈ rest.drop k

theorem stop_loop_spec (item_id : Str) {s : State} (index : Nat) {rest : List Str} (hnodup : rest.Nodup)
    (hmem : ∀ t ∈ rest, t ∈ s.objects) (hok : LoopOk s rest) :
    Looped s index rest (stop_loop item_id s index rest) := by
  induction rest generalizing s index with
  | nil => exact ⟨.refl s, fun _ => ⟨0, rfl, nofun⟩⟩
  | cons t rest ih =>
    obtain ⟨hnot, hnodup⟩ := List.nodup_cons.mp hnodup
    by_cases hin : t ∈ s.tasks
    · obtain ⟨hstopped, hcases⟩ := stop_task_registered hin (hmem t List.mem_cons_self)
      rw [stop_loop]
      cases hstop : stop_task s t with
      | mk s' progress =>
        rw [hstop] at hstopped hcases
        rcases hcases with hwait | hraised | ⟨hdone, message, hreturned⟩
        · cases hwait
          -- the loop waits for this task, and has the rest before it
          refine ⟨hstopped.later, fun _ => ⟨1, rfl, fun u hu => ?_⟩⟩
          rcases List.mem_cons.mp hu with rfl | hu
          · exact Or.inl hstopped.asked
          · exact Or.inr ⟨⟨t, rfl⟩, hu⟩
        · cases hraised
          exact ⟨hstopped.later, fun hne => absurd rfl hne⟩
        · cases hreturned
          have hrest := ih (index + 1) hnodup (fun u hu => hstopped.later.mem u (hmem u (List.mem_cons_of_mem _ hu)))
            (LoopOk.stopped hstopped hnot (hok.1 hin hdone))
          refine ⟨hstopped.later.trans hrest.later, fun hne => ?_⟩
          obtain ⟨k, hindex, hleft⟩ := hrest.left hne
          refine ⟨k + 1, hindex.trans (by omega), fun u hu => ?_⟩
          rcases List.mem_cons.mp hu with rfl | hu
          · exact Or.inl (hrest.later.asked u hstopped.asked)
          · exact hleft u hu
    · rw [stop_loop, stop_task_missing hin]
      exact ⟨.refl s, fun _ => ⟨1, rfl, fun u hu => Or.inl (hok.2 hin u hu)⟩⟩

/-! ## The lists -/

theorem list_modify (s : State) {ref : Nat} (hin : s.list ref ≠ []) (f : List Str → List Str) (r : Nat) :
    State.list { s with lists := s.lists.modify ref f } r = if r = ref then f (s.list r) else s.list r := by
  rw [State.list, State.list, List.getElem?_modify]
  split
  · rename_i heq
    subst heq
    rw [if_pos rfl]
    cases hget : s.lists[ref]? with
    | none =>
      rw [State.list, hget] at hin
      exact absurd rfl hin
    | some l => rfl
  · rename_i hne
    rw [if_neg fun heq => hne heq.symm]
    cases s.lists[r]? <;> rfl

theorem list_append (s : State) (l : List Str) (r : Nat) :
    State.list { s with lists := s.lists ++ [l] } r = if r = s.lists.length then l else s.list r := by
  rw [State.list, State.list, List.getElem?_append]
  split
  · rename_i hlt
    rw [if_neg (Nat.ne_of_lt hlt)]
  · rename_i hge
    split
    · rename_i heq
      rw [heq, Nat.sub_self]
      rfl
    · rename_i hne
      have hnew : [l][r - s.lists.length]? = none :=
        List.getElem?_eq_none (by rw [List.length_singleton]; omega)
      have hold : s.lists[r]? = none := List.getElem?_eq_none (Nat.not_lt.mp hge)
      rw [hnew, hold]

/-- A new task goes to the end of its list. -/
theorem list_add_item_task (s : State) (id : Option Str) (task_id : Str) (r : Nat) :
    (add_item_task s id task_id).list r = s.list r ∨ (add_item_task s id task_id).list r = s.list r ++ [task_id] := by
  have hnew : ∀ items, State.list { s with item_tasks := items, lists := s.lists ++ [[task_id]] } r = s.list r ∨
      State.list { s with item_tasks := items, lists := s.lists ++ [[task_id]] } r = s.list r ++ [task_id] := by
    intro items
    have hlist := list_append s [task_id] r
    by_cases hr : r = s.lists.length
    · have hempty : s.list r = [] := by rw [State.list, hr, List.getElem?_eq_none (Nat.le_refl _)]; rfl
      rw [if_pos hr] at hlist
      right
      rw [hempty]
      exact hlist
    · rw [if_neg hr] at hlist
      exact Or.inl hlist
  rw [add_item_task]
  split
  · rename_i ref _
    split
    · rename_i hne
      rw [list_modify s hne]
      split
      · exact Or.inr rfl
      · exact Or.inl rfl
    · exact hnew _
  · exact hnew _

/-- A task that is removed is taken out of the list of its item. -/
theorem list_remove_item_task (s : State) (id : Option Str) (task_id : Str) (r : Nat) :
    (remove_item_task s id task_id).list r =
      if s.item_tasks.get? id = some r then (s.list r).erase task_id else s.list r := by
  rw [remove_item_task]
  cases hget : s.item_tasks.get? id with
  | none => rfl
  | some ref =>
    simp only
    by_cases hin : task_id ∈ s.list ref
    · rw [if_pos hin]
      have hlist := list_modify s (List.ne_nil_of_mem hin) (·.erase task_id) r
      simp only [Option.some_inj, eq_comm (a := ref)]
      exact hlist
    · rw [if_neg hin]
      split
      · rename_i heq
        cases heq
        exact (List.erase_of_not_mem hin).symm
      · rfl

/-- What changes of lists leave as it is. -/
theorem frame_add_item_task (s : State) (id : Option Str) (task_id : Str) :
    (add_item_task s id task_id).objects = s.objects ∧ (add_item_task s id task_id).calls = s.calls := by
  rw [add_item_task]
  split
  · split <;> exact ⟨rfl, rfl⟩
  · exact ⟨rfl, rfl⟩

theorem frame_remove_item_task (s : State) (id : Option Str) (task_id : Str) :
    (remove_item_task s id task_id).objects = s.objects ∧ (remove_item_task s id task_id).calls = s.calls := by
  rw [remove_item_task]
  split
  · split <;> exact ⟨rfl, rfl⟩
  · exact ⟨rfl, rfl⟩

/-! ## The condition -/

/-- A call is still going through a list. -/
def Going (s : State) (l : Loop) : Prop :=
  ∃ n c w, s.calls.get? n = some c ∧ c.loop = some l ∧ c.progress = .awaiting w

/-- A task that is taken out of a list takes nothing from the calls that are going through it: if they have taken it, they
would pass over the next one, which must have been asked, and if not, it must have been asked itself. -/
def RemovalOk (s : State) (task_id : Str) : Prop :=
  ∀ l, Going s l → named (itemOf s task_id) = true → s.item_tasks.get? (itemOf s task_id) = some l.ref →
    task_id ∈ s.list l.ref →
      (task_id ∈ (s.list l.ref).take l.index → ∀ u, (s.list l.ref)[l.index]? = some u → Asked s u) ∧
      (task_id ∉ (s.list l.ref).take l.index → Asked s task_id)

/-- A call that goes on does not come to a task that has gone, or all from there on have been asked. -/
def ResumeOk (s : State) (n : Nat) : Prop :=
  ∀ l w reply registered, s.calls.get? n = some ⟨some l, .awaiting w, registered⟩ → await_task s w = .returned reply →
    LoopOk s ((s.list l.ref).drop l.index)

/-- What the theorem asks of the state before a step. -/
def Undisturbed (s : State) : Action → Prop
  | .deregister task_id => RemovalOk s task_id
  | .stop_item_tasks n item_id => n ∉ s.calls → LoopOk s (item_list s (some item_id))
  | .tick =>
    match s.ready with
    | .cleanup task_id :: _ => RemovalOk s task_id
    | .wakeup n :: _ => ResumeOk s n
    | _ => True
  | _ => True

/-! ## The invariant -/

/-- The lists have the ids of tasks, each once. -/
structure Well (s : State) : Prop where
  known : ∀ ref t, t ∈ s.list ref → t ∈ s.objects
  nodup : ∀ ref, (s.list ref).Nodup

/-- Unless a call has been ended by an exception, its tasks are asked, or it waits and they are before it. -/
def CallKept (s : State) (c : Call) : Prop :=
  c.progress ≠ .raised → ∀ t ∈ c.registered, Asked s t ∨
    ∃ l w, c.loop = some l ∧ c.progress = .awaiting w ∧ t ∈ (s.list l.ref).drop l.index

structure Inv (s : State) : Prop extends Well s where
  calls : ∀ n c, s.calls.get? n = some c → CallKept s c

/-- A step that starts no call and wakes none up. -/
theorem Inv.of_same_calls {s s' : State} (h : Inv s) (hwell : Well s') (hcalls : s'.calls = s.calls) (hlater : Later s s')
    (hkept : ∀ l, Going s l → ∀ t ∈ (s.list l.ref).drop l.index, Asked s' t ∨ t ∈ (s'.list l.ref).drop l.index) :
    Inv s' := by
  refine ⟨hwell, fun n c hget hne t ht => ?_⟩
  rw [hcalls] at hget
  rcases h.calls n c hget hne t ht with hasked | ⟨l, w, hl, hw, hmem⟩
  · exact Or.inl (hlater.asked t hasked)
  · rcases hkept l ⟨n, c, w, hget, hl, hw⟩ t hmem with hasked | hmem
    · exact Or.inl hasked
    · exact Or.inr ⟨l, w, hl, hw, hmem⟩

/-- A step that changes no list. -/
theorem Inv.of_sameLists {s s' : State} (h : Inv s) (hsame : SameLists s s') (hlater : Later s s') : Inv s' := by
  have hlist : ∀ ref, s'.list ref = s.list ref := fun ref => by rw [State.list, State.list, hsame.lists]
  refine h.of_same_calls ⟨fun ref t ht => ?_, fun ref => ?_⟩ hsame.calls hlater fun l _ t ht => Or.inr ?_
  · rw [hlist] at ht
    exact hlater.mem t (h.known ref t ht)
  · rw [hlist]
    exact h.nodup ref
  · rw [hlist]
    exact ht

/-- A call is set to one that is kept. -/
theorem Inv.set_call {s : State} (h : Inv s) (n : Nat) {c : Call} (hc : CallKept s c) :
    Inv { s with calls := s.calls.set n c } := by
  refine ⟨⟨h.known, h.nodup⟩, fun n' c' hget => ?_⟩
  rw [Dict.get?_set] at hget
  split at hget
  · cases hget
    exact hc
  · exact h.calls n' c' hget

/-! ## Every step keeps it -/

theorem inv_go_on {s : State} (h : Inv s) (n : Nat) {l : Loop} {registered : List Str}
    (hleft : ∀ t ∈ registered, Asked s t ∨ t ∈ (s.list l.ref).drop l.index)
    (hok : LoopOk s ((s.list l.ref).drop l.index)) : Inv (go_on s n l registered) := by
  have hspec := stop_loop_spec l.item_id l.index ((h.nodup l.ref).sublist (List.drop_sublist ..))
    (fun t ht => h.known l.ref t (List.mem_of_mem_drop ht)) hok
  have hsame := sameLists_stop_loop l.item_id s l.index ((s.list l.ref).drop l.index)
  rw [go_on]
  cases hloop : stop_loop l.item_id s l.index ((s.list l.ref).drop l.index) with
  | mk s' rest =>
    obtain ⟨progress, index⟩ := rest
    rw [hloop] at hspec hsame
    have hlist : s'.list l.ref = s.list l.ref := by rw [State.list, State.list, hsame.lists]
    refine Inv.set_call (h.of_sameLists hsame hspec.later) n fun hne t ht => ?_
    rcases hleft t ht with hasked | hmem
    · exact Or.inl (hspec.later.asked t hasked)
    · obtain ⟨k, hindex, hrest⟩ := hspec.left hne
      rcases hrest t hmem with hasked | ⟨⟨w, hw⟩, hmem⟩
      · exact Or.inl hasked
      · refine Or.inr ⟨_, w, rfl, hw, ?_⟩
        show t ∈ (s'.list l.ref).drop index
        rw [hlist, show index = l.index + k from hindex, ← List.drop_drop]
        exact hmem

theorem inv_stop_item_tasks {s : State} (h : Inv s) (n : Nat) (item_id : Str)
    (hok : LoopOk s (item_list s (some item_id))) : Inv (stop_item_tasks s n item_id) := by
  have hnone : Inv { s with calls := s.calls.set n ⟨none, .returned (no_tasks item_id), []⟩ } :=
    h.set_call n fun _ _ ht => absurd ht List.not_mem_nil
  rw [stop_item_tasks]
  rw [item_list] at hok
  cases hget : s.item_tasks.get? (some item_id) with
  | none => exact hnone
  | some ref =>
    rw [hget] at hok
    by_cases hempty : s.list ref = []
    · simp only [hempty, if_true]
      exact hnone
    · simp only [hempty, if_false]
      exact inv_go_on h n (fun t ht => Or.inr ht) hok

theorem inv_resume {s : State} (h : Inv s) (n : Nat) (hok : ResumeOk s n) : Inv (resume s n) := by
  rw [resume]
  split
  · rename_i loop w registered hget
    have hkept := h.calls n _ hget
    split
    · rename_i reply l hawait
      refine inv_go_on h n (fun t ht => ?_) (hok l w reply registered hget hawait)
      rcases hkept (by intro heq; cases heq) t ht with hasked | ⟨l', w', hl, -, hmem⟩
      · exact Or.inl hasked
      · cases hl
        exact Or.inr hmem
    · rename_i progress loop' hnot
      refine h.set_call n fun hne t ht => ?_
      rcases hkept (by intro heq; cases heq) t ht with hasked | ⟨l', w', hl, -, hmem⟩
      · exact Or.inl hasked
      · cases hprogress : await_task s w with
        | awaiting w => exact Or.inr ⟨l', w, hl, rfl, hmem⟩
        | returned reply => exact (hnot reply l' hprogress hl).elim
        | raised => exact absurd hprogress hne
  · exact h

/-- What is taken out of the registry. -/
theorem inv_cleanup_task {s : State} (h : Inv s) (task_id : Str) (hok : RemovalOk s task_id) :
    Inv (cleanup_task s task_id (itemOf s task_id)) := by
  rw [cleanup_task]
  split
  · rename_i hnamed
    have hlist : ∀ r, (remove_item_task { s with tasks := s.tasks.filter (· ≠ task_id) } (itemOf s task_id) task_id).list r =
        if s.item_tasks.get? (itemOf s task_id) = some r then (s.list r).erase task_id else s.list r :=
      list_remove_item_task _ _ _
    have hframe := frame_remove_item_task { s with tasks := s.tasks.filter (· ≠ task_id) } (itemOf s task_id) task_id
    have hlater : Later s (remove_item_task { s with tasks := s.tasks.filter (· ≠ task_id) } (itemOf s task_id) task_id) :=
      .of_objects hframe.1
    refine h.of_same_calls ⟨fun ref t ht => ?_, fun ref => ?_⟩ hframe.2 hlater fun l hgoing t ht => ?_
    · rw [hlist] at ht
      split at ht
      · exact hlater.mem t (h.known ref t (List.mem_of_mem_erase ht))
      · exact hlater.mem t (h.known ref t ht)
    · rw [hlist]
      split
      · exact (h.nodup ref).erase task_id
      · exact h.nodup ref
    · rw [hlist]
      split
      · rename_i hget
        by_cases hin : task_id ∈ s.list l.ref
        · obtain ⟨htaken, hrest⟩ := hok l hgoing hnamed hget hin
          by_cases hbefore : task_id ∈ (s.list l.ref).take l.index
          · -- the rest moves, and the next task is passed over
            rw [Cursor.drop_erase_of_taken hbefore]
            rcases Cursor.mem_drop_iff_getElem?.mp ht with hnext | hmem
            · exact Or.inl (hlater.asked t (htaken hbefore t hnext))
            · exact Or.inr hmem
          · rw [Cursor.drop_erase_of_not_taken hbefore]
            by_cases heq : t = task_id
            · subst heq
              exact Or.inl (hlater.asked t (hrest hbefore))
            · exact Or.inr ((List.mem_erase_of_ne heq).mpr ht)
        · rw [List.erase_of_not_mem hin]
          exact Or.inr ht
      · exact Or.inr ht
  · exact h.of_sameLists ⟨rfl, rfl, rfl⟩ (.of_objects rfl)

theorem inv_create_task {s : State} (h : Inv s) (id : Option Str) {task_id : Str} (hfresh : task_id ∉ s.objects) :
    Inv (create_task s id task_id) := by
  have hlist := list_add_item_task { s with
    tasks := s.tasks ++ [task_id], objects := s.objects.set task_id ⟨id, false, none⟩ } id task_id
  have hframe := frame_add_item_task { s with
    tasks := s.tasks ++ [task_id], objects := s.objects.set task_id ⟨id, false, none⟩ } id task_id
  have hmem : ∀ t, t ∈ (create_task s id task_id).objects ↔ t = task_id ∨ t ∈ s.objects := by
    intro t
    rw [create_task, hframe.1]
    exact Dict.mem_set
  have hlater : Later s (create_task s id task_id) := by
    refine ⟨fun t ht => ?_, fun t ht => (hmem t).mpr (Or.inr ht)⟩
    obtain ⟨task, hget, hasked⟩ := ht
    have hne : t ≠ task_id := fun heq => hfresh (heq ▸ Dict.mem_of_get? hget)
    refine ⟨task, ?_, hasked⟩
    rw [create_task, hframe.1]
    exact (Dict.get?_set_of_ne _ _ hne).trans hget
  refine h.of_same_calls ⟨fun ref t ht => ?_, fun ref => ?_⟩ hframe.2 hlater fun l _ t ht => Or.inr ?_
  · rcases hlist ref with hsame | hadded
    · exact hlater.mem t (h.known ref t (hsame ▸ ht))
    · have hcases : t ∈ s.list ref ++ [task_id] := hadded ▸ ht
      rcases List.mem_append.mp hcases with hold | hnew
      · exact hlater.mem t (h.known ref t hold)
      · exact (hmem t).mpr (Or.inl (List.mem_singleton.mp hnew))
  · rcases hlist ref with hsame | hadded
    · rw [create_task, hsame]
      exact h.nodup ref
    · rw [create_task, hadded]
      -- a new id is in no list
      exact (h.nodup ref).append (List.nodup_singleton _) fun _ ht hnew =>
        hfresh (h.known ref _ (List.mem_singleton.mp hnew ▸ ht))
  · rcases hlist l.ref with hsame | hadded
    · rw [create_task, hsame]
      exact ht
    · rw [create_task, hadded]
      exact Cursor.mem_drop_append ht [task_id]

theorem inv_finish {s : State} (h : Inv s) (task_id : Str) (outcome : Outcome) : Inv (finish s task_id outcome) := by
  rw [finish]
  split
  · split
    · exact h
    · exact h.of_sameLists ⟨rfl, rfl, rfl⟩ (.of_set rfl (Or.inr rfl))
  · exact h

theorem inv_stop_task {s : State} (h : Inv s) (n : Nat) (task_id : Str) : Inv (step s (.stop_task n task_id)) := by
  have hstop : Inv (stop_task s task_id).1 := by
    by_cases hin : task_id ∈ s.tasks
    · rw [stop_task, if_pos hin]
      have hpopped : Inv { s with tasks := s.tasks.filter (· ≠ task_id) } := h.of_sameLists ⟨rfl, rfl, rfl⟩ (.of_objects rfl)
      exact hpopped.of_sameLists (sameLists_cancel _ _) (later_cancel _ _)
    · rw [stop_task_missing hin]
      exact h
  rw [step]
  split
  · exact h
  · exact hstop.set_call n fun _ _ ht => absurd ht List.not_mem_nil

theorem inv_tick {s : State} (h : Inv s) (hok : Undisturbed s .tick) : Inv (tick s) := by
  rw [Undisturbed] at hok
  rw [tick]
  cases hready : s.ready with
  | nil => exact h
  | cons handle ready =>
    rw [hready] at hok
    have hpopped : Inv { s with ready := ready } := h.of_sameLists ⟨rfl, rfl, rfl⟩ (.of_objects rfl)
    cases handle with
    | done_callback task_id => exact hpopped.of_sameLists ⟨rfl, rfl, rfl⟩ (.of_objects rfl)
    | cleanup task_id => exact inv_cleanup_task hpopped task_id hok
    | wakeup n =>
      refine inv_resume hpopped n fun l w reply registered hget hawait => ?_
      exact LoopOk.of_ready (hok l w reply registered hget hawait)

/-- **One step.** -/
theorem inv_step (s : State) (a : Action) (h : Inv s) (hok : Undisturbed s a) : Inv (step s a) := by
  cases a with
  | create id task_id =>
    rw [step]
    split
    · exact h
    · rename_i hfresh
      exact inv_create_task h id hfresh
  | finish task_id outcome => exact inv_finish h task_id outcome
  | deregister task_id => exact inv_cleanup_task h task_id hok
  | stop_task n task_id => exact inv_stop_task h n task_id
  | stop_item_tasks n item_id =>
    rw [step]
    split
    · exact h
    · rename_i hnew
      exact inv_stop_item_tasks h n item_id (hok hnew)
  | tick => exact inv_tick h hok

/-! ## What a call was made for -/

theorem calls_go_on (s : State) (n : Nat) (l : Loop) (registered : List Str) :
    ∃ loop progress, (go_on s n l registered).calls = s.calls.set n ⟨loop, progress, registered⟩ := by
  have hsame := sameLists_stop_loop l.item_id s l.index ((s.list l.ref).drop l.index)
  rw [go_on]
  cases hloop : stop_loop l.item_id s l.index ((s.list l.ref).drop l.index) with
  | mk s' rest =>
    rw [hloop] at hsame
    exact ⟨_, _, by rw [← hsame.calls]⟩

/-- The tasks of a call are those that the item has when it is made. -/
theorem calls_stop_item_tasks (s : State) (n : Nat) (item_id : Str) : ∃ loop progress,
    (stop_item_tasks s n item_id).calls = s.calls.set n ⟨loop, progress, item_list s (some item_id)⟩ := by
  rw [stop_item_tasks, item_list]
  cases hget : s.item_tasks.get? (some item_id) with
  | none => exact ⟨_, _, rfl⟩
  | some ref =>
    by_cases hempty : s.list ref = []
    · simp only [hempty, if_true]
      exact ⟨_, _, rfl⟩
    · simp only [hempty, if_false]
      exact calls_go_on s n ⟨item_id, ref, 0⟩ (s.list ref)

/-- A call keeps the tasks that it was made for. -/
def SameCall (s s' : State) (n : Nat) : Prop :=
  ∀ c, s.calls.get? n = some c → ∃ c', s'.calls.get? n = some c' ∧ c'.registered = c.registered

theorem SameCall.of_calls {s s' : State} {n : Nat} (h : s'.calls = s.calls) : SameCall s s' n :=
  fun c hget => ⟨c, h ▸ hget, rfl⟩

theorem SameCall.of_new {s s' : State} {n m : Nat} {c : Call} (hnew : m ∉ s.calls) (h : s'.calls = s.calls.set m c) :
    SameCall s s' n := by
  intro c' hget
  have hne : n ≠ m := fun heq => hnew (heq ▸ Dict.mem_of_get? hget)
  exact ⟨c', by rw [h, Dict.get?_set_of_ne _ _ hne, hget], rfl⟩

theorem calls_cleanup_task (s : State) (task_id : Str) (id : Option Str) : (cleanup_task s task_id id).calls = s.calls := by
  rw [cleanup_task]
  split
  · exact (frame_remove_item_task _ _ _).2
  · rfl

theorem sameCall_resume (s : State) (m n : Nat) : SameCall s (resume s m) n := by
  have hset : ∀ (s' : State) loop registered loop' progress progress', s.calls.get? m = some ⟨loop, progress, registered⟩ →
      s'.calls = s.calls.set m ⟨loop', progress', registered⟩ → SameCall s s' n := by
    intro s' loop registered loop' progress progress' hm h c hget
    by_cases hn : n = m
    · subst hn
      rw [hm] at hget
      cases hget
      exact ⟨⟨loop', progress', registered⟩, by rw [h, Dict.get?_set_self], rfl⟩
    · exact ⟨c, by rw [h, Dict.get?_set_of_ne _ _ hn, hget], rfl⟩
  rw [resume]
  split
  · rename_i loop w registered hm
    split
    · rename_i reply l _
      obtain ⟨loop', progress', hcalls⟩ := calls_go_on s m l registered
      exact hset _ _ _ _ _ _ hm hcalls
    · exact hset _ _ _ _ _ _ hm rfl
  · exact .of_calls rfl

theorem sameCall_step (s : State) (a : Action) (n : Nat) : SameCall s (step s a) n := by
  cases a with
  | create id task_id =>
    rw [step]
    split
    · exact .of_calls rfl
    · exact .of_calls (frame_add_item_task _ _ _).2
  | finish task_id outcome =>
    rw [step, finish]
    split
    · split <;> exact .of_calls rfl
    · exact .of_calls rfl
  | deregister task_id => exact .of_calls (calls_cleanup_task ..)
  | stop_task m task_id =>
    rw [step]
    split
    · exact .of_calls rfl
    · rename_i hnew
      refine .of_new (c := ⟨none, (stop_task s task_id).2, []⟩) hnew ?_
      show (stop_task s task_id).1.calls.set m _ = _
      rw [(sameLists_stop_task s task_id).calls]
  | stop_item_tasks m item_id =>
    rw [step]
    split
    · exact .of_calls rfl
    · rename_i hnew
      obtain ⟨loop, progress, hcalls⟩ := calls_stop_item_tasks s m item_id
      exact .of_new hnew hcalls
  | tick =>
    rw [step, tick]
    cases s.ready with
    | nil => exact .of_calls rfl
    | cons handle ready =>
      cases handle with
      | done_callback task_id => exact .of_calls rfl
      | cleanup task_id => exact .of_calls (calls_cleanup_task ..)
      | wakeup m => exact sameCall_resume { s with ready := ready } m n

theorem sameCall_run (s : State) (as : List Action) (n : Nat) : SameCall s (Run.run step s as) n := by
  induction as generalizing s with
  | nil => exact .of_calls rfl
  | cons a as ih =>
    intro c hget
    obtain ⟨c', hget', hsame⟩ := sameCall_step s a n c hget
    obtain ⟨c'', hget'', hsame'⟩ := ih (step s a) c' hget'
    exact ⟨c'', hget'', hsame'.trans hsame⟩

/-! ## Runs -/

/-- **When `stop_item_tasks` returns**, every task that the item had when it was called has been asked to cancel, or is
done: from every registry, in every run that is undisturbed. -/
theorem stops_every_task {s : State} (hwell : Well s) (hcalls : s.calls = Dict.empty) (as bs : List Action) (n : Nat)
    (item_id : Str) (hok : Run.AllSteps Undisturbed step s (as ++ .stop_item_tasks n item_id :: bs))
    (hnew : n ∉ (Run.run step s as).calls) {c : Call} {reply : Reply}
    (hget : (Run.run step s (as ++ .stop_item_tasks n item_id :: bs)).calls.get? n = some c)
    (hreturned : c.progress = .returned reply) (t : Str) (ht : t ∈ item_list (Run.run step s as) (some item_id)) :
    Asked (Run.run step s (as ++ .stop_item_tasks n item_id :: bs)) t := by
  have hinv : Inv s := by
    refine ⟨hwell, fun m c hm => ?_⟩
    rw [hcalls] at hm
    cases hm
  have hend := Run.invariant inv_step hinv hok
  have hregistered : c.registered = item_list (Run.run step s as) (some item_id) := by
    obtain ⟨loop, progress, hmade⟩ := calls_stop_item_tasks (Run.run step s as) n item_id
    have hfirst : (step (Run.run step s as) (.stop_item_tasks n item_id)).calls.get? n =
        some ⟨loop, progress, item_list (Run.run step s as) (some item_id)⟩ := by
      rw [step, if_neg hnew, hmade, Dict.get?_set_self]
    obtain ⟨c', hget', hsame⟩ := sameCall_run _ bs n _ hfirst
    rw [Run.run_append, Run.run_cons] at hget
    rw [hget] at hget'
    cases hget'
    exact hsame
  rcases hend.calls n c hget (by rw [hreturned]; intro heq; cases heq) t (hregistered ▸ ht) with hasked | ⟨_, w, _, hw, _⟩
  · exact hasked
  · rw [hreturned] at hw
    cases hw

/-! ## Two tasks, and three -/

def noTasks : State := ⟨[], Dict.empty, [], Dict.empty, [], Dict.empty⟩

theorem well_noTasks : Well noTasks := ⟨fun _ _ ht => absurd ht List.not_mem_nil, fun _ => List.nodup_nil⟩

/-- The tasks of a chat are registered. -/
def registering (ids : List Str) : List Action := ids.map (.create (some (py "chat")))

/-- The first task ends, its callback runs, the call goes on to the second, the first is taken out of the list, and the
second ends. -/
def stopping : List Action :=
  [.finish (py "a") .cancelled, .tick, .tick, .tick, .finish (py "b") .cancelled, .tick, .tick]

theorem undisturbed_two : Run.AllSteps Undisturbed step noTasks
    (registering [py "a", py "b"] ++ .stop_item_tasks 0 (py "chat") :: stopping) := by
  refine ⟨trivial, trivial, fun _ => ⟨fun _ hdone => ?_, fun hgone => absurd hgone (by decide)⟩, trivial, trivial, ?_, ?_,
    trivial, trivial, ?_, trivial⟩
  · -- the first task is running
    obtain ⟨task, hget, hdone⟩ := hdone
    cases hget
    cases hdone
  · intro l w reply registered hget _
    cases hget
    refine ⟨fun _ hdone => ?_, fun hgone => absurd hgone (by decide)⟩
    -- and so is the second
    obtain ⟨task, hget, hdone⟩ := hdone
    cases hget
    cases hdone
  · rintro l ⟨n, c, w, hget, hl, -⟩ _ _ _
    -- the only call has taken both tasks
    have hitems := Dict.get?_eq_some_iff.mp hget
    cases List.mem_singleton.mp hitems
    cases hl
    refine ⟨fun _ u hu => ?_, fun hnot => absurd hnot (by decide)⟩
    have hnone : (none : Option Str) = some u := hu
    cases hnone
  · intro l w reply registered hget _
    cases hget
    trivial

/-- Both of two tasks are asked. -/
theorem stops_every_task_two :
    Asked (Run.run step noTasks (registering [py "a", py "b"] ++ .stop_item_tasks 0 (py "chat") :: stopping)) (py "b") :=
  stops_every_task well_noTasks rfl (registering [py "a", py "b"]) stopping 0 (py "chat") undisturbed_two (by decide)
    (c := ⟨some ⟨py "chat", 0, 2⟩, .returned ⟨true, py "All tasks for item chat stopped."⟩, [py "a", py "b"]⟩)
    (by decide) rfl (py "b") (by decide)

/-- Of three tasks the third is not asked: the list has moved when the call comes to it. -/
theorem third_task_skipped :
    ¬∀ (s : State) (as bs : List Action) (n : Nat) (item_id : Str) (c : Call) (reply : Reply), Well s →
      s.calls = Dict.empty → n ∉ (Run.run step s as).calls →
      (Run.run step s (as ++ .stop_item_tasks n item_id :: bs)).calls.get? n = some c → c.progress = .returned reply →
      ∀ t ∈ item_list (Run.run step s as) (some item_id),
        Asked (Run.run step s (as ++ .stop_item_tasks n item_id :: bs)) t := by
  intro h
  obtain ⟨task, hget, hasked⟩ := h noTasks (registering [py "a", py "b", py "c"]) stopping 0 (py "chat")
    ⟨some ⟨py "chat", 0, 2⟩, .returned ⟨true, py "All tasks for item chat stopped."⟩, [py "a", py "b", py "c"]⟩
    ⟨true, py "All tasks for item chat stopped."⟩ well_noTasks rfl (by decide) (by decide) rfl (py "c") (by decide)
  have htask : (Run.run step noTasks (registering [py "a", py "b", py "c"] ++
    .stop_item_tasks 0 (py "chat") :: stopping)).objects.get?
      (py "c") = some ⟨some (py "chat"), false, none⟩ := by decide
  rw [htask] at hget
  cases hget
  exact absurd hasked (by decide)

end Tasks
end MaterialOpenWebui
