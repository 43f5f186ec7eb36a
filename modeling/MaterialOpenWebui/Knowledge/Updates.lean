import MaterialOpenWebui.Knowledge.Directories

/-!
# `Knowledge.Updates` — a move and a new name at once (`update_directory`, `backend/open_webui/models/knowledge.py`)

`update_directory` moves the directory, and then renames it: two statements, each with a commit of its own. Where the second
is refused the first one stays, and what is returned is `None` all the same (`moved_without_name`).

The constraints refuse a statement, or the database does not carry it out for a reason of its own; and it may fail to read
the directory back after a commit, which is answered by `None` too.
-/

namespace MaterialOpenWebui
namespace Knowledge
open Py

/-! ## Operations -/

/-- The statements that the database carries out, where no constraint is in the way. -/
structure Carried where
  move : Bool
  read_moved : Bool
  rename : Bool
  read_renamed : Bool
  read : Bool

/-- A constraint refuses the `UPDATE`. -/
def refused (foreign_keys : Bool) (rows : Rows) (id : Str) (change : Directory → Directory) : Bool :=
  match rows.get? id with
  | some directory => uq_violated rows id (change directory) || fk_violated foreign_keys rows (change directory)
  | none => false

/-- An `UPDATE` with its commit, and the directory as it is read back. -/
def committed (accepted read : Bool) (rows rows' : Rows) (id : Str) : Option Directory × Rows :=
  if accepted = true then (if read = true then rows'.get? id else none, rows') else (none, rows)

section
variable (carried : Carried) (foreign_keys : Bool) (rows : Rows) (id : Str)

def moveAccepted (parent_id : Option Str) : Bool :=
  carried.move && search_up rows id (rows.size + 2) parent_id [] = some false &&
    !refused foreign_keys rows id ({ · with parent_id })

/-- `move_directory`, with what it returns. -/
def moved (parent_id : Option Str) : Option Directory × Rows :=
  committed (moveAccepted carried foreign_keys rows id parent_id) carried.read_moved rows
    (move_directory foreign_keys rows id parent_id) id

def renameAccepted (name : Str) : Bool := carried.rename && !refused foreign_keys rows id ({ · with name })

/-- `rename_directory`, with what it returns. -/
def renamed (name : Str) : Option Directory × Rows :=
  committed (renameAccepted carried foreign_keys rows id name) carried.read_renamed rows
    (rename_directory foreign_keys rows id name) id

/-- `update_directory` after the move. The outer `none` where it raises: the last read is not guarded. -/
def finished (name : Option Str) : Option (Option Directory) × Rows :=
  match name with
  | some name => let r := renamed carried foreign_keys rows id name; (some r.1, r.2)
  | none => (if carried.read = true then some (rows.get? id) else none, rows)

def unset : Option Str := some (py "__unset__")

def update_directory (name parent_id : Option Str) : Option (Option Directory) × Rows :=
  if parent_id ≠ unset then
    let r := moved carried foreign_keys rows id parent_id
    if r.1 = none then (some none, r.2) else finished carried foreign_keys r.2 id name
  else finished carried foreign_keys rows id name

variable {carried foreign_keys rows id}

/-! ## Atomicity -/

theorem write_of_accepted {change : Directory → Directory} {directory : Directory} (hget : rows.get? id = some directory)
    (h : refused foreign_keys rows id change = false) :
    write foreign_keys rows id (change directory) = rows.set id (change directory) := by
  unfold refused at h
  rw [hget] at h
  unfold write
  rw [if_neg (Bool.eq_false_iff.mp h)]

/-- What an accepted move makes of the rows. -/
theorem move_directory_of_accepted {parent_id : Option Str} {directory : Directory} (hget : rows.get? id = some directory)
    (h : moveAccepted carried foreign_keys rows id parent_id = true) :
    move_directory foreign_keys rows id parent_id = rows.set id { directory with parent_id } := by
  unfold moveAccepted at h
  simp only [Bool.and_eq_true, decide_eq_true_eq, Bool.not_eq_true'] at h
  obtain ⟨⟨-, hsearch⟩, hrefused⟩ := h
  rw [move_directory, hsearch]
  simp only [update_parent, hget]
  exact write_of_accepted hget hrefused

/-- What an accepted name makes of the rows. -/
theorem rename_directory_of_accepted {name : Str} {directory : Directory} (hget : rows.get? id = some directory)
    (h : renameAccepted carried foreign_keys rows id name = true) :
    rename_directory foreign_keys rows id name = rows.set id { directory with name } := by
  unfold renameAccepted at h
  simp only [Bool.and_eq_true, Bool.not_eq_true'] at h
  simp only [rename_directory, hget]
  exact write_of_accepted hget h.2

/-- An accepted move is committed, whether or not the directory is then read back. -/
theorem moved_of_accepted {parent_id : Option Str} {directory : Directory} (hget : rows.get? id = some directory)
    (h : moveAccepted carried foreign_keys rows id parent_id = true) :
    moved carried foreign_keys rows id parent_id =
      (if carried.read_moved = true then some { directory with parent_id } else none,
        rows.set id { directory with parent_id }) := by
  rw [moved, committed, if_pos h, move_directory_of_accepted hget h, Dict.get?_set_self]

/-- A move that is not accepted changes nothing. -/
theorem moved_of_not {parent_id : Option Str} (h : ¬ moveAccepted carried foreign_keys rows id parent_id = true) :
    moved carried foreign_keys rows id parent_id = (none, rows) := by
  rw [moved, committed, if_neg h]

theorem committed_none {accepted read : Bool} {rows' : Rows} (hsame : rows' = rows) :
    (committed accepted read rows rows' id).2 = rows := by
  unfold committed
  split
  · exact hsame
  · rfl

/-- Where there is no such directory, nothing changes. -/
theorem update_directory_missing (hget : rows.get? id = none) (name parent_id : Option Str) :
    (update_directory carried foreign_keys rows id name parent_id).2 = rows := by
  have hrename : ∀ name, (renamed carried foreign_keys rows id name).2 = rows := fun name =>
    committed_none (by simp only [rename_directory, hget])
  have hmove : (moved carried foreign_keys rows id parent_id).2 = rows := by
    refine committed_none ?_
    unfold move_directory
    split
    · simp only [update_parent, hget]
    · rfl
  have hfinish : (finished carried foreign_keys rows id name).2 = rows := by
    cases name with
    | some name => exact hrename name
    | none => rfl
  unfold update_directory
  split
  · simp only [hmove]
    split
    · rfl
    · exact hfinish
  · exact hfinish

/-- Where `None` is returned, the directory is what it was. -/
def Atomic (rows : Rows) (id : Str) (r : Option (Option Directory) × Rows) : Prop :=
  r.1 = some none → r.2.get? id = rows.get? id

/-- The rename, if it comes to it, is no half of anything: it is carried out to the end, or changes nothing. -/
theorem atomic_finished_iff {directory : Directory} (hget : rows.get? id = some directory) (name : Option Str) :
    Atomic rows id (finished carried foreign_keys rows id name) ↔
      ∀ n, name = some n → renameAccepted carried foreign_keys rows id n = true → directory.name ≠ n →
        carried.read_renamed = true := by
  cases name with
  | none => exact iff_of_true (fun _ => rfl) nofun
  | some n =>
    have hset : (rows.set id { directory with name := n }).get? id = some { directory with name := n } :=
      Dict.get?_set_self _ _ _
    unfold Atomic finished renamed committed
    by_cases haccepted : renameAccepted carried foreign_keys rows id n = true
    · simp only [if_pos haccepted, rename_directory_of_accepted hget haccepted, hset, hget]
      by_cases hread : carried.read_renamed = true
      · simp [hread]
      · simp only [if_neg hread, forall_const, Option.some.injEq]
        constructor
        · intro h n' hn' _ hne
          subst hn'
          rw [← h] at hne
          exact absurd rfl hne
        · intro h
          by_contra hne
          refine hread (h n rfl haccepted fun hname => hne ?_)
          rw [← hname]
    · simp only [if_neg haccepted]
      refine iff_of_true (fun _ => trivial) fun n' hn' h => ?_
      cases hn'
      exact absurd h haccepted

/-- After a move to another parent, nothing is to fail. -/
theorem not_atomic_after {directory directory' : Directory} (hget : rows.get? id = some directory) {rows' : Rows}
    (hget' : rows'.get? id = some directory') (hparent : directory'.parent_id ≠ directory.parent_id) (name : Option Str) :
    Atomic rows id (finished carried foreign_keys rows' id name) ↔
      ∀ n, name = some n → renameAccepted carried foreign_keys rows' id n = true ∧ carried.read_renamed = true := by
  -- the name makes no difference any more
  have hne : ∀ {d : Directory}, d.parent_id = directory'.parent_id → some d ≠ some directory := by
    intro d hd heq
    rw [← Option.some.inj heq] at hparent
    exact hparent hd.symm
  cases name with
  | none =>
    refine iff_of_true (fun h => ?_) nofun
    unfold finished at h
    simp only [hget'] at h
    split at h
    · cases h
    · cases h
  | some n =>
    unfold Atomic finished renamed committed
    by_cases haccepted : renameAccepted carried foreign_keys rows' id n = true
    · simp only [if_pos haccepted, rename_directory_of_accepted hget' haccepted, Dict.get?_set_self, hget]
      by_cases hread : carried.read_renamed = true
      · simp [hread, haccepted]
      · simp only [if_neg hread, forall_const]
        exact iff_of_false (hne rfl) fun h => hread (h n rfl).2
    · simp only [if_neg haccepted, forall_const, hget', hget]
      exact iff_of_false (hne rfl) fun h => haccepted (h n rfl).1

/-- A move that is not read back was none if the parent is the same. -/
theorem atomic_unread_iff {directory : Directory} (hget : rows.get? id = some directory) (parent_id : Option Str) :
    Atomic rows id (some none, rows.set id { directory with parent_id }) ↔ parent_id = directory.parent_id := by
  unfold Atomic
  simp only [Dict.get?_set_self, hget, forall_const, Option.some.injEq]
  constructor
  · intro h
    rw [← h]
  · intro h
    rw [h]

/-- **An update with an accepted move** is atomic if the move is read back and what follows is atomic, or if it changes
nothing. -/
theorem atomic_accepted_iff {directory : Directory} (hget : rows.get? id = some directory) {parent_id : Option Str}
    (hset : parent_id ≠ unset) (h : moveAccepted carried foreign_keys rows id parent_id = true) (name : Option Str) :
    Atomic rows id (update_directory carried foreign_keys rows id name parent_id) ↔
      if carried.read_moved = true then
        Atomic rows id (finished carried foreign_keys (rows.set id { directory with parent_id }) id name)
      else parent_id = directory.parent_id := by
  rw [update_directory, if_pos hset]
  simp only [moved_of_accepted hget h]
  by_cases hread : carried.read_moved = true
  · simp only [if_pos hread, reduceCtorEq, if_false]
  · simp only [if_neg hread, if_true]
    exact atomic_unread_iff hget parent_id

variable (carried foreign_keys rows id)

/-- Nothing fails after what has been committed: a move to another parent is read back, and the name, if there is one, is
given; a name that changes is read back. -/
structure Unbroken (name parent_id : Option Str) : Prop where
  move : ∀ directory, rows.get? id = some directory → parent_id ≠ unset →
    moveAccepted carried foreign_keys rows id parent_id = true → parent_id ≠ directory.parent_id →
    carried.read_moved = true ∧ ∀ n, name = some n →
      renameAccepted carried foreign_keys (rows.set id { directory with parent_id }) id n = true ∧
        carried.read_renamed = true
  rename : ∀ directory n, rows.get? id = some directory → name = some n →
    (parent_id ≠ unset → parent_id = directory.parent_id ∧
      moveAccepted carried foreign_keys rows id parent_id = true ∧ carried.read_moved = true) →
    renameAccepted carried foreign_keys rows id n = true → directory.name ≠ n → carried.read_renamed = true

/-- **An update is atomic** as long as nothing fails after what has been committed. -/
theorem update_atomic_iff (name parent_id : Option Str) :
    Atomic rows id (update_directory carried foreign_keys rows id name parent_id) ↔
      Unbroken carried foreign_keys rows id name parent_id := by
  cases hget : rows.get? id with
  | none =>
    refine iff_of_true (fun _ => ?_) ⟨fun _ h => ?_, fun _ _ h => ?_⟩
    · rw [update_directory_missing hget]
    · rw [hget] at h
      cases h
    · rw [hget] at h
      cases h
  | some directory =>
    have hsame : ∀ d, rows.get? id = some d → d = directory := fun d hd => Option.some.inj (hd.symm.trans hget)
    by_cases hset : parent_id ≠ unset
    · by_cases haccepted : moveAccepted carried foreign_keys rows id parent_id = true
      · rw [atomic_accepted_iff hget hset haccepted]
        by_cases hparent : parent_id = directory.parent_id
        · -- the row is written as it was, so only the name counts
          have hrows : rows.set id { directory with parent_id } = rows := by
            rw [hparent]
            exact Dict.set_self hget
          rw [hrows, atomic_finished_iff hget]
          constructor
          · intro h
            refine ⟨fun d hd _ _ hne => ?_, fun d n hd hn hmove hrename hname => ?_⟩
            · rw [hsame d hd] at hne
              exact absurd hparent hne
            · rw [if_pos (hmove hset).2.2] at h
              rw [hsame d hd] at hname
              exact h n hn hrename hname
          · intro h
            split
            · rename_i hread
              exact fun n hn => h.rename directory n hget hn fun _ => ⟨hparent, haccepted, hread⟩
            · exact hparent
        · -- the directory has another parent, so nothing may fail any more
          rw [not_atomic_after hget (Dict.get?_set_self _ _ _) hparent]
          constructor
          · intro h
            refine ⟨fun d hd _ _ _ => ?_, fun d n hd _ hmove => ?_⟩
            · rw [hsame d hd]
              split at h
              · rename_i hread
                exact ⟨hread, h⟩
              · exact absurd h hparent
            · rw [hsame d hd] at hmove
              exact absurd (hmove hset).1 hparent
          · intro h
            obtain ⟨hread, hname⟩ := h.move directory hget hset haccepted hparent
            rw [if_pos hread]
            exact hname
      · rw [update_directory, if_pos hset]
        simp only [moved_of_not haccepted, if_true]
        refine iff_of_true (fun _ => rfl) ⟨fun _ _ _ h => absurd h haccepted, fun _ _ _ _ hmove => ?_⟩
        exact absurd (hmove hset).2.1 haccepted
    · rw [update_directory, if_neg hset, atomic_finished_iff hget]
      constructor
      · intro h
        refine ⟨fun _ _ hne => absurd hne hset, fun d n hd hn _ hrename hname => ?_⟩
        rw [hsame d hd] at hname
        exact h n hn hrename hname
      · intro h n hn hrename hname
        exact h.rename directory n hget hn (fun hne => absurd hne hset) hrename hname

end

/-- Two directories at the root, and one in the first. -/
def shelves : Rows := Dict.ofList [(py "1", ⟨py "k", none, py "shelf"⟩), (py "2", ⟨py "k", some (py "1"), py "maps"⟩),
  (py "3", ⟨py "k", none, py "charts"⟩)]

/-- **Moved, but not renamed**: the new parent has a directory of that name. -/
theorem moved_without_name :
    ¬ Atomic shelves (py "3") (update_directory ⟨true, true, true, true, true⟩ true shelves (py "3") (some (py "maps"))
      (some (py "1"))) := by
  unfold Atomic
  decide

end Knowledge
end MaterialOpenWebui
