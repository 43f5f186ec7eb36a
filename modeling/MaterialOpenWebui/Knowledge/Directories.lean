import MaterialOpenWebui.Lib.Dict
import MaterialOpenWebui.Lib.Forest
import MaterialOpenWebui.Lib.Run
import MaterialOpenWebui.Py.Text

/-!
# `Knowledge.Directories` — the directories of knowledge bases (`backend/open_webui/models/knowledge.py`)

A directory belongs to a knowledge base and may have a parent. A write is refused where the database's constraints are not
met: no two directories of a base have the same parent and name, except that NULL is no parent like another, so the
constraint says nothing about the directories at the root.

Whether the database enforces foreign keys is a parameter. An id that is not NULL but empty is treated as no id by the code.
-/

namespace MaterialOpenWebui
namespace Knowledge
open Py

/-! ## The table -/

structure Directory where
  knowledge_id : Str
  parent_id : Option Str
  name : Str
  deriving DecidableEq

/-- The directories of all knowledge bases, by their ids. -/
abbrev Rows := Dict Str Directory

def parentOf (rows : Rows) (id : Str) : Option Str := (rows.get? id).bind Directory.parent_id

/-- `uq_knowledge_directory_knowledge_parent_name`. -/
def uq_violated (rows : Rows) (id : Str) (directory : Directory) : Bool :=
  directory.parent_id.isSome && rows.items.any fun row =>
    row.1 ≠ id && row.2.knowledge_id = directory.knowledge_id && row.2.parent_id = directory.parent_id &&
      row.2.name = directory.name

/-- The parent is NULL or a directory, where the database asks for that. -/
def fk_violated (foreign_keys : Bool) (rows : Rows) (directory : Directory) : Bool :=
  foreign_keys && directory.parent_id.any fun parent_id => parent_id ∉ rows

/-- An `INSERT` or `UPDATE` of the directory, and its commit. -/
def write (foreign_keys : Bool) (rows : Rows) (id : Str) (directory : Directory) : Rows :=
  if uq_violated rows id directory || fk_violated foreign_keys rows directory then rows else rows.set id directory

/-! ## Operations -/

/-- The id is the one that `uuid4` draws. -/
def create_directory (foreign_keys : Bool) (rows : Rows) (id knowledge_id name : Str) (parent_id : Option Str) : Rows :=
  write foreign_keys rows id ⟨knowledge_id, parent_id, name⟩

def rename_directory (foreign_keys : Bool) (rows : Rows) (id name : Str) : Rows :=
  match rows.get? id with
  | some directory => write foreign_keys rows id { directory with name }
  | none => rows

/-- `UPDATE … SET parent_id`. -/
def update_parent (foreign_keys : Bool) (rows : Rows) (id : Str) (parent_id : Option Str) : Rows :=
  match rows.get? id with
  | some directory => write foreign_keys rows id { directory with parent_id }
  | none => rows

/-! ## Moving -/

/-- What a round of the search does. -/
inductive Round where
  /-- the move would close a cycle -/
  | refuse
  /-- the parent of a directory is read -/
  | read (id : Str)
  /-- the search is over -/
  | update
  deriving DecidableEq

/-- `while current and current not in seen: if current == directory_id: return None`. -/
def loop_head (directory_id : Str) (current : Option Str) (seen : List Str) : Round :=
  match current.filter (· ≠ []) with
  | none => .update
  | some id => if id ∈ seen then .update else if id = directory_id then .refuse else .read id

/-- The search with nobody else writing: `true` if it finds a cycle. -/
def search_up (rows : Rows) (directory_id : Str) : Nat → Option Str → List Str → Option Bool
  | 0, _, _ => none
  | fuel + 1, current, seen =>
      match loop_head directory_id current seen with
      | .refuse => some true
      | .update => some false
      | .read id => search_up rows directory_id fuel (parentOf rows id) (id :: seen)

def move_directory (foreign_keys : Bool) (rows : Rows) (directory_id : Str) (new_parent_id : Option Str) : Rows :=
  match search_up rows directory_id (rows.size + 2) new_parent_id [] with
  | some false => update_parent foreign_keys rows directory_id new_parent_id
  | _ => rows

theorem parentOf_set (rows : Rows) (id : Str) (directory : Directory) (c : Str) :
    parentOf (rows.set id directory) c = if c = id then directory.parent_id else parentOf rows c := by
  rw [parentOf, Dict.get?_set]
  split
  · rfl
  · rfl

/-- A write that is refused changes nothing. -/
theorem write_cases (foreign_keys : Bool) (rows : Rows) (id : Str) (directory : Directory) :
    write foreign_keys rows id directory = rows ∨
      uq_violated rows id directory = false ∧ write foreign_keys rows id directory = rows.set id directory := by
  rw [write]
  split
  · exact Or.inl rfl
  · rename_i h
    rw [Bool.or_eq_true, not_or, Bool.not_eq_true] at h
    exact Or.inr ⟨h.1, rfl⟩

/-! ## What the search has seen -/

/-- The search comes to an end: what it reads is new each time, and beyond the table there is one more id at most. -/
theorem search_up_ends (rows : Rows) (directory_id : Str) {fuel : Nat} (current : Option Str) {seen : List Str}
    (hnodup : seen.Nodup) (hin : seen ⊆ rows.keys) (hfuel : rows.keys.length + 2 ≤ seen.length + fuel) :
    ∃ found, search_up rows directory_id fuel current seen = some found := by
  have hle := (List.subperm_of_subset hnodup hin).length_le
  induction fuel generalizing current seen with
  | zero => omega
  | succ fuel ih =>
    rw [search_up]
    split
    · exact ⟨true, rfl⟩
    · exact ⟨false, rfl⟩
    · rename_i id hread
      have hnew : id ∉ seen := by
        rw [loop_head] at hread
        split at hread
        · cases hread
        split at hread
        · cases hread
        split at hread
        · cases hread
        · rename_i hseen _
          cases hread
          exact hseen
      by_cases hid : id ∈ rows
      · have hin' : id :: seen ⊆ rows.keys := List.cons_subset.mpr ⟨Dict.mem_iff_mem_keys.mp hid, hin⟩
        have hnodup' : (id :: seen).Nodup := List.nodup_cons.mpr ⟨hnew, hnodup⟩
        refine ih _ hnodup' hin' ?_ (List.subperm_of_subset hnodup' hin').length_le
        rw [List.length_cons]
        omega
      · -- there is no such directory, so the next round is the last
        have hnone : parentOf rows id = none := by
          rw [parentOf, Dict.get?_eq_none_iff.mpr hid]
          rfl
        cases fuel with
        | zero => omega
        | succ fuel =>
          rw [hnone]
          exact ⟨false, rfl⟩

/-- The parents that were read, the last first, are the parents still, and `current` is the last that was read. -/
def Current (rows : Rows) : List Str → Option Str → Prop
  | [], _ => True
  | id :: seen, current => parentOf rows id = current ∧ Current rows seen (some id)

/-- The search began at `start`, and has not met the directory. -/
structure Searched (directory_id : Str) (start current : Option Str) (seen : List Str) : Prop where
  apart : directory_id ∉ seen
  begun : seen = [] ∧ current = start ∨ ∃ first, seen.getLast? = some first ∧ start = some first

theorem Searched.start (directory_id : Str) (start : Option Str) : Searched directory_id start start [] :=
  ⟨List.not_mem_nil, Or.inl ⟨rfl, rfl⟩⟩

theorem loop_head_read {directory_id id : Str} {current : Option Str} {seen : List Str}
    (h : loop_head directory_id current seen = .read id) :
    current = some id ∧ id ≠ [] ∧ id ∉ seen ∧ id ≠ directory_id := by
  rw [loop_head] at h
  split at h
  · cases h
  · rename_i id' hcurrent
    rw [Option.filter_eq_some_iff, decide_eq_true_eq] at hcurrent
    split at h
    · cases h
    split at h
    · cases h
    · rename_i hseen hne
      cases h
      exact ⟨hcurrent.1, hcurrent.2, hseen, hne⟩

theorem loop_head_update {directory_id : Str} {current : Option Str} {seen : List Str}
    (h : loop_head directory_id current seen = .update) :
    current = none ∨ current = some [] ∨ ∃ id ∈ seen, current = some id := by
  rw [loop_head] at h
  split at h
  · rename_i hcurrent
    cases hc : current with
    | none => exact Or.inl rfl
    | some id =>
      rw [hc, Option.filter_eq_none_iff] at hcurrent
      have hid := hcurrent id rfl
      rw [decide_eq_true_eq, not_not] at hid
      exact Or.inr (Or.inl (by rw [hid]))
  · rename_i id hcurrent
    rw [Option.filter_eq_some_iff] at hcurrent
    split at h
    · rename_i hseen
      exact Or.inr (Or.inr ⟨id, hseen, hcurrent.1⟩)
    split at h
    · cases h
    · cases h

/-- **One read** of the search. -/
theorem Searched.read {directory_id id : Str} {start current next : Option Str} {seen : List Str}
    (h : Searched directory_id start current seen) (hread : loop_head directory_id current seen = .read id) :
    Searched directory_id start next (id :: seen) := by
  obtain ⟨hcurrent, -, -, hne⟩ := loop_head_read hread
  refine ⟨?_, Or.inr ?_⟩
  · rw [List.mem_cons, not_or]
    exact ⟨fun heq => hne heq.symm, h.apart⟩
  · rcases h.begun with ⟨rfl, rfl⟩ | ⟨first, hlast, hstart⟩
    · exact ⟨id, rfl, hcurrent⟩
    · refine ⟨first, ?_, hstart⟩
      cases seen with
      | nil => cases hlast
      | cons a seen => exact hlast

/-- Above a directory that was seen, where the parents are still the same, are directories that were seen later, and what
`current` leads to. -/
theorem ancestor_of_current {rows : Rows} {seen : List Str} {current : Option Str}
    (h : Current rows seen current) {id a : Str}
    (hid : id ∈ seen) (ha : Forest.Ancestor (parentOf rows) a id) :
    a ∈ seen ∨ ∃ top, current = some top ∧ (a = top ∨ Forest.Ancestor (parentOf rows) a top) := by
  induction seen generalizing current with
  | nil => exact absurd hid List.not_mem_nil
  | cons first seen ih =>
    obtain ⟨hparent, hrest⟩ := h
    rcases List.mem_cons.mp hid with rfl | hid
    · obtain ⟨p, hp, hap⟩ := Forest.ancestor_iff.mp ha
      exact Or.inr ⟨p, hparent.symm.trans hp, hap⟩
    · rcases ih hrest hid with hmem | ⟨top, htop, hatop⟩
      · exact Or.inl (List.mem_cons_of_mem _ hmem)
      · cases htop
        rcases hatop with rfl | hatop
        · exact Or.inl List.mem_cons_self
        · obtain ⟨p, hp, hap⟩ := Forest.ancestor_iff.mp hatop
          exact Or.inr ⟨p, hparent.symm.trans hp, hap⟩

/-- What the search came to last is above all it saw. -/
theorem current_above {rows : Rows} {seen : List Str} {top : Str} (h : Current rows seen (some top)) {id : Str}
    (hid : id ∈ seen) : Forest.Ancestor (parentOf rows) top id := by
  induction seen generalizing top with
  | nil => exact absurd hid List.not_mem_nil
  | cons first seen ih =>
    obtain ⟨hparent, hrest⟩ := h
    rcases List.mem_cons.mp hid with rfl | hid
    · exact Forest.ancestor_of_parent hparent
    · exact Relation.TransGen.head hparent (ih hrest hid)

/-- **What the search is for.** If the parents it read are the parents still, a search that is over has shown that the new
parent is neither the directory nor below it. -/
theorem apart_of_current {rows : Rows} (hrooted : Forest.Rooted (parentOf rows)) (hempty : ([] : Str) ∉ rows)
    {directory_id : Str} (hdirectory : directory_id ∈ rows) {start current : Option Str} {seen : List Str}
    (hsearched : Searched directory_id start current seen) (hcurrent : Current rows seen current)
    (hover : loop_head directory_id current seen = .update) {p : Str} (hp : start = some p) :
    p ≠ directory_id ∧ ¬Forest.Ancestor (parentOf rows) directory_id p := by
  have hne : directory_id ≠ [] := fun h => hempty (h ▸ hdirectory)
  have hroot : parentOf rows [] = none := by
    rw [parentOf, Dict.get?_eq_none_iff.mpr hempty]
    rfl
  rcases hsearched.begun with ⟨rfl, rfl⟩ | ⟨first, hlast, hstart⟩
  · -- nothing was read: the new parent is the empty id
    rcases loop_head_update hover with h | h | ⟨id, hid, -⟩
    · rw [hp] at h
      cases h
    · rw [hp] at h
      cases h
      exact ⟨fun h => hne h.symm, Forest.not_ancestor_of_root hroot⟩
    · exact absurd hid List.not_mem_nil
  · have hfirst : first = p := Option.some.inj (hstart.symm.trans hp)
    subst hfirst
    have hmem : first ∈ seen := List.mem_of_getLast? hlast
    refine ⟨fun h => hsearched.apart (h ▸ hmem), fun hancestor => ?_⟩
    rcases ancestor_of_current hcurrent hmem hancestor with hseen | ⟨top, htop, hatop⟩
    · exact hsearched.apart hseen
    · rcases loop_head_update hover with h | h | ⟨id, hid, h⟩
      · rw [htop] at h
        cases h
      · rw [htop] at h
        cases h
        rcases hatop with heq | hatop
        · exact hne heq
        · exact Forest.not_ancestor_of_root hroot hatop
      · rw [htop] at h
        cases h
        -- a directory that is met again is above itself
        exact hrooted.irrefl top (current_above (htop ▸ hcurrent) hid)

theorem loop_head_refuse {directory_id : Str} {current : Option Str} {seen : List Str}
    (h : loop_head directory_id current seen = .refuse) : current = some directory_id := by
  rw [loop_head] at h
  split at h
  · cases h
  · rename_i id hcurrent
    split at h
    · cases h
    split at h
    · rename_i heq
      exact heq ▸ (Option.filter_eq_some_iff.mp hcurrent).1
    · cases h

theorem search_up_spec {rows : Rows} (hrooted : Forest.Rooted (parentOf rows)) (hempty : ([] : Str) ∉ rows)
    {directory_id : Str} (hdirectory : directory_id ∈ rows) {fuel : Nat} {start current : Option Str} {seen : List Str}
    {found : Bool} (hsearched : Searched directory_id start current seen) (hcurrent : Current rows seen current)
    (h : search_up rows directory_id fuel current seen = some found) :
    found = true ↔ ∃ p, start = some p ∧ (p = directory_id ∨ Forest.Ancestor (parentOf rows) directory_id p) := by
  induction fuel generalizing current seen with
  | zero => cases h
  | succ fuel ih =>
    rw [search_up] at h
    split at h
    · rename_i hrefuse
      cases h
      refine iff_of_true rfl ?_
      -- what it came to is above the new parent, or is that
      have htop := loop_head_refuse hrefuse
      rcases hsearched.begun with ⟨rfl, rfl⟩ | ⟨first, hlast, hstart⟩
      · exact ⟨directory_id, htop, Or.inl rfl⟩
      · exact ⟨first, hstart, Or.inr (current_above (htop ▸ hcurrent) (List.mem_of_getLast? hlast))⟩
    · rename_i hover
      cases h
      refine iff_of_false Bool.false_ne_true ?_
      rintro ⟨p, hp, habove⟩
      obtain ⟨hne, hapart⟩ := apart_of_current hrooted hempty hdirectory hsearched hcurrent hover hp
      exact habove.elim hne hapart
    · rename_i id hread
      exact ih (hsearched.read hread) ⟨rfl, (loop_head_read hread).1 ▸ hcurrent⟩ h

/-- **The search decides** whether a move would close a cycle: in a forest it comes to an end, and finds the directory exactly if
the new parent is it or below it. -/
theorem search_up_iff {rows : Rows} (hrooted : Forest.Rooted (parentOf rows))
    (hempty : ([] : Str) ∉ rows) {directory_id : Str}
    (hdirectory : directory_id ∈ rows) (new_parent_id : Option Str) :
    ∃ found, search_up rows directory_id (rows.size + 2) new_parent_id [] = some found ∧
      (found = true ↔
        ∃ p, new_parent_id = some p ∧ (p = directory_id ∨ Forest.Ancestor (parentOf rows) directory_id p)) := by
  have hends : ∃ found, search_up rows directory_id (rows.size + 2) new_parent_id [] = some found :=
    search_up_ends rows directory_id new_parent_id List.nodup_nil (List.nil_subset _) (by simp [Dict.size, Dict.keys])
  obtain ⟨found, hfound⟩ := hends
  exact ⟨found, hfound, search_up_spec hrooted hempty hdirectory (.start _ _) trivial hfound⟩

end Knowledge
end MaterialOpenWebui
