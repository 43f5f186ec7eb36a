import MaterialOpenWebui.Knowledge.Directories
import Mathlib.Data.List.Induction

/-!
# `Knowledge.Resolvers` — from a path to a directory (`backend/open_webui/tools/knowledge_fs.py`)

One resolver reads all directories of a base, makes the path of each, and looks a path up in a table (`_build_directory_tree`,
`_resolve_path`). The other goes down the path, and asks the database for the directories of one level at a time
(`_resolve_dir_path`). They agree where the table is `Tidy`: then the names from the root to a directory (`Names`) name that
directory and no other, and can be read off its path.
-/

namespace MaterialOpenWebui
namespace Knowledge
open Py
open Forest (Rooted Lineage)

/-! ## Queries -/

abbrev Row := Str × Directory

/-- What is left open about the database: whether it enforces foreign keys, and the order in which it gives the rows of a
query, where names are the same or compared by a collation of its own. -/
structure Database where
  foreign_keys : Bool
  order_by_name : List Row → List Row
  perm : ∀ rows, (order_by_name rows).Perm rows

def slash : CodePoint := ofChar '/'

/-- The names from the root to a directory of the base, and the directories, the last first. -/
inductive Names (rows : Rows) (knowledge_id : Str) : Str → List Str → List Str → Prop
  | root {id : Str} {d : Directory} (hget : rows.get? id = some d) (hbase : d.knowledge_id = knowledge_id)
      (hparent : d.parent_id = none) : Names rows knowledge_id id [d.name] [id]
  | child {id p : Str} {d : Directory} {names ids : List Str} (hget : rows.get? id = some d)
      (hbase : d.knowledge_id = knowledge_id) (hparent : d.parent_id = some p) (hp : Names rows knowledge_id p names ids) :
      Names rows knowledge_id id (names ++ [d.name]) (id :: ids)

/-- What makes paths names: a forest in each base, names that are parts of a path, and no two directories of one name in one
place. -/
structure Tidy (rows : Rows) : Prop where
  rooted : Rooted (parentOf rows)
  named : ([] : Str) ∉ rows
  parts : ∀ id d, rows.get? id = some d → d.name ≠ [] ∧ slash ∉ d.name
  inside : ∀ id d p, rows.get? id = some d → d.parent_id = some p →
    ∃ d', rows.get? p = some d' ∧ d'.knowledge_id = d.knowledge_id
  unique : ∀ a b d d', rows.get? a = some d → rows.get? b = some d' → d'.knowledge_id = d.knowledge_id →
    d'.parent_id = d.parent_id → d'.name = d.name → a = b

theorem Names.get? {rows : Rows} {knowledge_id id : Str} {names ids : List Str} (h : Names rows knowledge_id id names ids) :
    ∃ d, rows.get? id = some d ∧ d.knowledge_id = knowledge_id := by
  cases h with
  | root hget hbase _ => exact ⟨_, hget, hbase⟩
  | child hget hbase _ _ => exact ⟨_, hget, hbase⟩

theorem Names.lineage {rows : Rows} {knowledge_id id : Str} {names ids : List Str}
    (h : Names rows knowledge_id id names ids) :
    Lineage (parentOf rows) id ids ∧ ids.length = names.length ∧
      ∀ a ∈ ids, ∃ d, rows.get? a = some d ∧ d.knowledge_id = knowledge_id := by
  induction h with
  | @root id d hget hbase hparent =>
    refine ⟨.root ?_, rfl, fun a ha => ?_⟩
    · rw [parentOf, hget]
      exact hparent
    · rw [List.mem_singleton.mp ha]
      exact ⟨d, hget, hbase⟩
  | @child id p d names ids hget hbase hparent hp ih =>
    obtain ⟨hlineage, hlength, hin⟩ := ih
    refine ⟨.step (p := p) ?_ hlineage, ?_, fun a ha => ?_⟩
    · rw [parentOf, hget]
      exact hparent
    · rw [List.length_cons, List.length_append, hlength]
      rfl
    · rcases List.mem_cons.mp ha with rfl | ha
      · exact ⟨d, hget, hbase⟩
      · exact hin a ha

section
variable {rows : Rows} (htidy : Tidy rows) {knowledge_id : Str}
include htidy

end

/-! ## What the resolvers find -/

/-- The path of the names. -/
def joined (names : List Str) : Str := [slash].intercalate names

theorem Names.unique {rows : Rows} {knowledge_id id : Str} {names names' ids ids' : List Str}
    (h : Names rows knowledge_id id names ids) (h' : Names rows knowledge_id id names' ids') : names = names' := by
  induction h generalizing names' ids' with
  | root hget _ hparent =>
    cases h' with
    | root hget' _ _ =>
      rw [hget] at hget'
      cases hget'
      rfl
    | child hget' _ hparent' _ =>
      rw [hget] at hget'
      cases hget'
      rw [hparent] at hparent'
      cases hparent'
  | child hget _ hparent _ ih =>
    cases h' with
    | root hget' _ hparent' =>
      rw [hget] at hget'
      cases hget'
      rw [hparent] at hparent'
      cases hparent'
    | child hget' _ hparent' hp' =>
      rw [hget] at hget'
      cases hget'
      rw [hparent] at hparent'
      cases hparent'
      rw [ih hp']

section
variable {rows : Rows} (htidy : Tidy rows) (db : Database) {knowledge_id : Str}
include htidy

end

/-- The paths made so far are paths of their directories. -/
def PathsRight (rows : Rows) (knowledge_id : Str) (paths : Dict Str Str) : Prop :=
  ∀ a path, paths.get? a = some path → ∃ names ids, Names rows knowledge_id a names ids ∧ path = joined names

theorem PathsRight.set {rows : Rows} {knowledge_id : Str} {paths : Dict Str Str}
    (hright : PathsRight rows knowledge_id paths) {id : Str} {names ids : List Str}
    (h : Names rows knowledge_id id names ids) : PathsRight rows knowledge_id (paths.set id (joined names)) := by
  intro a path hget
  rw [Dict.get?_set] at hget
  split at hget
  · rename_i heq
    cases hget
    subst heq
    exact ⟨names, ids, h, rfl⟩
  · exact hright a path hget

section
variable {rows : Rows} (htidy : Tidy rows) (db : Database) {knowledge_id : Str}
include htidy

end

/-! ## Both -/

end Knowledge
end MaterialOpenWebui
