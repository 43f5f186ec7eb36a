import MaterialOpenWebui.Knowledge.Resolvers
import MaterialOpenWebui.Knowledge.Moves

/-!
# `Knowledge.Paths` — directories that are created, renamed and moved

The constraint of the table keeps two directories of one parent from having one name, but not two at the root, for which the
parent is NULL. Nor is a name looked at: it may be empty, or hold the separator of paths; and a parent may be of another base.
Operations that do none of these keep the table tidy, and in a tidy table paths name one directory.
-/

namespace MaterialOpenWebui
namespace Knowledge
open Py
open Forest (Ancestor Rooted)

/-! ## The system -/

inductive Op where
  | create (id knowledge_id name : Str) (parent_id : Option Str)
  | rename (id name : Str)
  | move (id : Str) (new_parent_id : Option Str)

/-- No directory has the id, no directory names it as its parent, and the new one does not either; an id is not empty. -/
def Unused (rows : Rows) (id : Str) (parent_id : Option Str) : Prop :=
  id ≠ [] ∧ id ∉ rows ∧ (∀ row ∈ rows.items, row.2.parent_id ≠ some id) ∧ parent_id ≠ some id

instance (rows : Rows) (id : Str) (parent_id : Option Str) : Decidable (Unused rows id parent_id) :=
  inferInstanceAs (Decidable (_ ∧ _ ∧ _ ∧ _))

/-- `uuid4` draws no id that is in use. -/
def apply (db : Database) (rows : Rows) : Op → Rows
  | .create id knowledge_id name parent_id =>
      if Unused rows id parent_id then create_directory db.foreign_keys rows id knowledge_id name parent_id else rows
  | .rename id name => rename_directory db.foreign_keys rows id name
  | .move id new_parent_id => move_directory db.foreign_keys rows id new_parent_id

/-! ## Neat operations -/

/-- A parent is a directory of the base. -/
def Inside (rows : Rows) (knowledge_id : Str) (parent_id : Option Str) : Prop :=
  ∀ p, parent_id = some p → ∃ d, rows.get? p = some d ∧ d.knowledge_id = knowledge_id

/-- The name can be a part of a path. -/
def IsPart (name : Str) : Prop := name ≠ [] ∧ slash ∉ name

end Knowledge
end MaterialOpenWebui
