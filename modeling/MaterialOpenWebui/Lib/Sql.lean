import Mathlib.Data.List.Basic

/-!
# `Lib.Sql` — the conditions of a query, in three values

A comparison with NULL is neither true nor false, and a query keeps the rows whose condition is true. What a
proof needs of the third value is little: a conjunction is true when all of it is, a disjunction when one of
it is, whatever else in it is unknown.
-/

namespace Sql

variable {α β : Type}

/-! ## Truth -/

inductive Truth where
  | yes
  | no
  | unknown
  deriving DecidableEq, Repr

namespace Truth

def ofBool : Bool → Truth
  | true => yes
  | false => no

/-- A `WHERE` keeps the row. -/
def kept : Truth → Bool
  | yes => true
  | _ => false

def not : Truth → Truth
  | yes => no
  | no => yes
  | unknown => unknown

def and : Truth → Truth → Truth
  | no, _ => no
  | _, no => no
  | yes, yes => yes
  | _, _ => unknown

def or : Truth → Truth → Truth
  | yes, _ => yes
  | _, yes => yes
  | no, no => no
  | _, _ => unknown

/-- A conjunction of any number of conditions. -/
def all (ts : List Truth) : Truth := ts.foldr and yes

/-- A disjunction of any number of conditions. -/
def any (ts : List Truth) : Truth := ts.foldr or no

@[simp] theorem kept_ofBool (b : Bool) : (ofBool b).kept = b := by cases b <;> rfl

@[simp] theorem kept_not_ofBool (b : Bool) : (ofBool b).not.kept = !b := by cases b <;> rfl

@[simp] theorem kept_and (a b : Truth) : (a.and b).kept = (a.kept && b.kept) := by
  cases a <;> cases b <;> rfl

@[simp] theorem kept_or (a b : Truth) : (a.or b).kept = (a.kept || b.kept) := by
  cases a <;> cases b <;> rfl

theorem kept_all (ts : List Truth) : (all ts).kept = ts.all kept := by
  induction ts with
  | nil => rfl
  | cons t ts ih => rw [List.all_cons, ← ih, ← kept_and]; rfl

theorem kept_any (ts : List Truth) : (any ts).kept = ts.any kept := by
  induction ts with
  | nil => rfl
  | cons t ts ih => rw [List.any_cons, ← ih, ← kept_or]; rfl

end Truth

/-! ## Comparisons -/

section
variable [DecidableEq α]

/-- `column = value`. -/
def eq (column : Option α) (value : α) : Truth :=
  match column with
  | some a => .ofBool (a = value)
  | none => .unknown

/-- `column <> value`. -/
def ne (column : Option α) (value : α) : Truth := (eq column value).not

/-- `column IN (values)`, which is false of no values. -/
def isIn (column : Option α) (values : List α) : Truth := .any (values.map (eq column))

@[simp] theorem kept_eq (column : Option α) (value : α) : (eq column value).kept = true ↔ column = some value := by
  cases column with
  | none => simp [eq, Truth.kept]
  | some a => simp [eq]

@[simp] theorem kept_isIn (column : Option α) (values : List α) :
    (isIn column values).kept = true ↔ ∃ value ∈ values, column = some value := by
  rw [isIn, Truth.kept_any, List.any_eq_true]
  simp only [List.mem_map, exists_exists_and_eq_and, kept_eq]

end

/-! ## Queries -/

/-- `SELECT … WHERE condition`. -/
def select (rows : List α) (condition : α → Truth) : List α := rows.filter fun row => (condition row).kept

/-- `EXISTS (SELECT … WHERE condition)`, which is never unknown. -/
def exists_ (rows : List α) (condition : α → Truth) : Truth := .ofBool (rows.any fun row => (condition row).kept)

@[simp] theorem mem_select {rows : List α} {condition : α → Truth} {row : α} :
    row ∈ select rows condition ↔ row ∈ rows ∧ (condition row).kept = true := List.mem_filter

@[simp] theorem kept_exists (rows : List α) (condition : α → Truth) :
    (exists_ rows condition).kept = true ↔ ∃ row ∈ rows, (condition row).kept = true := by
  rw [exists_, Truth.kept_ofBool, List.any_eq_true]

/-- A row is found if and only if one is selected. -/
theorem head?_select_isSome {rows : List α} {condition : α → Truth} :
    (select rows condition).head?.isSome = true ↔ ∃ row ∈ rows, (condition row).kept = true := by
  have hfound : (select rows condition).head?.isSome = true ↔ ∃ row, row ∈ select rows condition := by
    cases select rows condition with
    | nil => simp
    | cons row rest => simp
  rw [hfound]
  simp only [mem_select]

end Sql
