import MaterialOpenWebui.Js.Text

/-!
# `Site.Selection` — several rows at once (`docs/assets/js/selection.js`, `bulk.js`)

A selection is a set of identifiers that outlives the view it was made in and the rows it was made of. Before a bulk action
runs, the bar counts what the action is about to touch: the rows selected in the view, those selected out of it, and the
identifiers of rows that are gone, which it says it will skip.

Lower case is given. What the dialog looks like besides its texts is left out.
-/

namespace MaterialOpenWebui
namespace Site
namespace Bulk
open Js

/-! ## Selections -/

/-- The identifiers that are selected, each once, in the order in which they were. -/
structure Selection (α : Type) where
  ids : List α
  nodup : ids.Nodup

namespace Selection
variable {α : Type} [DecidableEq α]

/-- `next.add(id)`. -/
def insert (selection : Selection α) (id : α) : Selection α :=
  if h : id ∈ selection.ids then selection
  else ⟨selection.ids ++ [id], List.nodup_append.mpr ⟨selection.nodup, List.nodup_singleton id, by
    intro a ha b hb heq
    rw [List.mem_singleton.mp hb] at heq
    exact h (heq ▸ ha)⟩⟩

/-- `next.delete(id)`. -/
def delete (selection : Selection α) (id : α) : Selection α :=
  ⟨selection.ids.filter (· ≠ id), selection.nodup.sublist List.filter_sublist⟩

def clear : Selection α := ⟨[], List.nodup_nil⟩

def add (selection : Selection α) (ids : List α) : Selection α := ids.foldl insert selection

def remove (selection : Selection α) (ids : List α) : Selection α := ids.foldl delete selection

def create (ids : List α) : Selection α := add clear ids

def has (selection : Selection α) (id : α) : Bool := decide (id ∈ selection.ids)

def toggle (selection : Selection α) (id : α) : Selection α :=
  if selection.has id then selection.delete id else selection.insert id

def selectAllInScope (selection : Selection α) (scopeIds : List α) : Selection α := selection.add scopeIds

def clearInScope (selection : Selection α) (scopeIds : List α) : Selection α := selection.remove scopeIds

def invertInScope (selection : Selection α) (scopeIds : List α) : Selection α := scopeIds.foldl toggle selection

/-- What was clicked with the shift key, in the order of the view. -/
def selectRange (selection : Selection α) (scopeIds : List α) (fromId toId : α) : Selection α :=
  match scopeIds.idxOf? fromId, scopeIds.idxOf? toId with
  | some a, some b => selection.add ((scopeIds.drop (min a b)).take (max a b + 1 - min a b))
  | _, _ => selection

/-- Drops what is selected of rows that no longer exist. -/
def prune (selection : Selection α) (allIds : List α) : Selection α :=
  ⟨selection.ids.filter (· ∈ allIds), selection.nodup.sublist List.filter_sublist⟩

/-- The selected items, in the order of the underlying list. -/
def selected {β : Type} (selection : Selection α) (allItems : List β) (idOf : β → α) : List β :=
  allItems.filter fun item => selection.has (idOf item)

variable {selection : Selection α}

@[simp] theorem mem_insert {id x : α} : x ∈ (selection.insert id).ids ↔ x ∈ selection.ids ∨ x = id := by
  unfold insert
  split
  · rename_i h
    refine ⟨Or.inl, ?_⟩
    rintro (hx | rfl)
    · exact hx
    · exact h
  · simp

@[simp] theorem mem_delete {id x : α} : x ∈ (selection.delete id).ids ↔ x ∈ selection.ids ∧ x ≠ id := by
  simp [delete]

@[simp] theorem mem_add {ids : List α} {x : α} : x ∈ (selection.add ids).ids ↔ x ∈ selection.ids ∨ x ∈ ids := by
  unfold add
  induction ids generalizing selection with
  | nil => simp
  | cons id ids ih => rw [List.foldl_cons, ih, mem_insert, List.mem_cons, or_assoc]

@[simp] theorem mem_remove {ids : List α} {x : α} : x ∈ (selection.remove ids).ids ↔ x ∈ selection.ids ∧ x ∉ ids := by
  unfold remove
  induction ids generalizing selection with
  | nil => simp
  | cons id ids ih => rw [List.foldl_cons, ih, mem_delete, List.mem_cons, not_or, and_assoc]

@[simp] theorem mem_prune {allIds : List α} {x : α} : x ∈ (selection.prune allIds).ids ↔ x ∈ selection.ids ∧ x ∈ allIds := by
  simp [prune]

end Selection

/-! ## Counting -/

/-- What the loop over a selection counts. -/
structure Counts where
  visible : Nat
  hidden : Nat
  stale : Nat

/-- What a bulk action is about to touch. -/
structure Summary where
  selected : Nat
  visible : Nat
  hidden : Nat
  stale : Nat
  inScope : Nat
  allInScopeSelected : Bool
  noneInScopeSelected : Bool
deriving DecidableEq

section
variable {α : Type} [DecidableEq α]

def Counts.count (scopeIds : List α) (allIds : Option (List α)) (n : Counts) (id : α) : Counts :=
  if allIds.any (id ∉ ·) then { n with stale := n.stale + 1 }
  else if id ∈ scopeIds then { n with visible := n.visible + 1 }
  else { n with hidden := n.hidden + 1 }

def summary (selection : Selection α) (scopeIds : List α) (allIds : Option (List α)) : Summary :=
  let n := selection.ids.foldl (Counts.count scopeIds allIds) ⟨0, 0, 0⟩
  { selected := n.visible + n.hidden
    visible := n.visible
    hidden := n.hidden
    stale := n.stale
    inScope := scopeIds.length
    allInScopeSelected := decide (scopeIds ≠ []) && scopeIds.all selection.has
    noneInScopeSelected := scopeIds.all fun id => !selection.has id }

/-- The identifiers that are counted as selected: of rows that exist. -/
def counted (selection : Selection α) (allIds : List α) : List α := selection.ids.filter (· ∈ allIds)

/-- The identifiers that are said to be skipped. -/
def skipped (selection : Selection α) (allIds : List α) : List α := selection.ids.filter (· ∉ allIds)

theorem foldl_count (scopeIds allIds ids : List α) (n : Counts) :
    ids.foldl (Counts.count scopeIds (some allIds)) n =
      ⟨n.visible + ((ids.filter (· ∈ allIds)).filter (· ∈ scopeIds)).length,
        n.hidden + ((ids.filter (· ∈ allIds)).filter (· ∉ scopeIds)).length,
        n.stale + (ids.filter (· ∉ allIds)).length⟩ := by
  induction ids generalizing n with
  | nil => rfl
  | cons id ids ih =>
    rw [List.foldl_cons, ih]
    by_cases hall : id ∈ allIds <;> by_cases hscope : id ∈ scopeIds <;> simp [Counts.count, hall, hscope] <;> omega

/-- **The numbers of the summary** are of the identifiers counted, and of those skipped. -/
theorem summary_spec (selection : Selection α) (scopeIds allIds : List α) :
    (summary selection scopeIds (some allIds)).selected = (counted selection allIds).length ∧
      (summary selection scopeIds (some allIds)).hidden = ((counted selection allIds).filter (· ∉ scopeIds)).length ∧
      (summary selection scopeIds (some allIds)).stale = (skipped selection allIds).length := by
  have hsplit := List.length_eq_length_filter_add (l := counted selection allIds) (fun id => decide (id ∈ scopeIds))
  simp only [summary, foldl_count, Nat.zero_add]
  refine ⟨?_, rfl, rfl⟩
  rw [hsplit]
  simp [counted]

end

/-! ## Sentences -/

/-- `/[^aeiou]y$/`. -/
def endsInY (noun : JsString) : Bool :=
  match noun.reverse with
  | y :: before :: _ => [y] = js "y" && !(js "aeiou").contains before
  | _ => false

/-- `/(s|x|z|ch|sh)$/`. -/
def endsInSibilant (noun : JsString) : Bool :=
  [js "s", js "x", js "z", js "ch", js "sh"].any (·.isSuffixOf noun)

/-- A count with its noun. -/
def plural (n : Nat) (noun : JsString) (pluralForm : Option JsString) : JsString :=
  if n = 1 then natText n ++ js " " ++ noun
  else
    match pluralForm.filter (· ≠ []) with
    | some form => natText n ++ js " " ++ form
    | none =>
      if endsInY noun then natText n ++ js " " ++ noun.take (noun.length - 1) ++ js "ies"
      else if endsInSibilant noun then natText n ++ js " " ++ noun ++ js "es"
      else natText n ++ js " " ++ noun ++ js "s"

/-- The sentence a surface must show before a bulk action runs. -/
def describeScope (sum : Summary) (verb noun : JsString) (nounPlural : Option JsString) : JsString :=
  if sum.selected = 0 then js "Nothing is selected."
  else if sum.hidden = 0 then
    js "This will " ++ verb ++ js " " ++ plural sum.selected noun nounPlural ++ js ", all of which are visible."
  else
    js "This will " ++ verb ++ js " " ++ plural sum.selected noun nounPlural ++ js ", and " ++ natText sum.hidden ++
      js " of them " ++ (if sum.hidden = 1 then js "is" else js "are") ++ js " not visible under the current filter."

example : plural 2 (js "entry") none = js "2 entries" := by decide

/-! ## The bar -/

structure Action where
  label : JsString
  danger : Bool
  /-- Absent where it is not given. -/
  confirm : Option Bool

/-- The dialog of an action, and what its confirmation passes to the action. -/
structure Dialog (α : Type) where
  title : JsString
  emoji : JsString
  scope : JsString
  outOfView : Option JsString
  skips : Option JsString
  passes : List α

/-- What a press of an action does. -/
inductive Pressed (α : Type) where
  | ran (ids : List α)
  | asked (dialog : Dialog α)

section
variable {α : Type} [DecidableEq α] (lower : JsString → JsString) (noun : JsString) (nounPlural : Option JsString)

/-- `run(action)` of a bar. -/
def run (selection : Selection α) (scopeIds allIds : List α) (action : Action) : Pressed α :=
  let sum := summary selection scopeIds (some allIds)
  let ids := selection.ids
  if sum.hidden ≠ 0 ∨ (action.confirm ≠ some false ∧ action.danger = true) then
    .asked
      { title := action.label
        emoji := if action.danger then js "⚠️" else js "ℹ️"
        scope := describeScope sum (lower action.label) noun nounPlural
        outOfView :=
          if sum.hidden = 0 then none
          else some (js "They were selected before the current filter was applied. " ++
            js "They are still selected, and this will act on them.")
        skips :=
          if sum.stale = 0 then none
          else some (plural sum.stale noun nounPlural ++ js " selected " ++
            (if sum.stale = 1 then js "no longer exists" else js "no longer exist") ++ js " and will be skipped.")
        passes := ids }
  else .ran ids

/-- What is passed on is what was counted, and nothing of what is skipped. -/
structure Confirmed (selection : Selection α) (allIds passed : List α) : Prop where
  exactly : ∀ id, id ∈ passed ↔ id ∈ counted selection allIds
  skips : ∀ id ∈ skipped selection allIds, id ∉ passed

/-- The action asks before it runs: something is selected out of view, or it is dangerous and no dialog of its own. -/
def Asks (selection : Selection α) (scopeIds allIds : List α) (action : Action) : Prop :=
  (∃ id ∈ selection.ids, id ∈ allIds ∧ id ∉ scopeIds) ∨ (action.confirm ≠ some false ∧ action.danger = true)

theorem hidden_ne_zero {selection : Selection α} {scopeIds allIds : List α} :
    (summary selection scopeIds (some allIds)).hidden ≠ 0 ↔ ∃ id ∈ selection.ids, id ∈ allIds ∧ id ∉ scopeIds := by
  rw [(summary_spec selection scopeIds allIds).2.1, Nat.ne_zero_iff_zero_lt, List.length_pos_iff_exists_mem]
  simp [counted, and_comm]

variable {lower noun nounPlural}

/-- A dialog passes on all that is selected. -/
theorem run_asked {selection : Selection α} {scopeIds allIds : List α} {action : Action} {dialog : Dialog α}
    (h : run lower noun nounPlural selection scopeIds allIds action = .asked dialog) :
    Asks selection scopeIds allIds action ∧ dialog.passes = selection.ids := by
  simp only [run] at h
  split at h
  · rename_i hasks
    cases h
    exact ⟨hasks.imp_left hidden_ne_zero.mp, rfl⟩
  · cases h

theorem exists_asked {selection : Selection α} {scopeIds allIds : List α} {action : Action}
    (h : Asks selection scopeIds allIds action) :
    ∃ dialog, run lower noun nounPlural selection scopeIds allIds action = .asked dialog := by
  unfold run
  rw [if_pos (h.imp_left hidden_ne_zero.mpr)]
  exact ⟨_, rfl⟩

/-- All that is selected is what was counted as long as every row still exists. -/
theorem confirmed_ids_iff {selection : Selection α} {allIds : List α} :
    Confirmed selection allIds selection.ids ↔ ∀ id ∈ selection.ids, id ∈ allIds := by
  constructor
  · intro h id hid
    have hcounted := (h.exactly id).mp hid
    simpa [counted, hid] using hcounted
  · intro h
    refine ⟨fun id => ?_, fun id hid => ?_⟩
    · simpa [counted] using h id
    · have hstale : id ∈ selection.ids ∧ id ∉ allIds := by simpa [skipped] using hid
      exact absurd (h id hstale.1) hstale.2

/-- **An action acts on what was confirmed** if and only if, where it asks, no row that is selected is gone. -/
theorem confirmed_iff (lower : JsString → JsString) (noun : JsString) (nounPlural : Option JsString) (selection : Selection α)
    (scopeIds allIds : List α) (action : Action) :
    (∀ dialog, run lower noun nounPlural selection scopeIds allIds action = .asked dialog →
      Confirmed selection allIds dialog.passes) ↔
      (Asks selection scopeIds allIds action → ∀ id ∈ selection.ids, id ∈ allIds) := by
  constructor
  · intro h hasks
    obtain ⟨dialog, hdialog⟩ :
        ∃ dialog, run lower noun nounPlural selection scopeIds allIds action = .asked dialog := exists_asked hasks
    have hconfirmed := h dialog hdialog
    rw [(run_asked hdialog).2] at hconfirmed
    exact confirmed_ids_iff.mp hconfirmed
  · intro h dialog hdialog
    obtain ⟨hasks, hpasses⟩ := run_asked hdialog
    rw [hpasses]
    exact confirmed_ids_iff.mpr (h hasks)

/-- After a refresh every action acts on what was confirmed. -/
theorem confirmed_prune {selection : Selection α} {scopeIds allIds : List α} {action : Action} {dialog : Dialog α}
    (h : run lower noun nounPlural (selection.prune allIds) scopeIds allIds action = .asked dialog) :
    Confirmed (selection.prune allIds) allIds dialog.passes := by
  rw [(run_asked h).2, confirmed_ids_iff]
  exact fun id hid => (Selection.mem_prune.mp hid).2

end

def deleteAction : Action := ⟨js "Delete", true, none⟩

/-- The rows `a` and `b` were selected. -/
def twoRows : Selection JsString := .create [js "a", js "b"]

/-- One of two selected rows is gone: the dialog says that it is skipped, and passes it on. -/
theorem not_confirmed_stale : ∃ dialog : Dialog JsString,
    run (fun _ => js "delete") (js "entry") none twoRows [js "a"] [js "a"] deleteAction = .asked dialog ∧
      dialog.scope = js "This will delete 1 entry, all of which are visible." ∧
      dialog.skips = some (js "1 entry selected no longer exists and will be skipped.") ∧
      dialog.passes = [js "a", js "b"] ∧ ¬ Confirmed twoRows [js "a"] dialog.passes := by
  refine ⟨_, rfl, by decide +kernel, by decide +kernel, by decide, fun h => ?_⟩
  have hskips := h.skips (js "b") (by decide)
  exact hskips (by decide)

end Bulk
end Site
end MaterialOpenWebui
