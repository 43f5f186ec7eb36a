import MaterialOpenWebui.Schedule.Document

/-!
# `Schedule.Editor` — the editor of the schedule (`app/js/schedule-ui.js`)

The editor shows the stored schedule and saves a new one with each change. A schedule that does not validate is shown as an empty
one, with a message that the rules have not been deleted. So the next rule that is added replaces them all.
-/

namespace MaterialOpenWebui
namespace Schedule
open Js JsValue

section
variable (number : JsString → JsNumber) (zones : JsString → Option (Int → Int))

/-! ## The editor -/

/-- The schedule that is shown, and what is wrong with the stored one. `localZone` is the time zone of the system. -/
def current (localZone : JsString) (stored : JsValue) : Doc × Option JsString :=
  if ¬ stored.truthy then (⟨localZone, []⟩, none)
  else match validate number zones stored with
    | .ok doc => (doc, none)
    | .error message => (⟨localZone, []⟩, some message)

/-- `save`: the schedule that is stored. -/
def save (doc : Doc) : Except JsString Doc := validate number zones doc.toValue

/-- The fields of the dialog. -/
structure Form where
  name : JsString
  startTime : JsString
  endTime : JsString
  startDate : JsString
  endDate : JsString
  days : List Nat
  patch : List (JsString × JsValue)

/-- `value || fallback` of a text. -/
def orText (value fallback : JsString) : JsString := if value = [] then fallback else value

/-- `value || null` of a text. -/
def orNull (value : JsString) : JsValue := if value = [] then .null else .str value

/-- `rule` is the identifier of the rule in the dialog, and whether it is switched on. -/
def collect (id : JsString) (enabled : Bool) (form : Form) : Except JsString Rule :=
  validateRule number 0 (.obj [(js "id", .str id), (js "name", .str (orText (trim form.name) (js "Untitled rule"))),
    (js "startTime", .str (orText form.startTime (js "00:00"))), (js "endTime", .str (orText form.endTime (js "00:00"))),
    (js "startDate", orNull form.startDate), (js "endDate", orNull form.endDate),
    (js "days", .arr (form.days.map fun d => .num (.ofNat d))), (js "patch", .obj form.patch), (js "enabled", .bool enabled)])

/-- What can be done in the editor: add a rule under a new identifier, and change or delete the rule at a position. -/
inductive Edit where
  | add (id : JsString) (form : Form)
  | change (position : Nat) (form : Form)
  | delete (position : Nat)

/-- The position of the rule that is changed or deleted. -/
def Edit.target : Edit → Option Nat
  | .add _ _ => none
  | .change position _ => some position
  | .delete position => some position

/-- The rules after an edit; `none` where there is no such rule. -/
def Edit.rules (rules : List Rule) : Edit → Option (Except JsString (List Rule))
  | .add id form => some do
    let built ← collect number id true form
    return rules ++ [built]
  | .change position form => rules[position]?.map fun existing => do
    let built ← collect number existing.id existing.enabled form
    return rules.map fun rule => if rule.id = existing.id then built else rule
  | .delete position => rules[position]?.map fun existing => .ok (rules.filter fun rule => rule.id ≠ existing.id)

/-- The schedule that an edit saves, if it does. -/
def perform (localZone : JsString) (stored : JsValue) (edit : Edit) : Option (Except JsString Doc) :=
  let doc := (current number zones localZone stored).1
  (edit.rules number doc.rules).map fun rules => do
    let rules ← rules
    save number zones { doc with rules }

/-! ## The law -/

/-- A stored rule is kept as the rule that it reads as. -/
def Kept (input : JsValue) (rule : Rule) : Prop := ∃ shown, validateRule number 0 input = .ok shown ∧ rule = shown.settled

/-- Whatever is edited, the schedule that is saved has every stored rule but the one that was changed or deleted. -/
def Keeps (localZone : JsString) (stored : JsValue) : Prop :=
  ∀ edit saved, perform number zones localZone stored edit = some (.ok saved) →
    ∀ position input, (rulesOf stored)[position]? = some input → edit.target ≠ some position →
      ∃ rule ∈ saved.rules, Kept number input rule

end

section
variable {number : JsString → JsNumber} {zones : JsString → Option (Int → Int)}

theorem mem_of_save {doc saved : Doc} (h : save number zones doc = .ok saved) {rule : Rule} (hmem : rule ∈ doc.rules)
    (hrule : Accepted number rule) : rule.settled ∈ saved.rules :=
  mem_of_validate_toValue h hmem hrule

/-- **An edit** leaves every other rule where it is. -/
theorem mem_rules {rules rules' : List Rule} {edit : Edit} (hnodup : (rules.map Rule.id).Nodup)
    (h : edit.rules number rules = some (.ok rules')) {position : Nat} {rule : Rule} (hrule : rules[position]? = some rule)
    (htarget : edit.target ≠ some position) : rule ∈ rules' := by
  have hmem := List.mem_of_getElem? hrule
  have hother : ∀ {target existing}, rules[target]? = some existing → target ≠ position → rule.id ≠ existing.id := by
    intro target existing hexisting hne hid
    have hids : (rules.map Rule.id)[target]? = (rules.map Rule.id)[position]? := by
      rw [List.getElem?_map, List.getElem?_map, hexisting, hrule, Option.map_some, Option.map_some, hid]
    have hlt : target < (rules.map Rule.id).length := by
      rw [List.length_map]
      exact (List.getElem?_eq_some_iff.mp hexisting).1
    exact hne ((List.getElem?_inj hlt hnodup).mp hids)
  cases edit with
  | add id form =>
    obtain ⟨built, -, h⟩ := Run.bind_ok (Option.some.inj h)
    cases h
    exact List.mem_append_left _ hmem
  | change target form =>
    obtain ⟨existing, hexisting, h⟩ := Option.map_eq_some_iff.mp h
    obtain ⟨built, -, h⟩ := Run.bind_ok h
    cases h
    have hne : target ≠ position := fun heq => htarget (congrArg some heq)
    exact List.mem_map.mpr ⟨rule, hmem, if_neg (hother hexisting hne)⟩
  | delete target =>
    obtain ⟨existing, hexisting, h⟩ := Option.map_eq_some_iff.mp h
    cases h
    have hne : target ≠ position := fun heq => htarget (congrArg some heq)
    exact List.mem_filter.mpr ⟨hmem, decide_eq_true (hother hexisting hne)⟩

/-- A form that can be saved. -/
def weekend : Form where
  name := js "Weekend"
  startTime := js "00:00"
  endTime := js "00:00"
  startDate := []
  endDate := []
  days := [0, 6]
  patch := [(js "theme", .str (js "light"))]

def weekendRule (id : JsString) : Rule :=
  { id, name := js "Weekend", startTime := js "00:00", endTime := js "00:00", startDate :=
    none, endDate := none, days := [0, 6],
    patch := [(js "theme", .str (js "light"))], enabled := true }

/-- **The law of the editor.** The stored rules are kept exactly if the stored schedule validates, or has no rules. -/
theorem keeps_iff {localZone : JsString} (hzone : localZone ≠ [] ∧ zones localZone ≠ none) (stored : JsValue) :
    Keeps number zones localZone stored ↔ rulesOf stored = [] ∨ ∃ doc, validate number zones stored = .ok doc := by
  constructor
  · intro h
    by_contra hnot
    obtain ⟨hrules, hinvalid⟩ := not_or.mp hnot
    obtain ⟨input, inputs, hinputs⟩ := List.exists_cons_of_ne_nil hrules
    have hcurrent : (current number zones localZone stored).1 = ⟨localZone, []⟩ := by
      unfold current
      split
      · rfl
      · split
        · rename_i doc hdoc
          exact absurd ⟨doc, hdoc⟩ hinvalid
        · rfl
    -- two rules that can be added, one of which is not the first stored one
    have hadd : ∀ id, collect number id true weekend = .ok (weekendRule id) → (∀ index, validateRule number index
        (weekendRule id).toValue = .ok (weekendRule id)) → Kept number input (weekendRule id) := by
      intro id hcollect hagain
      have hsave : save number zones ⟨localZone, [weekendRule id]⟩ = .ok ⟨localZone, [weekendRule id]⟩ := by
        refine validate_eq_ok_iff.mpr ⟨rfl, (by decide : isSchemaVersion (.num schemaVersion) = true), ?_, hzone.1, ?_,
          (by decide : 1 ≤ maxRules), ?_⟩
        · show toStrOrThrow ((JsValue.str localZone).or (.str [])) = .ok localZone
          rw [JsValue.or, if_pos (by simpa [JsValue.truthy] using hzone.1)]
          rfl
        · exact Option.isNone_eq_false_iff.mpr (Option.isSome_iff_ne_none.mpr hzone.2)
        · refine validateRules_eq_ok_iff.mpr ⟨.cons (hagain 0) .nil, List.nodup_singleton _, fun _ _ => List.not_mem_nil⟩
      have hperform : perform number zones localZone stored (.add id weekend) = some (.ok ⟨localZone, [weekendRule id]⟩) := by
        have hrules : (Edit.add id weekend).rules number [] = some (.ok [weekendRule id]) := by
          show some (collect number id true weekend >>= fun built => _) = _
          rw [hcollect]
          rfl
        unfold perform
        rw [hcurrent]
        show Option.map _ ((Edit.add id weekend).rules number []) = _
        rw [hrules]
        exact congrArg some hsave
      obtain ⟨rule, hrule, hkept⟩ := h _ _ hperform 0 input (by rw [hinputs]; rfl) (by simp [Edit.target])
      rwa [List.mem_singleton.mp hrule] at hkept
    obtain ⟨shown, hshown, hsettled⟩ := hadd (js "rule-a") rfl fun _ => rfl
    obtain ⟨shown', hshown', hsettled'⟩ := hadd (js "rule-b") rfl fun _ => rfl
    rw [hshown] at hshown'
    cases hshown'
    have hid : js "rule-a" = js "rule-b" := congrArg Rule.id (hsettled.trans hsettled'.symm)
    exact absurd hid (by decide)
  · rintro (hnone | ⟨doc, hdoc⟩) edit saved hperform position input hinput htarget
    · rw [hnone] at hinput
      cases hinput
    · obtain ⟨hobject, -, -, -, -, -, hvalid⟩ := validate_eq_ok_iff.mp hdoc
      obtain ⟨hall, hnodup, -⟩ := validateRules_eq_ok_iff.mp hvalid
      have hcurrent : (current number zones localZone stored).1 = doc := by
        have htruthy : stored.truthy = true := by
          cases stored <;> first | rfl | cases hobject
        unfold current
        rw [if_neg (not_not.mpr htruthy), hdoc]
      have hposition : position < doc.rules.length := by
        rw [← hall.length_eq]
        exact (List.getElem?_eq_some_iff.mp hinput).1
      have hshown : validateRule number 0 input = .ok doc.rules[position] := by
        have hget := List.Forall₂.get hall (i := position) (by rw [hall.length_eq]; exact hposition) hposition
        rw [List.getElem?_eq_some_iff] at hinput
        obtain ⟨hlt, rfl⟩ := hinput
        exact hget
      unfold perform at hperform
      rw [hcurrent] at hperform
      obtain ⟨result, hresult, hsaved⟩ := Option.map_eq_some_iff.mp hperform
      obtain ⟨rules', rfl, hsaved⟩ := Run.bind_ok hsaved
      have hmem := mem_rules hnodup hresult (List.getElem?_eq_getElem hposition) htarget
      exact ⟨_, mem_of_save hsaved hmem ⟨input, hshown⟩, doc.rules[position], hshown, rfl⟩

end

/-- A stored schedule with one rule. -/
def storedIn (timeZone : String) : JsValue :=
  .obj [(js "schema", .num schemaVersion), (js "timeZone", .str (js timeZone)),
    (js "rules", .arr [(weekendRule (js "mine")).toValue])]

/-- A system that knows one time zone. -/
def onlyUtc (timeZone : JsString) : Option (Int → Int) := if timeZone = js "UTC" then some fun _ => 0 else none

theorem keeps_utc : Keeps (fun _ => .nan) onlyUtc (js "UTC") (storedIn "UTC") :=
  (keeps_iff ⟨by decide, by decide⟩ _).mpr (.inr ⟨⟨js "UTC", [weekendRule (js "mine")]⟩, rfl⟩)

/-- The schedule has come from a system that knows another time zone. Adding a rule replaces the stored one. -/
theorem keeps_fails : ¬ Keeps (fun _ => .nan) onlyUtc (js "UTC") (storedIn "Asia/Hong_Kong") := by
  intro h
  have hsaved : perform (fun _ => .nan) onlyUtc (js "UTC") (storedIn "Asia/Hong_Kong") (.add (js "rule-x1y2z3") weekend) =
      some (.ok ⟨js "UTC", [weekendRule (js "rule-x1y2z3")]⟩) := rfl
  obtain ⟨rule, hrule, shown, hshown, hkept⟩ := h _ _ hsaved 0 _ rfl (by simp [Edit.target])
  have hmine : validateRule (fun _ => .nan) 0 (weekendRule (js "mine")).toValue = .ok (weekendRule (js "mine")) := rfl
  obtain rfl : weekendRule (js "mine") = shown := Except.ok.inj (hmine.symm.trans hshown)
  rw [List.mem_singleton.mp hrule] at hkept
  have hid : js "rule-x1y2z3" = js "mine" := congrArg Rule.id hkept
  exact absurd hid (by decide)

end Schedule
end MaterialOpenWebui
