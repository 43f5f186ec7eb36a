import MaterialOpenWebui.Js.Json
import MaterialOpenWebui.Schedule.Rule
import Mathlib.Data.List.Forall2

/-!
# `Schedule.Document` — a whole schedule and its validator (`app/js/core/schedule.js`)

`validate` reads a value as a schedule or refuses it with a reason. What it makes of a schedule is a value again, and validating
that one changes nothing but the name of a rule whose name is empty, which becomes its identifier.
-/

namespace MaterialOpenWebui
namespace Schedule
open Js JsValue

/-! ## Schedules -/

def schemaVersion : JsNumber := .ofNat 1
def maxRules : Nat := 64

/-- A schedule, with rules that have been validated. -/
structure Doc where
  timeZone : JsString
  rules : List Rule

/-- `value === 1` -/
def isSchemaVersion : JsValue → Bool
  | .num n => n == schemaVersion
  | _ => false

/-- `JSON.stringify(value)` inside a text. -/
def shown (v : JsValue) : JsString := ((stringify v).map ofChars).getD (js "undefined")

section
variable (number : JsString → JsNumber) (zones : JsString → Option (Int → Int))

/-- The rules of a schedule, with the identifiers that have been seen. -/
def validateRules : Nat → List JsString → List JsValue → Except JsString (List Rule)
  | _, _, [] => .ok []
  | index, seen, input :: inputs => do
    let rule ← validateRule number index input
    if rule.id ∈ seen then .error (js "Two rules share the identifier \"" ++ rule.id ++ js "\".")
    else do
      let rules ← validateRules (index + 1) (rule.id :: seen) inputs
      return rule :: rules

/-- `Array.isArray(document.rules) ? document.rules : []` -/
def rulesOf (document : JsValue) : List JsValue := (document.get (js "rules")).elemsOrNil

def validate (document : JsValue) : Except JsString Doc :=
  if ¬ document.isObject then .error (js "That is not a schedule.")
  else if ¬ isSchemaVersion (document.get (js "schema")) then
    .error (js "This build reads schedule schema version 1, and that document says " ++
      shown (document.get (js "schema")) ++ js ".")
  else do
    let timeZone ← toStrOrThrow ((document.get (js "timeZone")).or (.str []))
    if timeZone = [] then .error (js "A schedule must state the timezone its times are read in.")
    else if (zones timeZone).isNone then .error (js "\"" ++ timeZone ++ js "\" is not a timezone this system knows.")
    else if (rulesOf document).length > maxRules then
      .error (js "That schedule has " ++ natText (rulesOf document).length ++ js " rules, and the limit is 64.")
    else do
      let rules ← validateRules number 0 [] (rulesOf document)
      return { timeZone, rules }

/-- The rule as an object. -/
def Rule.toValue (rule : Rule) : JsValue :=
  .obj [(js "id", .str rule.id), (js "name", .str rule.name), (js "startTime", .str rule.startTime),
    (js "endTime", .str rule.endTime), (js "startDate", rule.startDate.getD .null), (js "endDate", rule.endDate.getD .null),
    (js "days", .arr (rule.days.map fun d => .num (.ofNat d))), (js "patch", .obj rule.patch),
      (js "enabled", .bool rule.enabled)]

def Doc.toValue (doc : Doc) : JsValue :=
  .obj [(js "schema", .num schemaVersion), (js "timeZone", .str doc.timeZone),
    (js "rules", .arr (doc.rules.map Rule.toValue))]

end

/-! ## What is accepted -/

section
variable {number : JsString → JsNumber} {zones : JsString → Option (Int → Int)}

/-- A rule that the validator has accepted. -/
def Accepted (number : JsString → JsNumber) (rule : Rule) : Prop := ∃ input, validateRule number 0 input = .ok rule

theorem validateRule_index {i j : Nat} {input : JsValue} {rule : Rule} (h : validateRule number i input = .ok rule) :
    validateRule number j input = .ok rule :=
  validateRule_of_normalises (normalises_of_validateRule h)

/-- **The rules** that are accepted together: each by itself, and no two under the same identifier. -/
theorem validateRules_eq_ok_iff {index : Nat} {seen : List JsString} {inputs : List JsValue} {rules : List Rule} :
    validateRules number index seen inputs = .ok rules ↔
      List.Forall₂ (fun input rule => validateRule number 0 input = .ok rule) inputs rules ∧
        (rules.map Rule.id).Nodup ∧ ∀ rule ∈ rules, rule.id ∉ seen := by
  induction inputs generalizing index seen rules with
  | nil =>
    constructor
    · intro h
      cases h
      exact ⟨.nil, List.nodup_nil, List.forall_mem_nil _⟩
    · rintro ⟨h, -, -⟩
      cases h
      rfl
  | cons input inputs ih =>
    rw [validateRules]
    constructor
    · intro h
      obtain ⟨rule, hrule, h⟩ := Run.bind_ok h
      split_ifs at h with hseen
      obtain ⟨rest, hrest, h⟩ := Run.bind_ok h
      cases h
      obtain ⟨hall, hnodup, hnew⟩ := ih.mp hrest
      refine ⟨.cons (validateRule_index hrule) hall, ?_, ?_⟩
      · rw [List.map_cons, List.nodup_cons]
        refine ⟨fun hmem => ?_, hnodup⟩
        obtain ⟨rule', hrule', hid⟩ := List.mem_map.mp hmem
        exact hnew rule' hrule' (hid ▸ List.mem_cons_self)
      · exact List.forall_mem_cons.mpr ⟨hseen, fun rule' hrule' hmem => hnew rule' hrule' (List.mem_cons_of_mem _ hmem)⟩
    · rintro ⟨hall, hnodup, hnew⟩
      cases hall with
      | cons hrule hall =>
        rename_i rule rest
        obtain ⟨hfirst, hlater⟩ := List.forall_mem_cons.mp hnew
        rw [List.map_cons, List.nodup_cons] at hnodup
        have hrest : validateRules number (index + 1) (rule.id :: seen) inputs = .ok rest := by
          refine ih.mpr ⟨hall, hnodup.2, fun rule' hrule' hmem => ?_⟩
          rcases List.mem_cons.mp hmem with hid | hmem
          · exact hnodup.1 (hid ▸ List.mem_map_of_mem hrule')
          · exact hlater rule' hrule' hmem
        rw [validateRule_index hrule]
        show (if rule.id ∈ seen then _ else _) = _
        rw [if_neg hfirst, hrest]
        rfl

/-- **A schedule** that is accepted. -/
theorem validate_eq_ok_iff {document : JsValue} {doc : Doc} : validate number zones document = .ok doc ↔
    document.isObject = true ∧ isSchemaVersion (document.get (js "schema")) = true ∧
      toStrOrThrow ((document.get (js "timeZone")).or (.str [])) = .ok doc.timeZone ∧ doc.timeZone ≠ [] ∧
      (zones doc.timeZone).isNone = false ∧ (rulesOf document).length ≤ maxRules ∧
      validateRules number 0 [] (rulesOf document) = .ok doc.rules := by
  unfold validate
  constructor
  · intro h
    by_cases hobject : document.isObject = true
    swap
    · rw [if_pos hobject] at h
      cases h
    by_cases hschema : isSchemaVersion (document.get (js "schema")) = true
    swap
    · rw [if_neg (not_not.mpr hobject), if_pos hschema] at h
      cases h
    rw [if_neg (not_not.mpr hobject), if_neg (not_not.mpr hschema)] at h
    obtain ⟨timeZone, htimeZone, h⟩ := Run.bind_ok h
    by_cases hempty : timeZone = []
    · rw [if_pos hempty] at h
      cases h
    by_cases hzone : (zones timeZone).isNone = true
    · rw [if_neg hempty, if_pos hzone] at h
      cases h
    by_cases hlength : (rulesOf document).length > maxRules
    · rw [if_neg hempty, if_neg hzone, if_pos hlength] at h
      cases h
    rw [if_neg hempty, if_neg hzone, if_neg hlength] at h
    obtain ⟨rules, hrules, h⟩ := Run.bind_ok h
    cases h
    exact ⟨hobject, hschema, htimeZone, hempty, Bool.eq_false_iff.mpr hzone, Nat.le_of_not_lt hlength, hrules⟩
  · rintro ⟨hobject, hschema, htimeZone, hempty, hzone, hlength, hrules⟩
    rw [if_neg (not_not.mpr hobject), if_neg (not_not.mpr hschema), htimeZone]
    show (if doc.timeZone = [] then _ else _) = _
    rw [if_neg hempty, if_neg (Bool.eq_false_iff.mp hzone), if_neg (Nat.not_lt.mpr hlength), hrules]
    rfl

/-! ## Validating twice -/

/-- A rule whose name is empty is called by its identifier. -/
def Rule.settled (rule : Rule) : Rule := { rule with name := if rule.name = [] then rule.id else rule.name }

theorem trim_eq_self {s : JsString} (h : ∀ u ∈ s, isSpace u = false) : trim s = s := by
  have hdrop : ∀ {t : JsString}, (∀ u ∈ t, isSpace u = false) → t.dropWhile isSpace = t := by
    intro t ht
    cases t with
    | nil => rfl
    | cons u t => rw [List.dropWhile_cons_of_neg (by simp [ht u List.mem_cons_self])]
  rw [trim, hdrop h, hdrop fun u hu => h u (List.mem_reverse.mp hu), List.reverse_reverse]

theorem isSpace_of_isIdUnit {u : UInt16} (h : isIdUnit u = true) : isSpace u = false := by
  have hsmall : u.toNat < 0x80 := by
    simp only [isIdUnit, Bool.or_eq_true, Bool.and_eq_true, decide_eq_true_eq, beq_iff_eq, UInt16.le_iff_toNat_le,
      ← UInt16.toNat_inj, UInt16.reduceToNat] at h
    omega
  rw [Bool.eq_false_iff]
  intro hspace
  simp only [isSpace, List.contains_eq_mem, List.mem_cons, List.not_mem_nil, or_false, Bool.or_eq_true, Bool.and_eq_true,
    decide_eq_true_eq] at hspace
  rcases hspace with hspace | ⟨hlow, -⟩
  · rcases hspace with rfl | rfl | rfl | rfl | rfl | rfl | rfl | rfl | rfl | rfl | rfl | rfl | rfl | rfl <;>
      exact absurd h (by decide)
  · have hlow := UInt16.le_iff_toNat_le.mp hlow
    have hbound : (0x2000 : UInt16).toNat = 0x2000 := rfl
    omega

theorem readDate_twice {v : JsValue} {date : Option JsValue} (h : readDate v = .ok date) :
    readDate (date.getD .null) = .ok date := by
  cases date with
  | none => rfl
  | some d =>
    have hd : v.truthy = true ∧ parseDate v = .ok d := by
      unfold readDate at h
      split at h
      · rename_i htruthy
        obtain ⟨d', hd', h⟩ := Run.bind_ok h
        cases h
        exact ⟨htruthy, hd'⟩
      · cases h
    have hv : v = d := by
      have hparse := hd.2
      unfold parseDate at hparse
      obtain ⟨s, -, hparse⟩ := Run.bind_ok hparse
      split at hparse
      · cases hparse
        rfl
      · obtain ⟨shown, -, hparse⟩ := Run.bind_ok hparse
        cases hparse
    rw [← hv]
    rwa [hv] at h ⊢

theorem sortedSet_sortedSet (days : List Nat) : sortedSet (sortedSet days) = sortedSet days := by
  have hnodup : (sortedSet days).Nodup := (List.perm_insertionSort _ _).nodup_iff.mpr (List.nodup_dedup days)
  have hsorted : (sortedSet days).Pairwise (· ≤ ·) := List.pairwise_insertionSort _ _
  rw [sortedSet, hnodup.dedup, hsorted.insertionSort_eq]

theorem sortedSet_of_readDays {id : JsString} {v : JsValue} {days : List Nat} (h : readDays number id v = .ok days) :
    days ≠ [] ∧ sortedSet days = days := by
  unfold readDays at h
  simp only at h
  split at h
  · cases h
  · split at h
    · cases h
    · split_ifs at h with hempty
      split at h
      · cases h
      · rename_i numbers _ given hgiven
        cases h
        refine ⟨fun hnil => hempty ?_, sortedSet_sortedSet given⟩
        have hgivennil : given = [] := by
          refine List.eq_nil_iff_forall_not_mem.mpr fun d hd => ?_
          have hmem : d ∈ sortedSet given := (List.mem_insertionSort _).mpr (List.mem_dedup.mpr hd)
          rw [hnil] at hmem
          exact absurd hmem List.not_mem_nil
        have hlength := (AllSome.mapM_eq_some_iff.mp hgiven).length_eq
        rw [hgivennil] at hlength
        exact List.length_eq_zero_iff.mp hlength

theorem readDays_twice {id : JsString} {v : JsValue} {days : List Nat} (h : readDays number id v = .ok days) :
    readDays number id (.arr (days.map fun d => .num (.ofNat d))) = .ok days := by
  obtain ⟨hne, hsorted⟩ := sortedSet_of_readDays h
  have hweekday : ∀ d < 7, weekdayOf (.ofNat d) = some d := by decide
  have hnumbers : (days.map fun d => JsValue.num (.ofNat d)).mapM (toNumber number) = some (days.map JsNumber.ofNat) := by
    rw [AllSome.mapM_eq_map (g := fun v => (v.toNumber number).getD .nan)]
    · rw [List.map_map]
      rfl
    · intro v hv
      obtain ⟨d, -, rfl⟩ := List.mem_map.mp hv
      rfl
  have hdays : (days.map JsNumber.ofNat).mapM weekdayOf = some days := by
    rw [AllSome.mapM_eq_some_iff, List.forall₂_map_left_iff]
    exact List.forall₂_same.mpr fun d hd => hweekday d (readDays_lt h d hd)
  have hne' : days.map JsNumber.ofNat ≠ [] := fun hnil => hne (List.map_eq_nil_iff.mp hnil)
  unfold readDays
  simp only [hnumbers, if_neg hne', hdays, hsorted]

/-- **A rule that has been accepted** is accepted again. -/
theorem validateRule_toValue {rule : Rule} (h : Accepted number rule) (index : Nat) :
    validateRule number index rule.toValue = .ok rule.settled := by
  obtain ⟨input, h⟩ := h
  have hn := normalises_of_validateRule h
  obtain ⟨text, -, htrim, hne, hlength, hunits⟩ := readId_eq_ok_iff.mp hn.id
  obtain ⟨name, -, hname⟩ := hn.name
  obtain ⟨-, hpatchne, hpatchlength, hrefused⟩ := patch_of_readPatch hn.patch
  have hor : (JsValue.str rule.id).or (.str []) = .str rule.id := by
    rw [JsValue.or, if_pos (by simpa [JsValue.truthy] using hne)]
  refine validateRule_of_normalises (i := index) ⟨rfl, readId_eq_ok_iff.mpr ⟨rule.id, ?_, ?_, hne, hlength, hunits⟩,
    ⟨rule.settled.name, ?_, ?_⟩, rfl, rfl, hn.start, hn.finish, readDate_twice hn.startDate, readDate_twice hn.endDate,
    hn.forwards, readDays_twice hn.days, ?_, ?_⟩
  · show toStrOrThrow ((JsValue.str rule.id).or (.str [])) = _
    rw [hor]
    rfl
  · exact trim_eq_self fun u hu => isSpace_of_isIdUnit (List.all_eq_true.mp hunits u hu)
  · show toStrOrThrow ((JsValue.str rule.name).or (.str rule.id)) = .ok (if rule.name = [] then rule.id else rule.name)
    rw [JsValue.or]
    by_cases hempty : rule.name = []
    · rw [if_pos hempty, if_neg (by simp [JsValue.truthy, hempty])]
      rfl
    · rw [if_neg hempty, if_pos (by simpa [JsValue.truthy] using hempty)]
      rfl
  · show (if rule.name = [] then rule.id else rule.name) = (if rule.name = [] then rule.id else rule.name).take maxNameLength
    split
    · rw [List.take_of_length_le (Nat.le_trans hlength (by decide))]
    · rw [hname, List.take_take, Nat.min_self]
  · show readPatch rule.id (.obj rule.patch) = .ok rule.patch
    unfold readPatch
    simp only [JsValue.isObject, if_true, entriesOf, if_neg (Nat.not_lt.mpr hpatchlength), hrefused, if_neg hpatchne]
  · show rule.enabled = !(JsValue.bool rule.enabled).isFalse
    cases rule.enabled <;> rfl

/-- **A schedule made of accepted rules** keeps them when it is validated. -/
theorem mem_of_validate_toValue {doc saved : Doc} (h : validate number zones doc.toValue = .ok saved) {rule : Rule}
    (hmem : rule ∈ doc.rules) (hrule : Accepted number rule) : rule.settled ∈ saved.rules := by
  obtain ⟨-, -, -, -, -, -, hrules⟩ := validate_eq_ok_iff.mp h
  have hall := (validateRules_eq_ok_iff.mp hrules).1
  obtain ⟨rule', hrule', hsettled⟩ := (AllSome.forall_mem_of_forall₂ hall).1 _ (List.mem_map_of_mem hmem)
  rw [validateRule_toValue hrule] at hsettled
  cases hsettled
  exact hrule'

end

end Schedule
end MaterialOpenWebui
