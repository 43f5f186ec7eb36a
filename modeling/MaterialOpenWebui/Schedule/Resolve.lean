import MaterialOpenWebui.Lib.StableSort
import MaterialOpenWebui.Schedule.Document
import MaterialOpenWebui.Schedule.Evaluate
import Mathlib.Data.Prod.Lex

/-!
# `Schedule.Resolve` — which rule wins (`app/js/core/schedule.js`)

The rules in force are sorted by specificity and position, and their settings are applied one after another. So each setting has
the value of the last rule that changes it, and that is the greatest one.

A rule is said to be more specific if it is limited to part of the day. `evaluate` takes any two equal times for the whole day,
`specificity` only midnight written in full. The rules are ranked as documented exactly if no other time stands for the whole day.
-/

namespace MaterialOpenWebui
namespace Schedule
open Js JsValue

/-! ## Ranking -/

/-- `rule.startDate || rule.endDate` -/
def Rule.dated (rule : Rule) : Bool := (rule.startDate.getD .null).truthy || (rule.endDate.getD .null).truthy

def specificity (rule : Rule) : Nat :=
  (if rule.dated then 2 else 0) +
    (if rule.days ≠ [] ∧ rule.days.length < 7 then 1 else 0) +
    (if ¬ (rule.startTime = js "00:00" ∧ rule.endTime = js "00:00") then 1 else 0)

/-- The whole day, as `evaluate` takes it. -/
def Rule.allDay (rule : Rule) : Prop := timeOf rule.startTime = timeOf rule.endTime

instance (rule : Rule) : Decidable rule.allDay := inferInstanceAs (Decidable (_ = _))

/-- Two for a range of dates, one for particular weekdays, and one for part of the day. -/
def documented (rule : Rule) : Nat :=
  (if rule.dated then 2 else 0) + (if rule.days ≠ [] ∧ rule.days.length < 7 then 1 else 0) + (if ¬ rule.allDay then 1 else 0)

/-! ## Resolution -/

/-- A rule in force. -/
structure Applied where
  rule : Rule
  index : Nat
  startedOn : JsString

/-- The rules in force, with their positions. -/
def applied (offset : Int → Int) (instant : Int) : Nat → List Rule → Except JsString (List Applied)
  | _, [] => .ok []
  | index, rule :: rules => do
    let verdict ← evaluate rule offset instant
    let rest ← applied offset instant (index + 1) rules
    match verdict with
    | .active startedOn => return { rule, index, startedOn } :: rest
    | .inactive _ => return rest

/-- What the comparison of two rules in force looks at. -/
def Applied.rank (a : Applied) : Lex (Nat × Nat) := toLex (specificity a.rule, a.index)

def ordered (as : List Applied) : List Applied := StableSort.sortOn Applied.rank as

/-- The properties that objects set, one object after another. -/
def overlay {α β : Type} (props : α → List (JsString × β)) (as : List α) : List (JsString × β) :=
  (as.flatMap props).foldl (fun ps p => setProp ps p.1 p.2) []

structure Resolved where
  settings : List (JsString × JsValue)
  because : List (JsString × JsString)
  applied : List (JsString × JsString × Nat × JsString)
  timeZone : JsString
  now : Reading

/-- What a rule makes the reason of. -/
def Applied.reasons (a : Applied) : List (JsString × JsString) := a.rule.patch.map fun p => (p.1, a.rule.id)

/-- `zones` are the time zones that the system knows, by their offsets. -/
def resolve (zones : JsString → Option (Int → Int)) (document : Doc) (instant : Int) (timeZone : JsString) :
    Except JsString Resolved :=
  let zone := if timeZone = [] then document.timeZone else timeZone
  match zones zone with
  | none => .error (js "Invalid time zone specified: " ++ zone)
  | some offset => do
    let inForce ← applied offset instant 0 document.rules
    let now ← wallClock offset instant
    return { settings := overlay (fun a => a.rule.patch) (ordered inForce)
             because := overlay Applied.reasons (ordered inForce)
             applied := (ordered inForce).map fun a => (a.rule.id, a.rule.name, specificity a.rule, a.startedOn)
             timeZone := zone
             now }

/-! ## Overlays -/

section
variable {α β : Type} {props : α → List (JsString × β)}

theorem lookup_foldl_setProp (es acc : List (JsString × β)) (k : JsString) :
    (es.foldl (fun ps p => setProp ps p.1 p.2) acc).lookup k = (es.reverse.lookup k).or (acc.lookup k) := by
  induction es generalizing acc with
  | nil => rfl
  | cons e es ih =>
    rw [List.foldl_cons, ih, List.reverse_cons, List.lookup_append, lookup_setProp, lookup_cons_eq]
    cases es.reverse.lookup k with
    | some b => rfl
    | none =>
      by_cases hk : e.1 = k <;> simp [hk]

/-- An object that names each of its properties once sets the values that it has. -/
theorem lookup_reverse {ps : List (JsString × β)} (h : (ps.map Prod.fst).Nodup) (k : JsString) :
    ps.reverse.lookup k = ps.lookup k :=
  (lookup_perm h (List.reverse_perm ps).symm k).symm

/-- **The last word.** A property has the value of the last object that sets it. -/
theorem lookup_overlay {as : List α} (hprops : ∀ a ∈ as, ((props a).map Prod.fst).Nodup) (k : JsString) :
    (overlay props as).lookup k = as.reverse.findSome? fun a => (props a).lookup k := by
  rw [overlay, lookup_foldl_setProp, List.lookup_nil, Option.or_none]
  induction as with
  | nil => rfl
  | cons a as ih =>
    rw [List.flatMap_cons, List.reverse_append, List.lookup_append, ih fun b hb => hprops b (List.mem_cons_of_mem a hb),
      lookup_reverse (hprops a List.mem_cons_self), List.reverse_cons, List.findSome?_append]
    congr 1
    cases h : (props a).lookup k <;> simp [h]

/-- **The greatest word.** Of objects in ascending order, that is the greatest one that sets it. -/
theorem lookup_overlay_iff {κ : Type} [LinearOrder κ] {key : α → κ} {as : List α}
    (hprops : ∀ a ∈ as, ((props a).map Prod.fst).Nodup) (hsorted : StableSort.Ascending key as)
    (hkey : ∀ a ∈ as, ∀ b ∈ as, key a = key b → a = b) {k : JsString} {v : β} :
    (overlay props as).lookup k = some v ↔
      ∃ a ∈ as, (props a).lookup k = some v ∧ ∀ b ∈ as, (props b).lookup k ≠ none → key b ≤ key a := by
  have hlast : ∀ {w}, (overlay props as).lookup k = some w →
      ∃ a ∈ as, (props a).lookup k = some w ∧ ∀ b ∈ as, (props b).lookup k ≠ none → key b ≤ key a := by
    intro w hw
    rw [lookup_overlay hprops] at hw
    obtain ⟨later, a, earlier, hsplit, ha, hnone⟩ := List.findSome?_eq_some_iff.mp hw
    have has : as = earlier.reverse ++ a :: later.reverse := by
      rw [← List.reverse_reverse as, hsplit]
      simp
    refine ⟨a, by simp [has], ha, fun b hb hsets => ?_⟩
    rw [has, List.mem_append, List.mem_cons] at hb
    rcases hb with hb | rfl | hb
    · rw [has] at hsorted
      exact (List.pairwise_append.mp hsorted).2.2 b hb a List.mem_cons_self
    · exact le_rfl
    · exact absurd (hnone b (List.mem_reverse.mp hb)) hsets
  constructor
  · exact hlast
  · rintro ⟨a, ha, hv, hmax⟩
    have hsome : (overlay props as).lookup k ≠ none := by
      rw [lookup_overlay hprops, Ne, List.findSome?_eq_none_iff]
      intro hnone
      rw [hnone a (List.mem_reverse.mpr ha)] at hv
      cases hv
    obtain ⟨w, hw⟩ := Option.ne_none_iff_exists'.mp hsome
    obtain ⟨b, hb, hbw, hbmax⟩ := hlast hw
    have hsets : (props a).lookup k ≠ none := by simp [hv]
    have hsets' : (props b).lookup k ≠ none := by simp [hbw]
    obtain rfl := hkey a ha b hb (le_antisymm (hbmax a ha hsets) (hmax b hb hsets'))
    rw [hw, ← hbw, hv]

end

/-! ## The law -/

def Active (offset : Int → Int) (instant : Int) (rule : Rule) : Prop :=
  ∃ startedOn, evaluate rule offset instant = .ok (.active startedOn)

/-- A rule that the validator has made of a value. -/
def Validated (number : JsString → JsNumber) (rule : Rule) : Prop :=
  ∃ index input, input.Wf ∧ validateRule number index input = .ok rule

/-- The rule at that position is in force and changes the setting, and of all those it is the most specific one, or the last one
of these. -/
structure Wins (offset : Int → Int) (instant : Int) (rules : List Rule) (key : JsString)
    (index : Nat) (rule : Rule) : Prop where
  here : rules[index]? = some rule
  active : Active offset instant rule
  sets : rule.patch.lookup key ≠ none
  greatest : ∀ index' rule', rules[index']? = some rule' → Active offset instant rule' → rule'.patch.lookup key ≠ none →
    toLex (documented rule', index') ≤ toLex (documented rule, index)

/-- The documented precedence: what is counted, and which values result. -/
structure Ranked (zones : JsString → Option (Int → Int)) (document : Doc) : Prop where
  awarded : ∀ rule ∈ document.rules, specificity rule = documented rule
  applied : ∀ instant timeZone resolved offset, resolve zones document instant timeZone = .ok resolved →
    zones resolved.timeZone = some offset → ∀ key value, resolved.settings.lookup key = some value ↔
      ∃ index rule, Wins offset instant document.rules key index rule ∧ rule.patch.lookup key = some value

/-- **The rules in force** are those that `evaluate` says are, at their positions. -/
theorem mem_applied_iff {offset : Int → Int} {instant : Int} {index : Nat} {rules : List Rule} {as : List Applied}
    (h : applied offset instant index rules = .ok as) {a : Applied} :
    a ∈ as ↔ ∃ i, rules[i]? = some a.rule ∧ a.index = index + i ∧
      evaluate a.rule offset instant = .ok (.active a.startedOn) := by
  induction rules generalizing index as with
  | nil =>
    cases h
    simp
  | cons rule rules ih =>
    rw [applied] at h
    obtain ⟨verdict, hverdict, h⟩ := Run.bind_ok h
    obtain ⟨rest, hrest, h⟩ := Run.bind_ok h
    have hlater : a ∈ rest ↔ ∃ i, (rule :: rules)[i + 1]? = some a.rule ∧ a.index = index + (i + 1) ∧
        evaluate a.rule offset instant = .ok (.active a.startedOn) := by
      rw [ih hrest]
      simp only [List.getElem?_cons_succ, Nat.add_assoc, Nat.add_comm 1]
    have hsplit : (∃ i, (rule :: rules)[i]? = some a.rule ∧ a.index = index + i ∧
        evaluate a.rule offset instant = .ok (.active a.startedOn)) ↔
        (rule = a.rule ∧ a.index = index ∧ evaluate a.rule offset instant = .ok (.active a.startedOn)) ∨ a ∈ rest := by
      rw [hlater]
      constructor
      · rintro ⟨i, hi, hindex, hactive⟩
        cases i with
        | zero => exact .inl ⟨by simpa using hi, hindex, hactive⟩
        | succ i => exact .inr ⟨i, hi, hindex, hactive⟩
      · rintro (⟨hrule, hindex, hactive⟩ | ⟨i, hi, hindex, hactive⟩)
        · exact ⟨0, by simp [hrule], hindex, hactive⟩
        · exact ⟨i + 1, hi, hindex, hactive⟩
    rw [hsplit]
    cases verdict with
    | active startedOn =>
      cases h
      rw [List.mem_cons]
      refine or_congr ⟨?_, ?_⟩ Iff.rfl
      · rintro rfl
        exact ⟨rfl, rfl, hverdict⟩
      · rintro ⟨rfl, rfl, hactive⟩
        rw [hverdict] at hactive
        cases hactive
        rfl
    | inactive reason =>
      cases h
      refine (or_iff_right ?_).symm
      rintro ⟨rfl, -, hactive⟩
      rw [hverdict] at hactive
      cases hactive

/-- A validated rule names each setting once. -/
theorem Validated.nodup_patch {number : JsString → JsNumber} {rule : Rule} (h : Validated number rule) :
    (rule.patch.map Prod.fst).Nodup := by
  obtain ⟨index, input, hwf, h⟩ := h
  have hget := wf_get hwf (js "patch")
  rw [(patch_of_readPatch (normalises_of_validateRule h).patch).1] at hget
  exact hget.keys

/-- Only the whole day decides whether a rule is ranked as documented. -/
theorem specificity_eq_iff (rule : Rule) : specificity rule = documented rule ↔
    (rule.allDay → rule.startTime = js "00:00" ∧ rule.endTime = js "00:00") := by
  have hmidnight : rule.startTime = js "00:00" ∧ rule.endTime = js "00:00" → rule.allDay := by
    rintro ⟨hstart, hend⟩
    rw [Rule.allDay, hstart, hend]
  unfold specificity documented
  by_cases hall : rule.allDay
  · by_cases hmid : rule.startTime = js "00:00" ∧ rule.endTime = js "00:00"
    · simp [hall, hmid]
    · rw [if_pos hmid, if_neg (not_not.mpr hall)]
      constructor
      · intro h
        omega
      · exact fun h => absurd (h hall) hmid
  · have hmid : ¬ (rule.startTime = js "00:00" ∧ rule.endTime = js "00:00") := fun h => hall (hmidnight h)
    rw [if_pos hmid, if_pos hall]
    simp [hall]

/-- **The law of precedence.** Rules are ranked as documented exactly if no time but midnight, written in full, stands for the
whole day. -/
theorem ranked_iff {number : JsString → JsNumber} (zones : JsString → Option (Int → Int)) {document : Doc}
    (hvalid : ∀ rule ∈ document.rules, Validated number rule) :
    Ranked zones document ↔
      ∀ rule ∈ document.rules, rule.allDay → rule.startTime = js "00:00" ∧ rule.endTime = js "00:00" := by
  constructor
  · intro h rule hrule
    exact (specificity_eq_iff rule).mp (h.awarded rule hrule)
  · intro h
    have hawarded : ∀ rule ∈ document.rules, specificity rule = documented rule :=
      fun rule hrule => (specificity_eq_iff rule).mpr (h rule hrule)
    refine ⟨hawarded, fun instant timeZone resolved offset hresolve hzone key value => ?_⟩
    unfold resolve at hresolve
    simp only at hresolve
    split at hresolve
    · cases hresolve
    · rename_i offset' hoffset
      obtain ⟨inForce, hinForce, hresolve⟩ := Run.bind_ok hresolve
      obtain ⟨now, -, hresolve⟩ := Run.bind_ok hresolve
      cases hresolve
      obtain rfl : offset' = offset := Option.some.inj (hoffset.symm.trans hzone)
      have hmem : ∀ a, a ∈ ordered inForce ↔ document.rules[a.index]? = some a.rule ∧
          evaluate a.rule offset' instant = .ok (.active a.startedOn) := by
        intro a
        rw [ordered, StableSort.mem_sortOn, mem_applied_iff hinForce]
        simp only [Nat.zero_add]
        constructor
        · rintro ⟨i, hi, rfl, hactive⟩
          exact ⟨hi, hactive⟩
        · exact fun ⟨hi, hactive⟩ => ⟨a.index, hi, rfl, hactive⟩
      have hrule : ∀ a ∈ ordered inForce, a.rule ∈ document.rules := fun a ha => List.mem_of_getElem? ((hmem a).mp ha).1
      have hrank : ∀ a ∈ ordered inForce, a.rank = toLex (documented a.rule, a.index) := by
        intro a ha
        rw [Applied.rank, hawarded a.rule (hrule a ha)]
      have hinj : ∀ a ∈ ordered inForce, ∀ b ∈ ordered inForce, a.rank = b.rank → a = b := by
        intro a ha b hb hab
        have hindex : a.index = b.index := congrArg (fun r => (ofLex r).2) hab
        obtain ⟨ha, hactive⟩ := (hmem a).mp ha
        obtain ⟨hb, hactive'⟩ := (hmem b).mp hb
        rw [hindex, hb] at ha
        cases a
        cases b
        cases ha
        rw [hactive] at hactive'
        cases hactive'
        cases hindex
        rfl
      have hpatch : ∀ a ∈ ordered inForce, (a.rule.patch.map Prod.fst).Nodup :=
        fun a ha => (hvalid a.rule (hrule a ha)).nodup_patch
      show (overlay (fun a : Applied => a.rule.patch) (ordered inForce)).lookup key = some value ↔ _
      rw [lookup_overlay_iff hpatch (StableSort.ascending_sortOn Applied.rank inForce) hinj]
      constructor
      · rintro ⟨a, ha, hvalue, hmax⟩
        refine ⟨a.index, a.rule, ⟨((hmem a).mp ha).1, ⟨_, ((hmem a).mp ha).2⟩, by simp [hvalue], ?_⟩, hvalue⟩
        rintro index' rule' hhere ⟨startedOn, hactive⟩ hsets
        have hb := (hmem ⟨rule', index', startedOn⟩).mpr ⟨hhere, hactive⟩
        have hle := hmax _ hb hsets
        rwa [hrank _ hb, hrank a ha] at hle
      · rintro ⟨index, rule, hwins, hvalue⟩
        obtain ⟨startedOn, hactive⟩ := hwins.active
        have ha := (hmem ⟨rule, index, startedOn⟩).mpr ⟨hwins.here, hactive⟩
        refine ⟨_, ha, hvalue, fun b hb hsets => ?_⟩
        rw [hrank b hb, hrank _ ha]
        exact hwins.greatest b.index b.rule ((hmem b).mp hb).1 ⟨_, ((hmem b).mp hb).2⟩ hsets

/-- A rule for every day that changes the theme. -/
def themeInput (id startTime endTime theme : String) : JsValue :=
  .obj [(js "id", .str (js id)), (js "startTime", .str (js startTime)), (js "endTime", .str (js endTime)),
    (js "patch", .obj [(js "theme", .str (js theme))])]

def themeRule (id startTime endTime theme : String) : Rule :=
  { id := js id, name := js id, startTime := js startTime, endTime := js endTime, startDate := none, endDate := none,
    days := [0, 1, 2, 3, 4, 5, 6], patch := [(js "theme", .str (js theme))], enabled := true }

theorem wf_themeInput (id startTime endTime theme : String) : (themeInput id startTime endTime theme).Wf := by
  refine .obj (show [js "id", js "startTime", js "endTime", js "patch"].Nodup by decide) fun p hp => ?_
  simp only [List.mem_cons, List.not_mem_nil, or_false] at hp
  rcases hp with rfl | rfl | rfl | rfl
  · exact .str _
  · exact .str _
  · exact .str _
  · refine .obj (List.nodup_singleton _) fun p hp => ?_
    rw [List.mem_singleton.mp hp]
    exact .str _

/-- Evenings are dark, all other times are light. -/
theorem evenings_ranked : Ranked (fun _ => some fun _ => 0)
    ⟨js "UTC", [themeRule "evening" "20:00" "23:00" "dark", themeRule "always" "00:00" "00:00" "light"]⟩ := by
  have hvalid : ∀ rule ∈ [themeRule "evening" "20:00" "23:00" "dark", themeRule "always" "00:00" "00:00" "light"],
      Validated (fun _ => .nan) rule := by
    intro rule hrule
    simp only [List.mem_cons, List.not_mem_nil, or_false] at hrule
    rcases hrule with rfl | rfl
    · exact ⟨0, _, wf_themeInput "evening" "20:00" "23:00" "dark", rfl⟩
    · exact ⟨1, _, wf_themeInput "always" "00:00" "00:00" "light", rfl⟩
  refine (ranked_iff _ hvalid).mpr fun rule hrule hall => ?_
  simp only [List.mem_cons, List.not_mem_nil, or_false] at hrule
  rcases hrule with rfl | rfl
  · exact absurd hall (by decide)
  · exact ⟨rfl, rfl⟩

/-- Two rules for the whole day, the first of them from nine to nine. The second one wins, but the first is applied. -/
theorem nine_to_nine_fails : ∃ rules : List Rule, (∀ rule ∈ rules, Validated (fun _ => .nan) rule) ∧
    ¬ Ranked (fun _ => some fun _ => 0) ⟨js "UTC", rules⟩ ∧
    (∃ rule, Wins (fun _ => 0) 0 rules (js "theme") 1 rule ∧ rule.patch.lookup (js "theme") = some (.str (js "light"))) ∧
    ∃ resolved, resolve (fun _ => some fun _ => 0) ⟨js "UTC", rules⟩ 0 [] = .ok resolved ∧
      resolved.settings.lookup (js "theme") = some (.str (js "dark")) := by
  refine ⟨[themeRule "work" "09:00" "09:00" "dark", themeRule "always" "00:00" "00:00" "light"],
    fun rule hrule => ?_, fun h => ?_,
    ⟨_, ⟨rfl, ⟨js "1970-01-01", rfl⟩, by decide, ?_⟩, rfl⟩, _, rfl, rfl⟩
  · simp only [List.mem_cons, List.not_mem_nil, or_false] at hrule
    rcases hrule with rfl | rfl
    · exact ⟨0, _, wf_themeInput "work" "09:00" "09:00" "dark", rfl⟩
    · exact ⟨1, _, wf_themeInput "always" "00:00" "00:00" "light", rfl⟩
  · exact absurd (h.awarded _ List.mem_cons_self) (by decide)
  · intro index rule hhere _ _
    match index, hhere with
    | 0, rfl => decide
    | 1, rfl => decide

end Schedule
end MaterialOpenWebui
