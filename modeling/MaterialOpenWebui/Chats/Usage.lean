import MaterialOpenWebui.Chats.History
import MaterialOpenWebui.Py.Number

/-!
# `Chats.Usage` — counting tokens and costs (`backend/open_webui/utils/response.py`)

A provider reports the usage of a model call under its own keys. `normalize_usage` adds the standard counts to
what was reported, and `merge_usage` makes one usage of several calls: counts, costs and details are summed,
and for the rest the later call wins.

Each of the two is stated by what it holds under a key (`get?_mergeNormalized`). The last part says when they
have nothing left to do: on a usage that is `Counted`, and when what comes in `AddsNothing`.
-/

namespace MaterialOpenWebui
namespace Chats
open Py

/-! ## Keys -/

def kUsage : Str := py "usage"
def kInfo : Str := py "info"
def kInputTokens : Str := py "input_tokens"
def kOutputTokens : Str := py "output_tokens"
def kTotalTokens : Str := py "total_tokens"
def kPromptTokens : Str := py "prompt_tokens"
def kCompletionTokens : Str := py "completion_tokens"

/-- Where OpenAI, Ollama and llama.cpp report the tokens of the prompt. -/
def inputAliases : List Str := [kPromptTokens, py "prompt_eval_count", py "prompt_n"]

/-- Where they report the tokens that were generated. -/
def outputAliases : List Str := [kCompletionTokens, py "eval_count", py "predicted_n"]

/-- `USAGE_SUMMABLE_KEYS`. -/
def summableKeys : List Str :=
  [kInputTokens, kOutputTokens, kTotalTokens, py "cost", py "total_cost", py "input_cost", py "output_cost",
    py "prompt_cost", py "completion_cost"]

/-- `USAGE_DETAIL_KEYS`. -/
def detailKeys : List Str :=
  [py "prompt_tokens_details", py "completion_tokens_details", py "input_tokens_details",
    py "output_tokens_details"]

section
variable (round : Rat → Rat) (parseInt : Str → Option Int)

/-! ## Operations -/

/-- `usage.get(k) or … or 0`. -/
def firstOf (usage : Obj) : List Str → Val
  | [] => .int 0
  | k :: ks => (field usage k).or (firstOf usage ks)

def inputTokens (usage : Obj) : Val := firstOf usage (kInputTokens :: inputAliases)
def outputTokens (usage : Obj) : Val := firstOf usage (kOutputTokens :: outputAliases)

def totalTokens (usage : Obj) : Option Val :=
  if (field usage kTotalTokens).truthy then some (field usage kTotalTokens)
  else Val.add round (inputTokens usage) (outputTokens usage)

/-- `none` where a count is no number, or no text of one. -/
def normalize_usage (usage : Obj) : Option Obj :=
  if usage.items = [] then some .empty
  else do
    let total_tokens ← totalTokens round usage
    let input ← Val.int_ parseInt (inputTokens usage)
    let output ← Val.int_ parseInt (outputTokens usage)
    let total ← Val.int_ parseInt total_tokens
    some (((usage.set kInputTokens (.int input)).set kOutputTokens (.int output)).set kTotalTokens (.int total))

/-- `v if _is_numeric_usage_value(v) else 0`. -/
def numeric (v : Val) : Val := if v.isNumber then v else .int 0

theorem sizeOf_lookup {items : List (Str × Val)} {k : Str} {v : Val} (h : Dict.lookup items k = some v) :
    sizeOf v < sizeOf items := by
  induction items with
  | nil => cases h
  | cons p items ih =>
    obtain ⟨k', v'⟩ := p
    rw [Dict.lookup_cons] at h
    by_cases hk : k = k'
    · simp only [if_pos hk, Option.some.injEq] at h
      subst h
      simp
      omega
    · simp only [if_neg hk] at h
      have := ih h
      simp
      omega

theorem sizeOf_items (items : List (Str × Val)) (k : Str) :
    sizeOf ((Dict.lookup items k).getD (.int 0)).items ≤ sizeOf items ∧
      (((Dict.lookup items k).getD (.int 0)).isDict = true →
        sizeOf ((Dict.lookup items k).getD (.int 0)).items < sizeOf items) := by
  have hnil : sizeOf ([] : List (Str × Val)) ≤ sizeOf items := by
    cases items with
    | nil => exact le_refl _
    | cons p items =>
      simp
      omega
  cases h : Dict.lookup items k with
  | none => exact ⟨hnil, nofun⟩
  | some v =>
    have hv := sizeOf_lookup h
    cases v with
    | dict items' =>
      have hlt : sizeOf items' < sizeOf items := by
        simp at hv
        omega
      exact ⟨hlt.le, fun _ => hlt⟩
    | _ => exact ⟨hnil, nofun⟩

/-- `_merge_numeric_usage_map`. -/
def merge_numeric_usage_map (current incoming : List (Str × Val)) : Obj :=
  ((Dict.firsts current).update (Dict.firsts incoming)).map fun key v =>
    let current_value := (Dict.lookup current key).getD (.int 0)
    let incoming_value := (Dict.lookup incoming key).getD (.int 0)
    if current_value.isDict ∨ incoming_value.isDict then
      .dict (merge_numeric_usage_map current_value.items incoming_value.items).items
    else if current_value.isNumber ∨ incoming_value.isNumber then
      Val.plus round (numeric current_value) (numeric incoming_value)
    else v
termination_by sizeOf current + sizeOf incoming
decreasing_by
  rename_i h
  have hcurrent := sizeOf_items current key
  have hincoming := sizeOf_items incoming key
  rcases h with h | h
  · have := hcurrent.2 h
    omega
  · have := hincoming.2 h
    omega

/-- What `merge_usage` puts under a key that is summed, if anything. -/
def sumAt (current incoming : Obj) (key : Str) : Option Val :=
  if key ∈ current ∨ key ∈ incoming then
    let current_value := (current.get? key).getD (.int 0)
    let incoming_value := (incoming.get? key).getD (.int 0)
    if current_value.isNumber ∨ incoming_value.isNumber then
      some (Val.plus round (numeric current_value) (numeric incoming_value))
    else none
  else none

/-- What it puts under a key of details. -/
def detailAt (current incoming : Obj) (key : Str) : Option Val :=
  if (field current key).isDict ∨ (field incoming key).isDict then
    some (.dict (merge_numeric_usage_map round (field current key).items (field incoming key).items).items)
  else none

/-- What it puts under a provider's own count: the later one. -/
def latest (current incoming : Obj) (key standard : Str) : Val :=
  (field incoming key).or ((field incoming standard).or ((current.get? key).getD (.int 0)))

def mergeNormalized (current incoming : Obj) : Obj :=
  ((((current.update incoming).setEach (sumAt round current incoming) summableKeys).setEach
    (detailAt round current incoming) detailKeys).set
    kPromptTokens (latest current incoming kPromptTokens kInputTokens)).set
    kCompletionTokens (latest current incoming kCompletionTokens kOutputTokens)

def merge_usage (current incoming : Obj) : Option Obj := do
  let current_usage ← normalize_usage round parseInt current
  let incoming_usage ← normalize_usage round parseInt incoming
  some <| if incoming_usage.items = [] then current_usage
    else if current_usage.items = [] then incoming_usage
    else mergeNormalized round current_usage incoming_usage

/-- The usage that a message reports, under `usage` or under `info`. -/
def reported (data : Obj) : Option Val :=
  if (field data kUsage).truthy then some (field data kUsage)
  else if (field data kInfo).truthy then (field data kInfo).obj?.map fun info => field info kUsage
  else some .none

/-- The usage of a message, normalized; the inner `none` where it reports none. -/
def get_usage (data : Obj) : Option (Option Obj) := do
  let usage ← reported data
  if usage.truthy then
    let normalized ← normalize_usage round parseInt (← usage.obj?)
    some (some normalized)
  else some none

/-! ## Nothing left to do: details -/

mutual
/-- No number in the value but zero. -/
def allZero : Val → Bool
  | .int n => n = 0
  | .float x => x = 0
  | .dict items => allZeroItems items
  | _ => true

def allZeroItems : List (Str × Val) → Bool
  | [] => true
  | (_, v) :: items => allZero v && allZeroItems items
end

theorem allZero_lookup {items : List (Str × Val)} (h : allZeroItems items = true) {k : Str} {v : Val}
    (hv : Dict.lookup items k = some v) : allZero v = true := by
  induction items with
  | nil => cases hv
  | cons p items ih =>
    obtain ⟨k', v'⟩ := p
    rw [allZeroItems, Bool.and_eq_true] at h
    rw [Dict.lookup_cons] at hv
    split at hv
    · cases hv
      exact h.1
    · exact ih h.2 hv

theorem allZero_items {v : Val} (h : allZero v = true) : allZeroItems v.items = true := by
  cases v with
  | dict items => rwa [allZero] at h
  | _ => rfl

/-- What is added for a value without numbers but zero is zero. -/
theorem isZero_numeric {v : Val} (h : allZero v = true) : Val.IsZero (numeric v) := by
  cases v with
  | int n =>
    have hn : n = 0 := of_decide_eq_true h
    subst hn
    exact ⟨rfl, rfl⟩
  | float x =>
    have hx : x = 0 := of_decide_eq_true h
    subst hx
    exact ⟨rfl, rfl⟩
  | _ => exact ⟨rfl, rfl⟩

theorem numeric_of_isNumber {v : Val} (h : v.isNumber = true) : numeric v = v := if_pos h

theorem isDict_of_isNumber {v : Val} (h : v.isNumber = true) : v.isDict = false := by
  cases v with
  | dict => cases h
  | _ => rfl

/-- What `_merge_numeric_usage_map` puts under a key. -/
def mapAt (current incoming : List (Str × Val)) (key : Str) (v : Val) : Val :=
  let current_value := (Dict.lookup current key).getD (.int 0)
  let incoming_value := (Dict.lookup incoming key).getD (.int 0)
  if current_value.isDict ∨ incoming_value.isDict then
    .dict (merge_numeric_usage_map round current_value.items incoming_value.items).items
  else if current_value.isNumber ∨ incoming_value.isNumber then
    Val.plus round (numeric current_value) (numeric incoming_value)
  else v

theorem merge_numeric_usage_map_eq (current incoming : List (Str × Val)) :
    merge_numeric_usage_map round current incoming =
      ((Dict.firsts current).update (Dict.firsts incoming)).map (mapAt round current incoming) := by
  rw [merge_numeric_usage_map]
  rfl

theorem get?_merge_numeric_usage_map (current incoming : List (Str × Val)) (k : Str) :
    (merge_numeric_usage_map round current incoming).get? k =
      ((Dict.lookup incoming k).or (Dict.lookup current k)).map (mapAt round current incoming k) := by
  rw [merge_numeric_usage_map_eq, Dict.get?_map, Dict.get?_update, Dict.get?_firsts, Dict.get?_firsts]

/-- One key, merged twice. -/
theorem mapAt_again {current incoming merged : List (Str × Val)} (hzero : allZeroItems incoming = true) {k : Str}
    {v : Val} (hv : (Dict.lookup incoming k).or (Dict.lookup current k) = some v)
    (hmerged : Dict.lookup merged k = some (mapAt round current incoming k v))
    (ih : ∀ c i : List (Str × Val), sizeOf c + sizeOf i < sizeOf current + sizeOf incoming → allZeroItems i = true →
      merge_numeric_usage_map round (merge_numeric_usage_map round c i).items i = merge_numeric_usage_map round c i)
    {v' : Val} (hv' : (Dict.lookup incoming k).or (Dict.lookup merged k) = some v') :
    mapAt round merged incoming k v' = mapAt round current incoming k v := by
  have hcurrent := sizeOf_items current k
  have hincoming := sizeOf_items incoming k
  have hin : allZero ((Dict.lookup incoming k).getD (.int 0)) = true := by
    cases hlookup : Dict.lookup incoming k with
    | none => rfl
    | some w => exact allZero_lookup hzero hlookup
  generalize hw : mapAt round current incoming k v = w at hmerged
  rw [mapAt, hmerged, Option.getD_some]
  rw [mapAt] at hw
  by_cases hdict : ((Dict.lookup current k).getD (.int 0)).isDict = true ∨
      ((Dict.lookup incoming k).getD (.int 0)).isDict = true
  · -- a map on either side: the two maps are merged
    rw [if_pos hdict] at hw
    have hmap : w.isDict = true := by
      rw [← hw]
      rfl
    rw [if_pos (Or.inl hmap), ← hw]
    have hlt : sizeOf ((Dict.lookup current k).getD (.int 0)).items +
        sizeOf ((Dict.lookup incoming k).getD (.int 0)).items < sizeOf current + sizeOf incoming := by
      rcases hdict with h | h
      · have := hcurrent.2 h
        omega
      · have := hincoming.2 h
        omega
    exact congrArg (fun d : Obj => Val.dict d.items) (ih _ _ hlt (allZero_items hin))
  rw [if_neg hdict] at hw
  have hnot := (not_or.mp hdict).2
  by_cases hnumber : ((Dict.lookup current k).getD (.int 0)).isNumber = true ∨
      ((Dict.lookup incoming k).getD (.int 0)).isNumber = true
  · -- a sum with zero
    rw [if_pos hnumber] at hw
    have hsum : w.isNumber = true := hw ▸ Val.isNumber_plus round _ _
    rw [if_neg (not_or.mpr ⟨by rw [isDict_of_isNumber hsum]; exact Bool.false_ne_true, hnot⟩), if_pos (Or.inl hsum),
      numeric_of_isNumber hsum, ← hw]
    exact Val.plus_plus_zero round _ (isZero_numeric hin)
  · -- neither is a number, so both are there, and the incoming one stays
    rw [if_neg hnumber] at hw
    subst hw
    cases hlookup : Dict.lookup incoming k with
    | none => exact absurd (Or.inr (by rw [hlookup]; rfl)) hnumber
    | some u =>
      rw [hlookup, Option.some_or, Option.some.injEq] at hv hv'
      subst hv
      subst hv'
      rw [hlookup, Option.getD_some] at hnot hnumber
      rw [Option.getD_some, if_neg (not_or.mpr ⟨hnot, hnot⟩),
        if_neg (not_or.mpr ⟨(not_or.mp hnumber).2, (not_or.mp hnumber).2⟩)]

/-- **Merging details without numbers a second time changes nothing.** -/
theorem merge_numeric_again (n : Nat) : ∀ current incoming : List (Str × Val),
    sizeOf current + sizeOf incoming ≤ n → allZeroItems incoming = true →
    merge_numeric_usage_map round (merge_numeric_usage_map round current incoming).items incoming =
      merge_numeric_usage_map round current incoming := by
  induction n with
  | zero =>
    intro current incoming hle
    have hpos : 0 < sizeOf current := by
      cases current with
      | nil => simp only [List.nil.sizeOf_spec, Nat.one_pos]
      | cons p items => simp only [List.cons.sizeOf_spec]; omega
    omega
  | succ n ih =>
    intro current incoming hle hzero
    apply Dict.ext
    · rw [merge_numeric_usage_map_eq, Dict.keys_map, Dict.firsts_items]
      apply Dict.keys_update
      intro k hk
      obtain ⟨v, hv⟩ := Dict.mem_iff.mp hk
      rw [Dict.get?_firsts] at hv
      rw [Dict.mem_iff, get?_merge_numeric_usage_map, hv]
      exact ⟨_, rfl⟩
    · intro k
      rw [get?_merge_numeric_usage_map, get?_merge_numeric_usage_map]
      cases hv : (Dict.lookup incoming k).or (Dict.lookup current k) with
      | none =>
        have hmerged : Dict.lookup (merge_numeric_usage_map round current incoming).items k = none := by
          have h := get?_merge_numeric_usage_map round current incoming k
          rw [hv] at h
          exact h
        rw [hmerged, Option.or_none, (Option.or_eq_none_iff.mp hv).1]
        rfl
      | some v =>
        have hmerged : Dict.lookup (merge_numeric_usage_map round current incoming).items k =
            some (mapAt round current incoming k v) := by
          have h := get?_merge_numeric_usage_map round current incoming k
          rw [hv] at h
          exact h
        obtain ⟨v', hv'⟩ : ∃ v', (Dict.lookup incoming k).or
            (Dict.lookup (merge_numeric_usage_map round current incoming).items k) = some v' := by
          rw [hmerged]
          cases Dict.lookup incoming k <;> exact ⟨_, rfl⟩
        rw [hv', Option.map_some, Option.map_some, mapAt_again round hzero hv hmerged
          (fun c i hlt hi => ih c i (by omega) hi) hv']

/-! ## Nothing left to do: counts -/

/-- The counts are natural numbers, and one that is zero is zero under every key. -/
structure Counted (usage : Obj) : Prop where
  input : ∃ n : Nat, usage.get? kInputTokens = some (.int n) ∧
    (n = 0 → ∀ k ∈ inputAliases, (field usage k).truthy = false)
  output : ∃ n : Nat, usage.get? kOutputTokens = some (.int n) ∧
    (n = 0 → ∀ k ∈ outputAliases, (field usage k).truthy = false)
  total : ∃ n : Nat, usage.get? kTotalTokens = some (.int n) ∧
    (n = 0 → usage.get? kInputTokens = some (.int 0) ∧ usage.get? kOutputTokens = some (.int 0))

theorem items_of_counted {usage : Obj} (h : Counted usage) : usage.items ≠ [] := by
  obtain ⟨n, hn, -⟩ := h.input
  intro hempty
  have hmem : kInputTokens ∈ usage.items.map Prod.fst := Dict.mem_of_get? hn
  rw [hempty] at hmem
  cases hmem

theorem truthy_int (n : Nat) : (Val.int n).truthy = true ↔ n ≠ 0 := by
  simp [Val.truthy]

theorem firstOf_falsy {usage : Obj} {ks : List Str} (h : ∀ k ∈ ks, (field usage k).truthy = false) :
    firstOf usage ks = .int 0 := by
  induction ks with
  | nil => rfl
  | cons k ks ih =>
    rw [firstOf, Val.or, h k List.mem_cons_self, if_neg Bool.false_ne_true]
    exact ih fun j hj => h j (List.mem_cons_of_mem _ hj)

/-- A standard count is what counts. -/
theorem firstOf_counted {usage : Obj} {k : Str} {ks : List Str} {n : Nat} (hk : usage.get? k = some (.int n))
    (hzero : n = 0 → ∀ j ∈ ks, (field usage j).truthy = false) : firstOf usage (k :: ks) = .int n := by
  rw [firstOf, field_eq hk, Val.or]
  by_cases hn : n = 0
  · subst hn
    rw [firstOf_falsy (hzero rfl)]
    rfl
  · rw [if_pos ((truthy_int n).mpr hn)]

/-- **Normalizing a counted usage changes nothing.** -/
theorem normalize_usage_of_counted {usage : Obj} (h : Counted usage) :
    normalize_usage round parseInt usage = some usage := by
  obtain ⟨input, hinput, hinputZero⟩ := h.input
  obtain ⟨output, houtput, houtputZero⟩ := h.output
  obtain ⟨total, htotal, htotalZero⟩ := h.total
  have hin : inputTokens usage = .int input := firstOf_counted hinput hinputZero
  have hout : outputTokens usage = .int output := firstOf_counted houtput houtputZero
  have htot : totalTokens round usage = some (.int total) := by
    rw [totalTokens, field_eq htotal]
    by_cases hn : total = 0
    · obtain ⟨hi, ho⟩ := htotalZero hn
      rw [hinput, Option.some.injEq, Val.int.injEq] at hi
      rw [houtput, Option.some.injEq, Val.int.injEq] at ho
      rw [if_neg (fun ht => (truthy_int total).mp ht hn), hin, hout, hi, ho, hn]
      rfl
    · rw [if_pos ((truthy_int total).mpr hn)]
  rw [normalize_usage, if_neg (items_of_counted h), htot, hin, hout]
  simp only [Option.bind_eq_bind, Option.bind_some, Val.int_]
  rw [Dict.set_self hinput, Dict.set_self houtput, Dict.set_self htotal]

/-! ## Nothing left to do: merging -/

theorem get?_mergeNormalized (current incoming : Obj) (k : Str) :
    (mergeNormalized round current incoming).get? k =
      if k = kCompletionTokens then some (latest current incoming kCompletionTokens kOutputTokens)
      else if k = kPromptTokens then some (latest current incoming kPromptTokens kInputTokens)
      else if k ∈ detailKeys then
        (detailAt round current incoming k).or ((incoming.get? k).or (current.get? k))
      else if k ∈ summableKeys then (sumAt round current incoming k).or ((incoming.get? k).or (current.get? k))
      else (incoming.get? k).or (current.get? k) := by
  have hapart : ∀ k ∈ detailKeys, k ∉ summableKeys := by decide
  rw [mergeNormalized, Dict.get?_set, Dict.get?_set, Dict.get?_setEach, Dict.get?_setEach, Dict.get?_update]
  by_cases hdetail : k ∈ detailKeys
  · simp only [if_pos hdetail, if_neg (hapart k hdetail)]
  · by_cases hsum : k ∈ summableKeys
    · simp only [if_neg hdetail, if_pos hsum]
    · simp only [if_neg hdetail, if_neg hsum]

theorem sumAt_isSome {current incoming : Obj} {k : Str} (h : (sumAt round current incoming k).isSome = true) :
    k ∈ current.update incoming := by
  rw [Dict.mem_update]
  by_contra hmem
  rw [sumAt, if_neg hmem] at h
  cases h

theorem mem_of_isDict {usage : Obj} {k : Str} (h : (field usage k).isDict = true) : k ∈ usage := by
  by_contra hmem
  rw [field, Dict.get?_eq_none_iff.mpr hmem] at h
  cases h

theorem detailAt_isSome {current incoming : Obj} {k : Str} (h : (detailAt round current incoming k).isSome = true) :
    k ∈ current.update incoming := by
  rw [Dict.mem_update]
  by_contra hmem
  rw [not_or] at hmem
  rw [detailAt, if_neg (not_or.mpr ⟨fun hd => hmem.1 (mem_of_isDict hd), fun hd => hmem.2 (mem_of_isDict hd)⟩)] at h
  cases h

/-- Merging into a usage that has all the keys keeps them in place. -/
theorem keys_mergeNormalized {current incoming : Obj} (hsub : ∀ k ∈ incoming, k ∈ current)
    (hprompt : kPromptTokens ∈ current) (hcompletion : kCompletionTokens ∈ current) :
    (mergeNormalized round current incoming).keys = current.keys := by
  have hupdate : (current.update incoming).keys = current.keys := Dict.keys_update hsub
  have hsums : ((current.update incoming).setEach (sumAt round current incoming) summableKeys).keys =
      (current.update incoming).keys := Dict.keys_setEach fun k _ hk => sumAt_isSome round hk
  have hdetails : (((current.update incoming).setEach (sumAt round current incoming) summableKeys).setEach
      (detailAt round current incoming) detailKeys).keys =
      ((current.update incoming).setEach (sumAt round current incoming) summableKeys).keys :=
    Dict.keys_setEach fun k _ hk => by
      rw [Dict.mem_iff_mem_keys, hsums]
      exact detailAt_isSome round hk
  have hall := (hdetails.trans hsums).trans hupdate
  have hp := Dict.keys_set_of_mem (k := kPromptTokens) (latest current incoming kPromptTokens kInputTokens)
    (d := ((current.update incoming).setEach (sumAt round current incoming) summableKeys).setEach
      (detailAt round current incoming) detailKeys) (by rw [Dict.mem_iff_mem_keys, hall]; exact hprompt)
  rw [mergeNormalized, Dict.keys_set_of_mem, hp, hall]
  rw [Dict.mem_iff_mem_keys, hp, hall]
  exact hcompletion

/-- The usage has nothing to add: its counts and costs are zero, and there is no number in its details. -/
def addsNothing (usage : Obj) : Bool :=
  summableKeys.all (fun k => allZero (numeric (field usage k))) &&
    detailKeys.all (fun k => allZeroItems (field usage k).items)

theorem or_or_self (o o' : Option Val) : o.or (o.or o') = o.or o' := by
  cases o <;> rfl

theorem mem_mergeNormalized {current incoming : Obj} {k : Str} (h : k ∈ current ∨ k ∈ incoming) :
    k ∈ mergeNormalized round current incoming := by
  have hupdate : (incoming.get? k).or (current.get? k) ≠ none := by
    rw [Ne, Option.or_eq_none_iff, Dict.get?_eq_none_iff, Dict.get?_eq_none_iff]
    exact fun hnot => h.elim hnot.2 hnot.1
  by_contra hmem
  rw [← Dict.get?_eq_none_iff, get?_mergeNormalized] at hmem
  by_cases hc : k = kCompletionTokens
  · rw [if_pos hc] at hmem
    cases hmem
  by_cases hp : k = kPromptTokens
  · rw [if_neg hc, if_pos hp] at hmem
    cases hmem
  rw [if_neg hc, if_neg hp] at hmem
  split at hmem
  · exact hupdate (Option.or_eq_none_iff.mp hmem).2
  · split at hmem
    · exact hupdate (Option.or_eq_none_iff.mp hmem).2
    · exact hupdate hmem

theorem latest_again {current incoming merged : Obj} {key standard : Str}
    (h : merged.get? key = some (latest current incoming key standard)) :
    latest merged incoming key standard = latest current incoming key standard := by
  rw [latest, h, Option.getD_some, latest]
  by_cases hkey : (field incoming key).truthy = true
  · simp only [Val.or, if_pos hkey]
  · by_cases hstandard : (field incoming standard).truthy = true
    · simp only [Val.or, if_neg hkey, if_pos hstandard]
    · simp only [Val.or, if_neg hkey, if_neg hstandard]

theorem detailAt_again {current incoming merged : Obj} {k : Str} (hzero : allZeroItems (field incoming k).items = true)
    (h : merged.get? k = (detailAt round current incoming k).or ((incoming.get? k).or (current.get? k))) :
    (detailAt round merged incoming k).or ((incoming.get? k).or (merged.get? k)) = merged.get? k := by
  by_cases hdict : (field current k).isDict = true ∨ (field incoming k).isDict = true
  · have hmerged : merged.get? k =
        some (.dict (merge_numeric_usage_map round (field current k).items (field incoming k).items).items) := by
      rw [h, detailAt, if_pos hdict]
      rfl
    have hfield : (field merged k).isDict = true := by
      rw [field_eq hmerged]
      rfl
    rw [detailAt, if_pos (Or.inl hfield), field_eq hmerged, Val.items,
      merge_numeric_again round _ _ _ le_rfl hzero, Option.some_or, hmerged]
  · have hmerged : merged.get? k = (incoming.get? k).or (current.get? k) := by
      rw [h, detailAt, if_neg hdict, Option.none_or]
    have hfield : ¬ (field merged k).isDict = true := by
      rw [field, hmerged]
      intro hmap
      cases hin : incoming.get? k with
      | some v =>
        rw [hin] at hmap
        exact hdict (Or.inr (by rw [field_eq hin]; exact hmap))
      | none =>
        rw [hin] at hmap
        exact hdict (Or.inl hmap)
    rw [detailAt, if_neg (not_or.mpr ⟨hfield, (not_or.mp hdict).2⟩), Option.none_or, hmerged, or_or_self]

theorem numeric_getD (usage : Obj) (k : Str) :
    numeric ((usage.get? k).getD (.int 0)) = numeric (field usage k) := by
  rw [field]
  cases usage.get? k <;> rfl

theorem isNumber_numeric (v : Val) : (numeric v).isNumber = true := by
  unfold numeric
  split
  · assumption
  · rfl

theorem sumAt_again {current incoming merged : Obj} {k : Str} (hzero : allZero (numeric (field incoming k)) = true)
    (h : merged.get? k = (sumAt round current incoming k).or ((incoming.get? k).or (current.get? k))) :
    (sumAt round merged incoming k).or ((incoming.get? k).or (merged.get? k)) = merged.get? k := by
  by_cases hmem : k ∈ current ∨ k ∈ incoming
  · by_cases hnumber : ((current.get? k).getD (.int 0)).isNumber = true ∨
        ((incoming.get? k).getD (.int 0)).isNumber = true
    · have hmerged : merged.get? k = some (Val.plus round (numeric ((current.get? k).getD (.int 0)))
          (numeric ((incoming.get? k).getD (.int 0)))) := by
        rw [h, sumAt, if_pos hmem, if_pos hnumber]
        rfl
      have hsum := Val.isNumber_plus round (numeric ((current.get? k).getD (.int 0)))
        (numeric ((incoming.get? k).getD (.int 0)))
      have hnothing : Val.IsZero (numeric ((incoming.get? k).getD (.int 0))) := by
        rw [numeric_getD, ← numeric_of_isNumber (isNumber_numeric (field incoming k))]
        exact isZero_numeric hzero
      rw [sumAt, if_pos (Or.inl (Dict.mem_of_get? hmerged)), hmerged, Option.getD_some, if_pos (Or.inl hsum),
        numeric_of_isNumber hsum, Val.plus_plus_zero round _ hnothing, Option.some_or]
    · -- both have the key, and neither a number under it
      obtain ⟨v, hv⟩ : ∃ v, incoming.get? k = some v := by
        cases hin : incoming.get? k with
        | some v => exact ⟨v, rfl⟩
        | none => exact absurd (Or.inr (by rw [hin]; rfl)) hnumber
      have hmerged : merged.get? k = some v := by
        rw [h, sumAt, if_pos hmem, if_neg hnumber, hv]
        rfl
      rw [hv, Option.getD_some] at hnumber
      rw [sumAt, if_pos (Or.inl (Dict.mem_of_get? hmerged)), hmerged, hv, Option.getD_some,
        if_neg (not_or.mpr ⟨(not_or.mp hnumber).2, (not_or.mp hnumber).2⟩)]
      rfl
  · have hmerged : merged.get? k = none := by
      rw [h, sumAt, if_neg hmem, Dict.get?_eq_none_iff.mpr (not_or.mp hmem).1,
        Dict.get?_eq_none_iff.mpr (not_or.mp hmem).2]
      rfl
    rw [sumAt, if_neg (not_or.mpr ⟨Dict.get?_eq_none_iff.mp hmerged, (not_or.mp hmem).2⟩), hmerged,
      Dict.get?_eq_none_iff.mpr (not_or.mp hmem).2]
    rfl

/-- **Merging a usage that adds nothing a second time changes nothing.** -/
theorem mergeNormalized_again {current incoming : Obj} (h : addsNothing incoming = true) :
    mergeNormalized round (mergeNormalized round current incoming) incoming = mergeNormalized round current incoming := by
  rw [addsNothing, Bool.and_eq_true, List.all_eq_true, List.all_eq_true] at h
  obtain ⟨hsums, hdetails⟩ := h
  have hget := get?_mergeNormalized round current incoming
  have hprompt : kPromptTokens ∈ mergeNormalized round current incoming := by
    apply Dict.mem_of_get? (hget _)
  have hcompletion : kCompletionTokens ∈ mergeNormalized round current incoming := Dict.mem_of_get? (hget _)
  apply Dict.ext (keys_mergeNormalized round (fun k hk => mem_mergeNormalized round (Or.inr hk)) hprompt hcompletion)
  intro k
  rw [get?_mergeNormalized]
  have hk := hget k
  by_cases hc : k = kCompletionTokens
  · subst hc
    rw [if_pos rfl] at hk
    rw [if_pos rfl, latest_again hk, hk]
  by_cases hp : k = kPromptTokens
  · subst hp
    rw [if_neg hc, if_pos rfl] at hk
    rw [if_neg hc, if_pos rfl, latest_again hk, hk]
  rw [if_neg hc, if_neg hp] at hk ⊢
  by_cases hdetail : k ∈ detailKeys
  · rw [if_pos hdetail] at hk ⊢
    exact detailAt_again round (hdetails k hdetail) hk
  rw [if_neg hdetail] at hk ⊢
  by_cases hsum : k ∈ summableKeys
  · rw [if_pos hsum] at hk ⊢
    exact sumAt_again round (hsums k hsum) hk
  · rw [if_neg hsum] at hk ⊢
    rw [hk, or_or_self]

/-- The standard counts are summed. -/
theorem count_mergeNormalized {current incoming : Obj} {k : Str} (hk : k ∈ [kInputTokens, kOutputTokens, kTotalTokens])
    {m n : Nat} (hm : current.get? k = some (.int m)) (hn : incoming.get? k = some (.int n)) :
    (mergeNormalized round current incoming).get? k = some (.int (m + n : Nat)) := by
  have hplain : ∀ k ∈ [kInputTokens, kOutputTokens, kTotalTokens],
      k ≠ kCompletionTokens ∧ k ≠ kPromptTokens ∧ k ∉ detailKeys ∧ k ∈ summableKeys := by decide
  obtain ⟨hc, hp, hdetail, hsum⟩ := hplain k hk
  rw [get?_mergeNormalized, if_neg hc, if_neg hp, if_neg hdetail, if_pos hsum, sumAt,
    if_pos (Or.inl (Dict.mem_of_get? hm)), hm, hn]
  rfl

/-- A provider's count that is zero in both is zero. -/
theorem alias_mergeNormalized {current incoming : Obj} {k : Str}
    (hk : k ∈ inputAliases ∨ k ∈ outputAliases)
    (hstandard : (k ∈ inputAliases → (field incoming kInputTokens).truthy = false) ∧
      (k ∈ outputAliases → (field incoming kOutputTokens).truthy = false))
    (hcurrent : (field current k).truthy = false) (hincoming : (field incoming k).truthy = false) :
    (field (mergeNormalized round current incoming) k).truthy = false := by
  have hplain : ∀ k, (k ∈ inputAliases ∨ k ∈ outputAliases) → k ∉ detailKeys ∧ k ∉ summableKeys := by
    rintro k (hk | hk)
    · exact (by decide : ∀ k ∈ inputAliases, k ∉ detailKeys ∧ k ∉ summableKeys) k hk
    · exact (by decide : ∀ k ∈ outputAliases, k ∉ detailKeys ∧ k ∉ summableKeys) k hk
  obtain ⟨hdetail, hsum⟩ := hplain k hk
  have hlatest : ∀ standard, (field incoming standard).truthy = false →
      (latest current incoming k standard).truthy = false := by
    intro standard hstandard
    rw [latest, Val.or, hincoming, if_neg Bool.false_ne_true, Val.or, hstandard, if_neg Bool.false_ne_true]
    rw [field] at hcurrent
    cases hget : current.get? k with
    | none => rfl
    | some v =>
      rw [hget] at hcurrent
      exact hcurrent
  rw [field, get?_mergeNormalized, if_neg hdetail, if_neg hsum]
  by_cases hc : k = kCompletionTokens
  · subst hc
    rw [if_pos rfl, Option.getD_some]
    exact hlatest _ (hstandard.2 (by decide))
  by_cases hp : k = kPromptTokens
  · subst hp
    rw [if_neg hc, if_pos rfl, Option.getD_some]
    exact hlatest _ (hstandard.1 (by decide))
  rw [if_neg hc, if_neg hp]
  rw [field] at hcurrent hincoming
  cases hget : incoming.get? k with
  | none =>
    rw [Option.none_or]
    exact hcurrent
  | some v =>
    rw [hget] at hincoming
    exact hincoming

/-- **What is merged of two counted usages is counted.** -/
theorem counted_mergeNormalized {current incoming : Obj} (hcurrent : Counted current) (hincoming : Counted incoming) :
    Counted (mergeNormalized round current incoming) := by
  obtain ⟨i, hi, hiZero⟩ := hcurrent.input
  obtain ⟨o, ho, hoZero⟩ := hcurrent.output
  obtain ⟨t, ht, htZero⟩ := hcurrent.total
  obtain ⟨i', hi', hiZero'⟩ := hincoming.input
  obtain ⟨o', ho', hoZero'⟩ := hincoming.output
  obtain ⟨t', ht', htZero'⟩ := hincoming.total
  have hin := count_mergeNormalized round (by decide) hi hi'
  have hout := count_mergeNormalized round (by decide) ho ho'
  have hapart : (∀ k ∈ inputAliases, k ∉ outputAliases) ∧ ∀ k ∈ outputAliases, k ∉ inputAliases := by decide
  refine ⟨⟨i + i', hin, fun hzero k hk => ?_⟩, ⟨o + o', hout, fun hzero k hk => ?_⟩,
    ⟨t + t', count_mergeNormalized round (by decide) ht ht', fun hzero => ?_⟩⟩
  · have hi'0 : i' = 0 := by omega
    refine alias_mergeNormalized round (Or.inl hk) ⟨fun _ => ?_, fun h => absurd h (hapart.1 k hk)⟩
      (hiZero (by omega) k hk) (hiZero' hi'0 k hk)
    rw [field_eq hi', hi'0]
    rfl
  · have ho'0 : o' = 0 := by omega
    refine alias_mergeNormalized round (Or.inr hk) ⟨fun h => absurd h (hapart.2 k hk), fun _ => ?_⟩
      (hoZero (by omega) k hk) (hoZero' ho'0 k hk)
    rw [field_eq ho', ho'0]
    rfl
  · obtain ⟨hi0, ho0⟩ := htZero (by omega)
    obtain ⟨hi'0, ho'0⟩ := htZero' (by omega)
    have hin0 := count_mergeNormalized round (m := 0) (n := 0) (by decide) hi0 hi'0
    have hout0 := count_mergeNormalized round (m := 0) (n := 0) (by decide) ho0 ho'0
    exact ⟨hin0, hout0⟩

end
/-- No text is a number. -/
def noParse : Str → Option Int := fun _ => none

end Chats
end MaterialOpenWebui
