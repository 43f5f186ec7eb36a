import MaterialOpenWebui.Chats.Usage
import Mathlib.Algebra.Order.Ring.Rat

/-!
# `Chats.Totals` — usages add up

With exact sums, what `merge_usage` holds under a cost or a detail is made of the two values by one operation, `combine`: maps
are merged, numbers added, and of anything else the later one stays. It is associative, since the map and the number of a
value go through it. The counts add up since a merged usage is `Counted`, so that normalizing it once more reads the standard
counts, and none of the provider's.
-/

namespace MaterialOpenWebui
namespace Chats
open Py

/-! ## Adding -/

/-- Exact sums. -/
abbrev plus : Val → Val → Val := Val.plus id

@[simp] theorem toFloat_int (n : Int) : (Val.int n).toFloat id = n := by
  by_cases hn : n = 0 <;> simp [Val.toFloat, hn]

@[simp] theorem toFloat_float (x : Rat) : (Val.float x).toFloat id = x := rfl

@[simp] theorem plus_int (n m : Int) : plus (.int n) (.int m) = .int (n + m) := rfl

theorem exact_sum (x y : Rat) : (if y = 0 then x else if x = 0 then y else id (x + y)) = x + y := by
  by_cases hy : y = 0 <;> by_cases hx : x = 0 <;> simp [hx, hy]

@[simp] theorem plus_float_left (x : Rat) (b : Val) : plus (.float x) b = .float (x + b.toFloat id) :=
  congrArg Val.float (exact_sum x (b.toFloat id))

@[simp] theorem plus_float_right (a : Val) (y : Rat) : plus a (.float y) = .float (a.toFloat id + y) := by
  unfold plus Val.plus
  split
  · rename_i h
    cases h
  · exact congrArg Val.float (exact_sum (a.toFloat id) y)

theorem numeric_cases (v : Val) : (∃ n, numeric v = .int n) ∨ ∃ x, numeric v = .float x := by
  cases v with
  | int n => exact Or.inl ⟨n, rfl⟩
  | float x => exact Or.inr ⟨x, rfl⟩
  | none | bool b | str s | list vs | dict items => exact Or.inl ⟨0, rfl⟩

theorem plus_assoc (u v w : Val) :
    plus (plus (numeric u) (numeric v)) (numeric w) = plus (numeric u) (plus (numeric v) (numeric w)) := by
  rcases numeric_cases u with ⟨n, hu⟩ | ⟨x, hu⟩ <;> rcases numeric_cases v with ⟨m, hv⟩ | ⟨y, hv⟩ <;>
    rcases numeric_cases w with ⟨k, hw⟩ | ⟨z, hw⟩ <;> simp [hu, hv, hw, add_assoc]

/-! ## One value -/

section
variable (maps nums : Bool)

/-- It is merged as a map. -/
def IsMap (x : Option Val) : Prop := maps = true ∧ (x.getD (.int 0)).isDict = true

/-- It is added as a number; what is missing is zero. -/
def IsNum (x : Option Val) : Prop := nums = true ∧ (x.getD (.int 0)).isNumber = true

instance (x : Option Val) : Decidable (IsMap maps x) := inferInstanceAs (Decidable (_ ∧ _))

instance (x : Option Val) : Decidable (IsNum nums x) := inferInstanceAs (Decidable (_ ∧ _))

/-- The map that a value is, empty of what is none. -/
def mapOf (x : Option Val) : List (Str × Val) := (x.getD (.int 0)).items

/-- The number that a value is, zero of what is none. -/
def numOf (x : Option Val) : Val := numeric (x.getD (.int 0))

/-- What is held under a key of two usages, where it is held at all. -/
def combine (x y : Option Val) : Option Val :=
  (y.or x).map fun v =>
    if IsMap maps x ∨ IsMap maps y then .dict (merge_numeric_usage_map id (mapOf x) (mapOf y)).items
    else if IsNum nums x ∨ IsNum nums y then plus (numOf x) (numOf y)
    else v

variable {maps nums} {x y z : Option Val}

theorem isSome_of_isMap (h : IsMap maps x) : ∃ v, x = some v := by
  cases x with
  | some v => exact ⟨v, rfl⟩
  | none => cases h.2

theorem combine_of_isMap (h : IsMap maps x ∨ IsMap maps y) :
    combine maps nums x y = some (.dict (merge_numeric_usage_map id (mapOf x) (mapOf y)).items) := by
  have hsome : ∃ v, y.or x = some v := by
    rcases h with h | h
    · obtain ⟨v, rfl⟩ := isSome_of_isMap h
      cases y <;> exact ⟨_, rfl⟩
    · obtain ⟨v, rfl⟩ := isSome_of_isMap h
      exact ⟨v, rfl⟩
  obtain ⟨v, hv⟩ := hsome
  rw [combine, hv, Option.map_some, if_pos h]

theorem combine_of_isNum (hmap : ¬ (IsMap maps x ∨ IsMap maps y)) (h : IsNum nums x ∨ IsNum nums y)
    (hsome : ¬ (x = none ∧ y = none)) : combine maps nums x y = some (plus (numOf x) (numOf y)) := by
  cases hv : y.or x with
  | none => exact absurd (Option.or_eq_none_iff.mp hv).symm hsome
  | some v => rw [combine, hv, Option.map_some, if_neg hmap, if_pos h]

theorem combine_of_not (hmap : ¬ (IsMap maps x ∨ IsMap maps y)) (h : ¬ (IsNum nums x ∨ IsNum nums y)) :
    combine maps nums x y = y.or x := by
  rw [combine]
  simp only [if_neg hmap, if_neg h]
  cases y.or x <;> rfl

@[simp] theorem combine_eq_none : combine maps nums x y = none ↔ x = none ∧ y = none := by
  rw [combine, Option.map_eq_none_iff, Option.or_eq_none_iff, and_comm]

/-- A map on either side makes a map. -/
theorem isMap_combine : IsMap maps (combine maps nums x y) ↔ IsMap maps x ∨ IsMap maps y := by
  constructor
  · intro h
    by_contra hmap
    by_cases hnum : IsNum nums x ∨ IsNum nums y
    · by_cases hsome : x = none ∧ y = none
      · rw [combine_eq_none.mpr hsome] at h
        cases h.2
      · rw [combine_of_isNum hmap hnum hsome] at h
        exact Bool.false_ne_true ((isDict_of_isNumber (Val.isNumber_plus id _ _)).symm.trans h.2)
    · rw [combine_of_not hmap hnum] at h
      cases y with
      | none => exact hmap (Or.inl h)
      | some v => exact hmap (Or.inr h)
  · intro h
    rw [combine_of_isMap h]
    exact ⟨h.elim And.left And.left, rfl⟩

/-- A number on either side makes a number. -/
theorem isNum_combine (hmap : ¬ (IsMap maps x ∨ IsMap maps y)) :
    IsNum nums (combine maps nums x y) ↔ IsNum nums x ∨ IsNum nums y := by
  by_cases hnum : IsNum nums x ∨ IsNum nums y
  · refine iff_of_true ⟨hnum.elim And.left And.left, ?_⟩ hnum
    by_cases hsome : x = none ∧ y = none
    · rw [combine_eq_none.mpr hsome]
      rfl
    · rw [combine_of_isNum hmap hnum hsome]
      exact Val.isNumber_plus id _ _
  · refine iff_of_false ?_ hnum
    rw [combine_of_not hmap hnum]
    intro h
    cases y with
    | none => exact hnum (Or.inr ⟨h.1, rfl⟩)
    | some v => exact hnum (Or.inr h)

theorem items_of_not_isDict {v : Val} (h : ¬ v.isDict = true) : v.items = [] := by
  cases v with
  | dict items => exact absurd rfl h
  | none | bool b | int n | float x | str s | list vs => rfl

theorem mapOf_of_not (hmaps : maps = true) (h : ¬ IsMap maps x) : mapOf x = [] :=
  items_of_not_isDict fun hdict => h ⟨hmaps, hdict⟩

theorem merge_numeric_nil : (merge_numeric_usage_map id [] []).items = [] := by
  rw [merge_numeric_usage_map_eq]
  rfl

/-- The map of what two values make is that of their maps. -/
theorem mapOf_combine (hmaps : maps = true) :
    mapOf (combine maps nums x y) = (merge_numeric_usage_map id (mapOf x) (mapOf y)).items := by
  by_cases h : IsMap maps x ∨ IsMap maps y
  · rw [combine_of_isMap h]
    rfl
  · obtain ⟨hx, hy⟩ := not_or.mp h
    rw [mapOf_of_not hmaps (mt isMap_combine.mp h), mapOf_of_not hmaps hx, mapOf_of_not hmaps hy, merge_numeric_nil]

theorem numOf_of_not (hnums : nums = true) (h : ¬ IsNum nums x) : numOf x = .int 0 :=
  if_neg fun hnumber => h ⟨hnums, hnumber⟩

/-- The number of what two values make is that of their numbers. -/
theorem numOf_combine (hnums : nums = true) (hmap : ¬ (IsMap maps x ∨ IsMap maps y)) :
    numOf (combine maps nums x y) = plus (numOf x) (numOf y) := by
  by_cases hnum : IsNum nums x ∨ IsNum nums y
  · by_cases hsome : x = none ∧ y = none
    · rw [combine_eq_none.mpr hsome, hsome.1, hsome.2]
      rfl
    · rw [combine_of_isNum hmap hnum hsome]
      exact numeric_of_isNumber (Val.isNumber_plus id _ _)
  · obtain ⟨hx, hy⟩ := not_or.mp hnum
    rw [numOf_of_not hnums (mt (isNum_combine hmap).mp hnum), numOf_of_not hnums hx, numOf_of_not hnums hy]
    rfl

/-- **Combining is associative**, if merging the maps is. -/
theorem combine_assoc (hmerge : maps = true →
    merge_numeric_usage_map id (merge_numeric_usage_map id (mapOf x) (mapOf y)).items (mapOf z) =
      merge_numeric_usage_map id (mapOf x) (merge_numeric_usage_map id (mapOf y) (mapOf z)).items) :
    combine maps nums (combine maps nums x y) z = combine maps nums x (combine maps nums y z) := by
  by_cases hmap : IsMap maps x ∨ IsMap maps y ∨ IsMap maps z
  · -- a map among the three: on both sides they are merged as maps
    have hmaps : maps = true := hmap.elim And.left fun h => h.elim And.left And.left
    have hleft : IsMap maps (combine maps nums x y) ∨ IsMap maps z := by rwa [isMap_combine, or_assoc]
    have hright : IsMap maps x ∨ IsMap maps (combine maps nums y z) := by rwa [isMap_combine]
    rw [combine_of_isMap hleft, combine_of_isMap hright, mapOf_combine hmaps, mapOf_combine hmaps, hmerge hmaps]
  · obtain ⟨hx, hyz⟩ := not_or.mp hmap
    obtain ⟨hy, hz⟩ := not_or.mp hyz
    have hxy : ¬ (IsMap maps x ∨ IsMap maps y) := not_or.mpr ⟨hx, hy⟩
    have hleft : ¬ (IsMap maps (combine maps nums x y) ∨ IsMap maps z) := not_or.mpr ⟨mt isMap_combine.mp hxy, hz⟩
    have hright : ¬ (IsMap maps x ∨ IsMap maps (combine maps nums y z)) := not_or.mpr ⟨hx, mt isMap_combine.mp hyz⟩
    by_cases hnum : IsNum nums x ∨ IsNum nums y ∨ IsNum nums z
    · -- a number among the three: on both sides they are added
      have hnums : nums = true := hnum.elim And.left fun h => h.elim And.left And.left
      by_cases hnone : x = none ∧ y = none ∧ z = none
      · obtain ⟨rfl, rfl, rfl⟩ := hnone
        rfl
      · rw [combine_of_isNum hleft (by rw [isNum_combine hxy, or_assoc]; exact hnum)
            (by rw [combine_eq_none, and_assoc]; exact hnone),
          combine_of_isNum hright (by rw [isNum_combine hyz]; exact hnum) (by rw [combine_eq_none]; exact hnone),
          numOf_combine hnums hxy, numOf_combine hnums hyz]
        exact congrArg some (plus_assoc _ _ _)
    · -- neither: the last that is there stays
      obtain ⟨hnx, hnyz⟩ := not_or.mp hnum
      obtain ⟨hny, hnz⟩ := not_or.mp hnyz
      have hnxy : ¬ (IsNum nums x ∨ IsNum nums y) := not_or.mpr ⟨hnx, hny⟩
      rw [combine_of_not hleft (not_or.mpr ⟨mt (isNum_combine hxy).mp hnxy, hnz⟩),
        combine_of_not hright (not_or.mpr ⟨hnx, mt (isNum_combine hyz).mp hnyz⟩), combine_of_not hxy hnxy,
        combine_of_not hyz hnyz, Option.or_assoc]

end

/-! ## Details -/

theorem get?_merge_numeric (current incoming : List (Str × Val)) (k : Str) :
    (merge_numeric_usage_map id current incoming).get? k =
      combine true true (Dict.lookup current k) (Dict.lookup incoming k) := by
  rw [get?_merge_numeric_usage_map, combine]
  congr 1
  funext v
  simp only [mapAt, IsMap, IsNum, true_and]
  rfl

theorem keys_merge_numeric (current incoming : List (Str × Val)) :
    (merge_numeric_usage_map id current incoming).keys = ((Dict.firsts current).update (Dict.firsts incoming)).keys := by
  rw [merge_numeric_usage_map_eq, Dict.keys_map]

theorem keys_update_congr {d d' e e' : Obj} (hd : d.keys = d'.keys) (he : e.keys = e'.keys) :
    (d.update e).keys = (d'.update e').keys := by
  rw [Dict.keys_update_eq, Dict.keys_update_eq, he, hd]
  refine congrArg (d'.keys ++ ·) (List.filter_congr fun k _ => ?_)
  rw [decide_eq_decide, Dict.mem_iff_mem_keys, Dict.mem_iff_mem_keys, hd]

/-- **Merging details is associative**, the order of the keys included. -/
theorem merge_numeric_assoc (n : Nat) : ∀ a b c : List (Str × Val), sizeOf a + sizeOf b + sizeOf c ≤ n →
    merge_numeric_usage_map id (merge_numeric_usage_map id a b).items c =
      merge_numeric_usage_map id a (merge_numeric_usage_map id b c).items := by
  induction n with
  | zero =>
    intro a b c hle
    have hpos : 0 < sizeOf a := by
      cases a with
      | nil => simp only [List.nil.sizeOf_spec, Nat.one_pos]
      | cons p items => simp only [List.cons.sizeOf_spec]; omega
    omega
  | succ n ih =>
    intro a b c hle
    refine Dict.ext ?_ fun k => ?_
    · rw [keys_merge_numeric, keys_merge_numeric, Dict.firsts_items, Dict.firsts_items,
        keys_update_congr (keys_merge_numeric a b) rfl, keys_update_congr rfl (keys_merge_numeric b c), Dict.update_assoc]
    · have hab : Dict.lookup (merge_numeric_usage_map id a b).items k = _ := get?_merge_numeric a b k
      have hbc : Dict.lookup (merge_numeric_usage_map id b c).items k = _ := get?_merge_numeric b c k
      rw [get?_merge_numeric, get?_merge_numeric, hab, hbc]
      by_cases hmap : IsMap true (Dict.lookup a k) ∨ IsMap true (Dict.lookup b k) ∨ IsMap true (Dict.lookup c k)
      · -- one of the maps is a value of the key
        refine combine_assoc fun _ => ih _ _ _ ?_
        have ha := sizeOf_items a k
        have hb := sizeOf_items b k
        have hc := sizeOf_items c k
        unfold mapOf
        rcases hmap with h | h | h
        · have := ha.2 h.2
          omega
        · have := hb.2 h.2
          omega
        · have := hc.2 h.2
          omega
      · obtain ⟨hx, hyz⟩ := not_or.mp hmap
        obtain ⟨hy, hz⟩ := not_or.mp hyz
        refine combine_assoc fun _ => ?_
        rw [mapOf_of_not rfl hx, mapOf_of_not rfl hy, mapOf_of_not rfl hz, merge_numeric_nil]

/-! ## Usages -/

def tokenKeys : List Str := [kInputTokens, kOutputTokens, kTotalTokens]

/-- A count as it is reported: missing, null, or a natural number. -/
def IsCount (v : Val) : Prop := v = .none ∨ ∃ n : Nat, v = .int n

instance : DecidablePred IsCount
  | .none => isTrue (Or.inl rfl)
  | .int n => decidable_of_iff (0 ≤ n)
      ⟨fun h => Or.inr ⟨n.toNat, congrArg Val.int (Int.toNat_of_nonneg h).symm⟩, fun h => by
        rcases h with h | ⟨m, hm⟩
        · cases h
        · rw [Val.int.inj hm]
          exact Int.natCast_nonneg m⟩
  | .bool _ | .float _ | .str _ | .list _ | .dict _ => isFalse (by rintro (h | ⟨n, h⟩) <;> cases h)

/-- Whatever provider reports it, and under whichever keys, the counts of the usage are natural numbers. -/
def Metered (usage : Obj) : Prop := ∀ k ∈ tokenKeys ++ inputAliases ++ outputAliases, IsCount (field usage k)

instance : DecidablePred Metered := fun _ => inferInstanceAs (Decidable (∀ _ ∈ _, _))

section
variable (parseInt : Str → Option Int)

/-- What counts is the first count that is not zero. -/
theorem firstOf_metered {usage : Obj} {ks : List Str} (h : ∀ k ∈ ks, IsCount (field usage k)) :
    ∃ n : Nat, firstOf usage ks = .int n ∧ (n = 0 → ∀ k ∈ ks, (field usage k).truthy = false) := by
  induction ks with
  | nil => exact ⟨0, rfl, fun _ k hk => nomatch hk⟩
  | cons k ks ih =>
    obtain ⟨n, hn, hzero⟩ := ih fun j hj => h j (List.mem_cons_of_mem _ hj)
    have hskip : (field usage k).truthy = false → ∃ n : Nat, firstOf usage (k :: ks) = .int n ∧
        (n = 0 → ∀ j ∈ k :: ks, (field usage j).truthy = false) := by
      intro hfalsy
      refine ⟨n, ?_, fun hn0 j hj => ?_⟩
      · rw [firstOf, Val.or, hfalsy, if_neg Bool.false_ne_true, hn]
      · rcases List.mem_cons.mp hj with rfl | hj
        · exact hfalsy
        · exact hzero hn0 j hj
    rcases h k List.mem_cons_self with hnone | ⟨m, hm⟩
    · exact hskip (by rw [hnone]; rfl)
    · by_cases hm0 : m = 0
      · exact hskip (by rw [hm, hm0]; rfl)
      · refine ⟨m, ?_, fun h0 => absurd h0 hm0⟩
        rw [firstOf, hm, Val.or, if_pos ((truthy_int m).mpr hm0)]

/-- **A metered usage is counted when normalized.** -/
theorem normalize_metered {usage : Obj} (h : Metered usage) (hne : usage.items ≠ []) :
    ∃ counted, normalize_usage id parseInt usage = some counted ∧ Counted counted := by
  have hin : ∀ k ∈ kInputTokens :: inputAliases, k ∈ tokenKeys ++ inputAliases ++ outputAliases := by decide
  have hout : ∀ k ∈ kOutputTokens :: outputAliases, k ∈ tokenKeys ++ inputAliases ++ outputAliases := by decide
  obtain ⟨input, hinput, hinputZero⟩ := firstOf_metered fun k hk => h k (hin k hk)
  obtain ⟨output, houtput, houtputZero⟩ := firstOf_metered fun k hk => h k (hout k hk)
  -- a total of zero counts as none, and is then the sum, which is zero only if both counts are
  obtain ⟨total, htotal, htotalZero⟩ : ∃ total : Nat, totalTokens id usage = some (.int total) ∧
      (total = 0 → input = 0 ∧ output = 0) := by
    have hsum : Val.add id (inputTokens usage) (outputTokens usage) = some (.int (input + output : Nat)) := by
      rw [inputTokens, outputTokens, hinput, houtput]
      rfl
    rw [totalTokens]
    rcases h kTotalTokens (by decide) with hnone | ⟨m, hm⟩
    · rw [hnone, if_neg (by exact Bool.false_ne_true), hsum]
      exact ⟨input + output, rfl, fun h0 => by omega⟩
    · rw [hm]
      by_cases hm0 : m = 0
      · rw [if_neg fun ht => (truthy_int m).mp ht hm0, hsum]
        exact ⟨input + output, rfl, fun h0 => by omega⟩
      · rw [if_pos ((truthy_int m).mpr hm0)]
        exact ⟨m, rfl, fun h0 => absurd h0 hm0⟩
  refine ⟨((usage.set kInputTokens (.int input)).set kOutputTokens (.int output)).set kTotalTokens (.int total), ?_, ?_⟩
  · rw [normalize_usage, if_neg hne, htotal, inputTokens, hinput, outputTokens, houtput]
    rfl
  · -- the standard keys are written, and those of the providers left as they were
    have happ : ∀ k ∈ inputAliases ++ outputAliases, k ≠ kInputTokens ∧ k ≠ kOutputTokens ∧ k ≠ kTotalTokens := by decide
    have hfield : ∀ k ∈ inputAliases ++ outputAliases, field (((usage.set kInputTokens (.int input)).set kOutputTokens
        (.int output)).set kTotalTokens (.int total)) k = field usage k := by
      intro k hk
      obtain ⟨h₁, h₂, h₃⟩ := happ k hk
      rw [field_set, if_neg h₃, field_set, if_neg h₂, field_set, if_neg h₁]
    have h₁ : kInputTokens ≠ kOutputTokens := by decide
    have h₂ : kInputTokens ≠ kTotalTokens := by decide
    have h₃ : kOutputTokens ≠ kTotalTokens := by decide
    have hgetInput : (((usage.set kInputTokens (.int input)).set kOutputTokens (.int output)).set kTotalTokens
        (.int total)).get? kInputTokens = some (.int input) := by
      rw [Dict.get?_set_of_ne _ _ h₂, Dict.get?_set_of_ne _ _ h₁, Dict.get?_set_self]
    have hgetOutput : (((usage.set kInputTokens (.int input)).set kOutputTokens (.int output)).set kTotalTokens
        (.int total)).get? kOutputTokens = some (.int output) := by
      rw [Dict.get?_set_of_ne _ _ h₃, Dict.get?_set_self]
    refine ⟨⟨input, hgetInput, fun h0 k hk => ?_⟩, ⟨output, hgetOutput, fun h0 k hk => ?_⟩,
      ⟨total, Dict.get?_set_self _ _ _, fun h0 => ?_⟩⟩
    · rw [hfield k (List.mem_append_left _ hk)]
      exact hinputZero h0 k (List.mem_cons_of_mem _ hk)
    · rw [hfield k (List.mem_append_right _ hk)]
      exact houtputZero h0 k (List.mem_cons_of_mem _ hk)
    · obtain ⟨hi, ho⟩ := htotalZero h0
      rw [hgetInput, hgetOutput, hi, ho]
      exact ⟨rfl, rfl⟩

/-- A usage as it is summed up: none yet, or a counted one. -/
def Tallied (usage : Obj) : Prop := usage = .empty ∨ Counted usage

theorem empty_of_items {usage : Obj} (h : usage.items = []) : usage = .empty := by
  obtain ⟨items, hnodup⟩ := usage
  cases h
  rfl

theorem normalize_tallied {usage : Obj} (h : Metered usage) :
    ∃ tallied, normalize_usage id parseInt usage = some tallied ∧ Tallied tallied := by
  by_cases hne : usage.items = []
  · exact ⟨.empty, by rw [empty_of_items hne]; rfl, Or.inl rfl⟩
  · obtain ⟨counted, hcounted, hc⟩ := normalize_metered parseInt h hne
    exact ⟨counted, hcounted, Or.inr hc⟩

theorem Tallied.normalize {usage : Obj} (h : Tallied usage) : normalize_usage id parseInt usage = some usage := by
  rcases h with rfl | hc
  · rfl
  · exact normalize_usage_of_counted id parseInt hc

/-- What two tallied usages are merged into. -/
def mergeTallied (current incoming : Obj) : Obj :=
  if incoming.items = [] then current
  else if current.items = [] then incoming
  else mergeNormalized id current incoming

@[simp] theorem mergeTallied_empty (usage : Obj) : mergeTallied usage .empty = usage := rfl

@[simp] theorem empty_mergeTallied (usage : Obj) : mergeTallied .empty usage = usage := by
  unfold mergeTallied
  split
  · rename_i h
    exact (empty_of_items h).symm
  · rfl

theorem mergeTallied_counted {current incoming : Obj} (hc : Counted current) (hi : Counted incoming) :
    mergeTallied current incoming = mergeNormalized id current incoming := by
  rw [mergeTallied, if_neg (items_of_counted hi), if_neg (items_of_counted hc)]

theorem Tallied.merge {current incoming : Obj} (hc : Tallied current) (hi : Tallied incoming) :
    Tallied (mergeTallied current incoming) := by
  rcases hc with rfl | hc
  · rwa [empty_mergeTallied]
  · rcases hi with rfl | hi
    · exact Or.inr hc
    · rw [mergeTallied_counted hc hi]
      exact Or.inr (counted_mergeNormalized id hc hi)

theorem merge_usage_eq {current incoming n m : Obj} (hn : normalize_usage id parseInt current = some n)
    (hm : normalize_usage id parseInt incoming = some m) :
    merge_usage id parseInt current incoming = some (mergeTallied n m) := by
  rw [merge_usage, hn, hm]
  rfl

/-- A key that is summed holds the number that the two values combine to. -/
theorem get?_merged_sum {k : Str} (hk : k ∈ summableKeys) (current incoming : Obj) :
    (mergeNormalized id current incoming).get? k = combine false true (current.get? k) (incoming.get? k) := by
  have hapart : ∀ k ∈ summableKeys, k ≠ kCompletionTokens ∧ k ≠ kPromptTokens ∧ k ∉ detailKeys := by decide
  obtain ⟨hc, hp, hd⟩ := hapart k hk
  have hmap : ¬ (IsMap false (current.get? k) ∨ IsMap false (incoming.get? k)) :=
    not_or.mpr ⟨fun h => Bool.false_ne_true h.1, fun h => Bool.false_ne_true h.1⟩
  rw [get?_mergeNormalized, if_neg hc, if_neg hp, if_neg hd, if_pos hk]
  by_cases hnone : current.get? k = none ∧ incoming.get? k = none
  · have hmem : ¬ (k ∈ current ∨ k ∈ incoming) :=
      not_or.mpr ⟨Dict.get?_eq_none_iff.mp hnone.1, Dict.get?_eq_none_iff.mp hnone.2⟩
    rw [sumAt, if_neg hmem, hnone.1, hnone.2]
    rfl
  · have hmem : k ∈ current ∨ k ∈ incoming := by
      by_contra h
      obtain ⟨hx, hy⟩ := not_or.mp h
      exact hnone ⟨Dict.get?_eq_none_iff.mpr hx, Dict.get?_eq_none_iff.mpr hy⟩
    rw [sumAt, if_pos hmem]
    by_cases hnum : IsNum true (current.get? k) ∨ IsNum true (incoming.get? k)
    · rw [combine_of_isNum hmap hnum hnone]
      simp only [IsNum, true_and] at hnum
      simp only [if_pos hnum, Option.some_or]
      rfl
    · rw [combine_of_not hmap hnum]
      simp only [IsNum, true_and] at hnum
      simp only [if_neg hnum, Option.none_or]

theorem isDict_field (usage : Obj) (k : Str) : (field usage k).isDict = true ↔ IsMap true (usage.get? k) := by
  unfold field IsMap
  cases usage.get? k <;> simp <;> rfl

theorem items_field (usage : Obj) (k : Str) : (field usage k).items = mapOf (usage.get? k) := by
  unfold field mapOf
  cases usage.get? k <;> rfl

/-- A key of details holds the map that the two values combine to. -/
theorem get?_merged_detail {k : Str} (hk : k ∈ detailKeys) (current incoming : Obj) :
    (mergeNormalized id current incoming).get? k = combine true false (current.get? k) (incoming.get? k) := by
  have hapart : ∀ k ∈ detailKeys, k ≠ kCompletionTokens ∧ k ≠ kPromptTokens := by decide
  obtain ⟨hc, hp⟩ := hapart k hk
  have hnum : ¬ (IsNum false (current.get? k) ∨ IsNum false (incoming.get? k)) :=
    not_or.mpr ⟨fun h => Bool.false_ne_true h.1, fun h => Bool.false_ne_true h.1⟩
  have hdict : (field current k).isDict = true ∨ (field incoming k).isDict = true ↔
      IsMap true (current.get? k) ∨ IsMap true (incoming.get? k) :=
        or_congr (isDict_field current k) (isDict_field incoming k)
  rw [get?_mergeNormalized, if_neg hc, if_neg hp, if_pos hk, detailAt]
  by_cases hmap : IsMap true (current.get? k) ∨ IsMap true (incoming.get? k)
  · rw [if_pos (hdict.mpr hmap), combine_of_isMap hmap, items_field, items_field, Option.some_or]
  · rw [if_neg (mt hdict.mp hmap), combine_of_not hmap hnum, Option.none_or]

/-- **Merging is associative** on what is summed and on the details. -/
theorem mergeTallied_assoc {a b c : Obj} (ha : Tallied a) (hb : Tallied b) (hc : Tallied c) {k : Str}
    (hk : k ∈ summableKeys ++ detailKeys) :
    (mergeTallied (mergeTallied a b) c).get? k = (mergeTallied a (mergeTallied b c)).get? k := by
  rcases ha with rfl | ha
  · rw [empty_mergeTallied, empty_mergeTallied]
  rcases hb with rfl | hb
  · rw [mergeTallied_empty, empty_mergeTallied]
  rcases hc with rfl | hc
  · rw [mergeTallied_empty, mergeTallied_empty]
  rw [mergeTallied_counted ha hb, mergeTallied_counted hb hc, mergeTallied_counted (counted_mergeNormalized id ha hb) hc,
    mergeTallied_counted ha (counted_mergeNormalized id hb hc)]
  rcases List.mem_append.mp hk with hsum | hdetail
  · simp only [get?_merged_sum hsum]
    exact combine_assoc fun hmaps => absurd hmaps Bool.false_ne_true
  · simp only [get?_merged_detail hdetail]
    exact combine_assoc fun _ => merge_numeric_assoc _ _ _ _ le_rfl

/-! ## A list of usages -/

/-- The count under a key, zero where there is none. -/
def tokens (usage : Obj) (k : Str) : Int :=
  match usage.get? k with
  | some (.int n) => n
  | _ => 0

theorem tokens_mergeTallied {current incoming : Obj} (hc : Tallied current) (hi : Tallied incoming) {k : Str}
    (hk : k ∈ tokenKeys) : tokens (mergeTallied current incoming) k = tokens current k + tokens incoming k := by
  rcases hc with rfl | hc
  · rw [empty_mergeTallied]
    exact (Int.zero_add _).symm
  rcases hi with rfl | hi
  · exact (Int.add_zero _).symm
  have hsum : ∀ k ∈ tokenKeys, k ∈ summableKeys := by decide
  have hcount : ∀ {usage : Obj}, Counted usage → ∃ n : Nat, usage.get? k = some (.int n) := by
    intro usage h
    simp only [tokenKeys, List.mem_cons, List.not_mem_nil, or_false] at hk
    rcases hk with rfl | rfl | rfl
    · exact h.input.imp fun _ => And.left
    · exact h.output.imp fun _ => And.left
    · exact h.total.imp fun _ => And.left
  obtain ⟨n, hn⟩ := hcount hc
  obtain ⟨m, hm⟩ := hcount hi
  rw [mergeTallied_counted hc hi, tokens, get?_merged_sum (hsum k hk), tokens, tokens, hn, hm]
  rfl

/-- The totals so far, and what each further call adds to them. -/
theorem foldlM_merge_usage {usages : List Obj} (h : ∀ usage ∈ usages, Metered usage) : ∀ {sofar : Obj}, Tallied sofar →
    ∃ total counted, usages.foldlM (merge_usage id parseInt) sofar = some total ∧
      usages.mapM (normalize_usage id parseInt) = some counted ∧
      ∀ k ∈ tokenKeys, tokens total k = tokens sofar k + (counted.map (tokens · k)).foldr (· + ·) 0 := by
  induction usages with
  | nil => exact fun {sofar} _ => ⟨sofar, [], rfl, rfl, fun k _ => (Int.add_zero _).symm⟩
  | cons usage usages ih =>
    intro sofar hsofar
    obtain ⟨n, hn, htallied⟩ := normalize_tallied parseInt (h usage List.mem_cons_self)
    obtain ⟨total, counted, htotal, hcounted, hsum⟩ :=
      ih (fun u hu => h u (List.mem_cons_of_mem _ hu)) (hsofar.merge htallied)
    refine ⟨total, n :: counted, ?_, ?_, fun k hk => ?_⟩
    · rw [List.foldlM_cons, merge_usage_eq parseInt (hsofar.normalize parseInt) hn, Option.bind_eq_bind, Option.bind_some,
        htotal]
    · rw [List.mapM_cons, hn, hcounted]
      rfl
    · rw [hsum k hk, tokens_mergeTallied hsofar htallied hk, List.map_cons, List.foldr_cons, Int.add_assoc]

/-- **Usage accounting is a sum.** Merging metered usages is associative on counts, costs and details, the empty usage
    leaves the other normalized, and the totals of a list of usages are the sums of the normalized counts. -/
theorem merge_usage_sums {a b c : Obj} (ha : Metered a) (hb : Metered b) (hc : Metered c) {usages : List Obj}
    (h : ∀ usage ∈ usages, Metered usage) :
    (∃ ab bc left right, merge_usage id parseInt a b = some ab ∧ merge_usage id parseInt b c = some bc ∧
      merge_usage id parseInt ab c = some left ∧ merge_usage id parseInt a bc = some right ∧
      ∀ k ∈ summableKeys ++ detailKeys, left.get? k = right.get? k) ∧
    (∃ normalized, normalize_usage id parseInt a = some normalized ∧
      normalize_usage id parseInt normalized = some normalized ∧ merge_usage id parseInt a .empty = some normalized ∧
      merge_usage id parseInt .empty a = some normalized) ∧
    ∃ total counted, usages.foldlM (merge_usage id parseInt) .empty = some total ∧
      usages.mapM (normalize_usage id parseInt) = some counted ∧
      ∀ k ∈ tokenKeys, tokens total k = (counted.map (tokens · k)).foldr (· + ·) 0 := by
  obtain ⟨n, hn, hna⟩ := normalize_tallied parseInt ha
  obtain ⟨m, hm, hmb⟩ := normalize_tallied parseInt hb
  obtain ⟨o, ho, hoc⟩ := normalize_tallied parseInt hc
  have hab := (hna.merge hmb).normalize parseInt
  have hbc := (hmb.merge hoc).normalize parseInt
  have hempty : normalize_usage id parseInt .empty = some .empty := rfl
  refine ⟨⟨_, _, _, _, merge_usage_eq parseInt hn hm, merge_usage_eq parseInt hm ho, merge_usage_eq parseInt hab ho,
    merge_usage_eq parseInt hn hbc, fun k hk => mergeTallied_assoc hna hmb hoc hk⟩,
    ⟨n, hn, hna.normalize parseInt, ?_, ?_⟩, ?_⟩
  · rw [merge_usage_eq parseInt hn hempty, mergeTallied_empty]
  · rw [merge_usage_eq parseInt hempty hn, empty_mergeTallied]
  · obtain ⟨total, counted, htotal, hcounted, hsum⟩ := foldlM_merge_usage parseInt h (Or.inl rfl)
    exact ⟨total, counted, htotal, hcounted, fun k hk => (hsum k hk).trans (Int.zero_add _)⟩

end

/-- Three calls, as OpenAI, Ollama and llama.cpp report them. -/
def openAICall : Obj := Dict.firsts [(kPromptTokens, .int 10), (kCompletionTokens, .int 5), (kTotalTokens, .int 15),
  (py "cost", .float (1 / 4)), (py "prompt_tokens_details", .dict [(py "cached_tokens", .int 4)])]
def ollamaCall : Obj := Dict.firsts [(py "prompt_eval_count", .int 0), (py "eval_count", .int 7)]
def llamaCall : Obj := Dict.firsts [(py "prompt_n", .int 3), (py "predicted_n", .none)]

/-- The three calls add up. -/
theorem merge_usage_sums_calls :
    (∃ ab bc left right, merge_usage id noParse openAICall ollamaCall = some ab ∧
      merge_usage id noParse ollamaCall llamaCall = some bc ∧ merge_usage id noParse ab llamaCall = some left ∧
      merge_usage id noParse openAICall bc = some right ∧ ∀ k ∈ summableKeys ++ detailKeys, left.get? k = right.get? k) ∧
    (∃ normalized, normalize_usage id noParse openAICall = some normalized ∧
      normalize_usage id noParse normalized = some normalized ∧
      merge_usage id noParse openAICall .empty = some normalized ∧
      merge_usage id noParse .empty openAICall = some normalized) ∧
    ∃ total counted, [openAICall, ollamaCall, llamaCall].foldlM (merge_usage id noParse) .empty = some total ∧
      [openAICall, ollamaCall, llamaCall].mapM (normalize_usage id noParse) = some counted ∧
      ∀ k ∈ tokenKeys, tokens total k = (counted.map (tokens · k)).foldr (· + ·) 0 := by
  have hopenAI : Metered openAICall := by decide
  have hollama : Metered ollamaCall := by decide
  have hllama : Metered llamaCall := by decide
  refine merge_usage_sums noParse hopenAI hollama hllama fun usage hu => ?_
  simp only [List.mem_cons, List.not_mem_nil, or_false] at hu
  rcases hu with rfl | rfl | rfl
  · exact hopenAI
  · exact hollama
  · exact hllama

end Chats
end MaterialOpenWebui
