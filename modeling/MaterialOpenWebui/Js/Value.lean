import MaterialOpenWebui.Js.Text
import MaterialOpenWebui.Js.Number

/-!
# `Js.Value` — JavaScript data values

Plain data as a program of ours passes it around: primitives, arrays and objects. An object is the list of
its own properties, in the order `Object.entries` visits them; an array hole reads as `undefined`
everywhere these programs look at one, and is that.
-/

namespace Js

/-- A JavaScript data value. -/
inductive JsValue where
  | undefined
  | null
  | bool (b : Bool)
  | num (n : JsNumber)
  | str (s : JsString)
  | arr (vs : List JsValue)
  | obj (ps : List (JsString × JsValue))

namespace JsValue

/-- Induction over values: the hypothesis of an array or object covers every element or property. -/
@[induction_eliminator]
theorem induct {P : JsValue → Prop} (undefined : P .undefined) (null : P .null)
    (bool : ∀ b, P (.bool b)) (num : ∀ n, P (.num n)) (str : ∀ s, P (.str s))
    (arr : ∀ vs, (∀ v ∈ vs, P v) → P (.arr vs)) (obj : ∀ ps, (∀ p ∈ ps, P p.2) → P (.obj ps))
    (v : JsValue) : P v :=
  @JsValue.rec P (fun vs => ∀ v ∈ vs, P v) (fun ps => ∀ p ∈ ps, P p.2) (fun p => P p.2)
    undefined null bool num str arr obj
    (by simp) (fun _ _ hv hvs v hmem => (List.mem_cons.mp hmem).elim (fun h => h ▸ hv) (hvs v))
    (by simp) (fun _ _ hp hps p hmem => (List.mem_cons.mp hmem).elim (fun h => h ▸ hp) (hps p))
    (fun _ _ hv => hv) v

/-- An object names each of its properties once, at every depth. -/
inductive Wf : JsValue → Prop where
  | undefined : Wf .undefined
  | null : Wf .null
  | bool (b : Bool) : Wf (.bool b)
  | num (n : JsNumber) : Wf (.num n)
  | str (s : JsString) : Wf (.str s)
  | arr {vs : List JsValue} (h : ∀ v ∈ vs, Wf v) : Wf (.arr vs)
  | obj {ps : List (JsString × JsValue)} (hk : (ps.map Prod.fst).Nodup) (h : ∀ p ∈ ps, Wf p.2) :
      Wf (.obj ps)

theorem Wf.elems {vs : List JsValue} (h : Wf (.arr vs)) : ∀ v ∈ vs, Wf v := by
  cases h with
  | arr h => exact h

theorem Wf.keys {ps : List (JsString × JsValue)} (h : Wf (.obj ps)) : (ps.map Prod.fst).Nodup := by
  cases h with
  | obj hk _ => exact hk

theorem Wf.props {ps : List (JsString × JsValue)} (h : Wf (.obj ps)) : ∀ p ∈ ps, Wf p.2 := by
  cases h with
  | obj _ h => exact h

/-! ## Reading a value -/

/-- `v[k]` for an own property; anything else reads `undefined`. -/
def get : JsValue → JsString → JsValue
  | .obj ps, k => (ps.lookup k).getD .undefined
  | _, _ => .undefined

/-- `v == null`: the two values on which a property access throws. -/
def isNullish : JsValue → Bool
  | .undefined => true
  | .null => true
  | _ => false

/-- `v === undefined`. -/
def isUndefined : JsValue → Bool
  | .undefined => true
  | _ => false

/-- `Boolean(v)`. -/
def truthy : JsValue → Bool
  | .undefined => false
  | .null => false
  | .bool b => b
  | .num .nan => false
  | .num (.infinity _) => true
  | .num (.finite d) => d.digits != 0
  | .str s => s != []
  | .arr _ => true
  | .obj _ => true

/-- `a || b`. -/
def or (a b : JsValue) : JsValue := if a.truthy then a else b

/-- `v === 'text'`. -/
def isStr : JsValue → JsString → Bool
  | .str s, t => s == t
  | _, _ => false

/-- `v === true`. -/
def isTrue : JsValue → Bool
  | .bool b => b
  | _ => false

/-- `v === false`. -/
def isFalse : JsValue → Bool
  | .bool b => !b
  | _ => false

/-- `v && typeof v === 'object'`. -/
def isObject : JsValue → Bool
  | .arr _ => true
  | .obj _ => true
  | _ => false

/-- The text of a value with `typeof v === 'string'`. -/
def asStr : JsValue → Option JsString
  | .str s => some s
  | _ => none

/-- The elements of an array; `Array.isArray(v) ? v : []`. -/
def elemsOrNil : JsValue → List JsValue
  | .arr vs => vs
  | _ => []

theorem isStr_iff {v : JsValue} {t : JsString} : v.isStr t = true ↔ v = .str t := by
  cases v <;> simp [isStr]

theorem isUndefined_iff {v : JsValue} : v.isUndefined = true ↔ v = .undefined := by
  cases v <;> simp [isUndefined]

theorem mem_of_lookup {α : Type} {ps : List (JsString × α)} {k : JsString} {a : α}
    (h : ps.lookup k = some a) : (k, a) ∈ ps := by
  obtain ⟨l₁, l₂, rfl, -⟩ := List.lookup_eq_some_iff.mp h
  simp

theorem wf_get {v : JsValue} (h : v.Wf) (k : JsString) : (v.get k).Wf := by
  cases v with
  | obj ps =>
    simp only [get]
    cases hl : ps.lookup k with
    | none => exact .undefined
    | some w => exact h.props (k, w) (mem_of_lookup hl)
  | _ => exact .undefined

/-- Joining texts with a separator, as `Array.prototype.join` does. -/
def joinWith (sep : JsString) : List JsString → JsString
  | [] => []
  | [s] => s
  | s :: t :: ss => s ++ sep ++ joinWith sep (t :: ss)

mutual

/-- `String(v)`. An object whose own `toString` hides the inherited one cannot be converted: data carries
    no functions, so the conversion throws. -/
def toStr : JsValue → Option JsString
  | .undefined => some (js "undefined")
  | .null => some (js "null")
  | .bool true => some (js "true")
  | .bool false => some (js "false")
  | .num n => some (ofChars n.toText)
  | .str s => some s
  | .arr vs => (elemsToStr vs).map (joinWith (js ","))
  | .obj ps => if (ps.lookup (js "toString")).isSome then none else some (js "[object Object]")

/-- The element texts of `Array.prototype.join`: `null` and `undefined` are empty. -/
def elemsToStr : List JsValue → Option (List JsString)
  | [] => some []
  | .undefined :: vs => (elemsToStr vs).map ([] :: ·)
  | .null :: vs => (elemsToStr vs).map ([] :: ·)
  | v :: vs =>
    match toStr v, elemsToStr vs with
    | some s, some ss => some (s :: ss)
    | _, _ => none

end

/-- `Number(v)`, given what it makes of texts; `none` where the conversion to a text throws. -/
def toNumber (number : JsString → JsNumber) : JsValue → Option JsNumber
  | .undefined => some .nan
  | .null => some (.ofNat 0)
  | .bool b => some (.ofNat b.toNat)
  | .num n => some n
  | .str s => some (number s)
  | .arr vs => (toStr (.arr vs)).map number
  | .obj ps => (toStr (.obj ps)).map number

end JsValue

/-! ## Finding a property -/

section
variable {α : Type}

/-- With names that do not repeat, every property is the one its name finds. -/
theorem lookup_of_mem {ps : List (JsString × α)} (hk : (ps.map Prod.fst).Nodup) {k : JsString} {a : α}
    (h : (k, a) ∈ ps) : ps.lookup k = some a := by
  induction ps with
  | nil => exact absurd h List.not_mem_nil
  | cons p ps ih =>
    obtain ⟨k', a'⟩ := p
    rw [List.map_cons, List.nodup_cons] at hk
    rcases List.mem_cons.mp h with heq | hmem
    · cases heq
      simp
    · have hne : k ≠ k' := by
        rintro rfl
        exact hk.1 (List.mem_map.mpr ⟨(k, a), hmem, rfl⟩)
      have hbeq : (k == k') = false := by simpa using hne
      simp only [List.lookup_cons, hbeq]
      exact ih hk.2 hmem

theorem lookup_eq_some_iff {ps : List (JsString × α)} (hk : (ps.map Prod.fst).Nodup) {k : JsString}
    {a : α} : ps.lookup k = some a ↔ (k, a) ∈ ps :=
  ⟨JsValue.mem_of_lookup, lookup_of_mem hk⟩

/-- Where the properties stand does not matter to a lookup. -/
theorem lookup_perm {ps qs : List (JsString × α)} (hk : (ps.map Prod.fst).Nodup) (h : ps.Perm qs)
    (k : JsString) : ps.lookup k = qs.lookup k := by
  have hk' : (qs.map Prod.fst).Nodup := (h.map Prod.fst).nodup_iff.mp hk
  apply Option.ext
  intro a
  rw [lookup_eq_some_iff hk, lookup_eq_some_iff hk', h.mem_iff]

theorem lookup_map {β : Type} (f : α → β) (ps : List (JsString × α)) (k : JsString) :
    (ps.map (fun p => (p.1, f p.2))).lookup k = (ps.lookup k).map f := by
  induction ps with
  | nil => rfl
  | cons p ps ih =>
    obtain ⟨k', a⟩ := p
    simp only [List.map_cons, List.lookup_cons, ih]
    cases k == k' <;> rfl

end

/-! ## The order of own properties

An array index is a canonical decimal below `2^32 - 1`; such properties come first and in numeric order,
whenever they were added. -/

def digitValue (u : UInt16) : Option Nat :=
  if 0x30 ≤ u.toNat && u.toNat ≤ 0x39 then some (u.toNat - 0x30) else none

def decimalValue (k : JsString) : Option Nat :=
  k.foldl (fun acc u => do
    let n ← acc
    let d ← digitValue u
    some (10 * n + d)) (some 0)

/-- The array index a property name denotes, if any: `"0"`, or digits without a leading zero. -/
def arrayIndex (k : JsString) : Option Nat :=
  match k with
  | [] => none
  | u :: _ =>
    match decimalValue k with
    | some n => if (u = 0x30 → k = js "0") ∧ n < 4294967295 then some n else none
    | none => none

/-- Where a name stands: an index at its number, every other name after all of them. -/
def ownRank (k : JsString) : Nat := (arrayIndex k).getD 4294967295

/-- The properties of an object built by adding `ps` one after another. -/
def ownOrder {α : Type} (ps : List (JsString × α)) : List (JsString × α) :=
  ps.insertionSort (fun a b => ownRank a.1 ≤ ownRank b.1)

instance ownRank_total {α : Type} :
    Std.Total (fun a b : JsString × α => ownRank a.1 ≤ ownRank b.1) := ⟨fun _ _ => Nat.le_total _ _⟩

instance ownRank_trans {α : Type} :
    IsTrans (JsString × α) (fun a b => ownRank a.1 ≤ ownRank b.1) := ⟨fun _ _ _ => Nat.le_trans⟩

/-- Names in own-property order. -/
def InOrder {α : Type} (ps : List (JsString × α)) : Prop := ps.Pairwise (fun a b => ownRank a.1 ≤ ownRank b.1)

theorem inOrder_ownOrder {α : Type} (ps : List (JsString × α)) : InOrder (ownOrder ps) :=
  List.pairwise_insertionSort _ ps

theorem InOrder.ownOrder_eq {α : Type} {ps : List (JsString × α)} (h : InOrder ps) : ownOrder ps = ps :=
  List.Pairwise.insertionSort_eq h

theorem ownOrder_perm {α : Type} (ps : List (JsString × α)) : (ownOrder ps).Perm ps :=
  List.perm_insertionSort _ ps

theorem mem_ownOrder {α : Type} {ps : List (JsString × α)} {p : JsString × α} :
    p ∈ ownOrder ps ↔ p ∈ ps := List.mem_insertionSort _

/-- Assign one property: in place if it is there already, else at the end. -/
def setProp {α : Type} (ps : List (JsString × α)) (k : JsString) (a : α) : List (JsString × α) :=
  if k ∈ ps.map Prod.fst then ps.map (fun p => if p.1 = k then (k, a) else p) else ps ++ [(k, a)]

theorem lookup_cons_eq {α : Type} (p : JsString × α) (ps : List (JsString × α)) (id : JsString) :
    (p :: ps).lookup id = if p.1 = id then some p.2 else ps.lookup id := by
  rw [List.lookup_cons]
  by_cases h : p.1 = id
  · rw [if_pos h, h, beq_self_eq_true]
  · rw [if_neg h, beq_false_of_ne (Ne.symm h)]

theorem lookup_append_singleton {α : Type} (ps : List (JsString × α)) (k id : JsString) (a : α) (h : k ∉ ps.map Prod.fst) :
    (ps ++ [(k, a)]).lookup id = if k = id then some a else ps.lookup id := by
  induction ps with
  | nil => exact lookup_cons_eq (k, a) [] id
  | cons p ps ih =>
    rw [List.map_cons, List.mem_cons, not_or] at h
    rw [List.cons_append, lookup_cons_eq, lookup_cons_eq, ih h.2]
    by_cases hp : p.1 = id
    · rw [if_pos hp, if_pos hp, if_neg (fun hk => h.1 (hk.trans hp.symm))]
    · rw [if_neg hp, if_neg hp]

theorem lookup_replace {α : Type} (ps : List (JsString × α)) (k id : JsString) (a : α) :
    (ps.map fun p => if p.1 = k then (k, a) else p).lookup id =
      if k = id ∧ k ∈ ps.map Prod.fst then some a else ps.lookup id := by
  induction ps with
  | nil => simp
  | cons p ps ih =>
    rw [List.map_cons, lookup_cons_eq, lookup_cons_eq, ih]
    by_cases hp : p.1 = k
    · rw [if_pos hp, hp]
      by_cases hid : k = id <;> simp [hid, hp]
    · rw [if_neg hp]
      have hiff : (k = id ∧ k ∈ (p :: ps).map Prod.fst) ↔ (k = id ∧ k ∈ ps.map Prod.fst) := by
        rw [List.map_cons, List.mem_cons, or_iff_right (Ne.symm hp)]
      rw [if_congr hiff rfl rfl]
      by_cases hid : p.1 = id
      · rw [if_pos hid, if_neg (fun h => hp (hid.trans h.1.symm)), if_pos hid]
      · rw [if_neg hid, if_neg hid]

/-- After an assignment its name finds the new value, and every other name what it found before. -/
theorem lookup_setProp {α : Type} (ps : List (JsString × α)) (k id : JsString) (a : α) :
    (setProp ps k a).lookup id = if k = id then some a else ps.lookup id := by
  rw [setProp]
  by_cases hmem : k ∈ ps.map Prod.fst
  · rw [if_pos hmem, lookup_replace, if_congr (and_iff_left hmem) rfl rfl]
  · rw [if_neg hmem, lookup_append_singleton ps k id a hmem]

/-- `Object.fromEntries`: the properties of the object built by creating `es` in turn. -/
def fromEntries {α : Type} (es : List (JsString × α)) : List (JsString × α) :=
  ownOrder (es.foldl (fun ps e => setProp ps e.1 e.2) [])

theorem foldl_setProp_of_nodup {α : Type} : ∀ (es acc : List (JsString × α)),
    ((acc ++ es).map Prod.fst).Nodup →
    es.foldl (fun ps e => setProp ps e.1 e.2) acc = acc ++ es := by
  intro es
  induction es with
  | nil => intro acc _; simp
  | cons e es ih =>
    intro acc h
    have hnew : e.1 ∉ acc.map Prod.fst := by
      intro hmem
      rw [List.map_append, List.map_cons] at h
      exact (List.nodup_append.mp h).2.2 e.1 hmem e.1 (by simp) rfl
    rw [List.foldl_cons, setProp, if_neg hnew, ih _ (by simpa using h)]
    simp

/-- Entries that repeat no name become the properties as they are. -/
theorem fromEntries_of_nodup {α : Type} {es : List (JsString × α)}
    (h : (es.map Prod.fst).Nodup) : fromEntries es = ownOrder es := by
  unfold fromEntries
  rw [foldl_setProp_of_nodup es [] (by simpa using h), List.nil_append]

theorem mem_of_mem_setProp {α : Type} {ps : List (JsString × α)} {k : JsString} {a : α} {p : JsString × α}
    (h : p ∈ setProp ps k a) : p ∈ ps ∨ p = (k, a) := by
  rw [setProp] at h
  split at h
  · obtain ⟨q, hq, rfl⟩ := List.mem_map.mp h
    split
    · exact .inr rfl
    · exact .inl hq
  · exact (List.mem_append.mp h).imp id List.mem_singleton.mp

/-- Every property comes from an entry. -/
theorem mem_of_mem_fromEntries {α : Type} {es : List (JsString × α)} {p : JsString × α}
    (h : p ∈ fromEntries es) : p ∈ es := by
  have hfold : ∀ (es acc : List (JsString × α)), p ∈ es.foldl (fun ps e => setProp ps e.1 e.2) acc → p ∈ acc ∨ p ∈ es := by
    intro es
    induction es with
    | nil => exact fun acc => .inl
    | cons e es ih =>
      intro acc hmem
      rcases ih _ hmem with hmem | hmem
      · exact (mem_of_mem_setProp hmem).imp id fun heq => List.mem_cons.mpr (.inl heq)
      · exact .inr (List.mem_cons_of_mem _ hmem)
  exact (hfold es [] (mem_ownOrder.mp h)).resolve_left List.not_mem_nil

theorem keys_setProp_eq {α : Type} (ps : List (JsString × α)) (k : JsString) (a : α) :
    (setProp ps k a).map Prod.fst = if k ∈ ps.map Prod.fst then ps.map Prod.fst else ps.map Prod.fst ++ [k] := by
  rw [setProp]
  split
  · rw [List.map_map]
    refine List.map_congr_left fun p _ => ?_
    show (if p.1 = k then (k, a) else p).1 = p.1
    split
    · rename_i hk
      exact hk.symm
    · rfl
  · rw [List.map_append, List.map_singleton]

/-- Which names there are after an assignment does not depend on the values. -/
theorem keys_setProp {α : Type} {ps qs : List (JsString × α)}
    (h : ps.map Prod.fst = qs.map Prod.fst) (k : JsString) (a b : α) :
    (setProp ps k a).map Prod.fst = (setProp qs k b).map Prod.fst := by
  rw [keys_setProp_eq, keys_setProp_eq, h]

theorem nodup_setProp {α : Type} {ps : List (JsString × α)} (h : (ps.map Prod.fst).Nodup) (k : JsString) (a : α) :
    ((setProp ps k a).map Prod.fst).Nodup := by
  rw [keys_setProp_eq]
  split
  · exact h
  · rename_i hk
    refine List.nodup_append.mpr ⟨h, List.nodup_singleton k, fun x hx y hy heq => ?_⟩
    rw [heq, List.mem_singleton.mp hy] at hx
    exact hk hx

theorem nodup_fromEntries {α : Type} (es : List (JsString × α)) : ((fromEntries es).map Prod.fst).Nodup := by
  have hfold : ∀ (es acc : List (JsString × α)), (acc.map Prod.fst).Nodup →
      ((es.foldl (fun ps e => setProp ps e.1 e.2) acc).map Prod.fst).Nodup := by
    intro es
    induction es with
    | nil => exact fun _ => id
    | cons e es ih => exact fun acc h => ih _ (nodup_setProp h e.1 e.2)
  exact ((ownOrder_perm _).map Prod.fst).nodup_iff.mpr (hfold es [] List.nodup_nil)

/-- Only the names decide the order, so changing the values commutes with it. -/
theorem map_ownOrder {α β : Type} (f : α → β) (ps : List (JsString × α)) :
    (ownOrder ps).map (fun p => (p.1, f p.2)) = ownOrder (ps.map (fun p => (p.1, f p.2))) :=
  List.map_insertionSort _ _ _ ps (fun _ _ _ _ => Iff.rfl)

/-! ## Names and what they find -/

section
variable {α : Type}

theorem lookup_eq_none {ps : List (JsString × α)} {name : JsString} : ps.lookup name = none ↔ name ∉ ps.map Prod.fst := by
  induction ps with
  | nil => simp
  | cons p ps ih =>
    rw [lookup_cons_eq, List.map_cons, List.mem_cons, not_or]
    by_cases hp : p.1 = name
    · simp [hp]
    · rw [if_neg hp, ih]
      exact (and_iff_right (Ne.symm hp)).symm

/-- The same names in the same order, and the same value under each of them. -/
theorem eq_of_lookup {ps qs : List (JsString × α)} (hkeys : ps.map Prod.fst = qs.map Prod.fst) (hk : (ps.map Prod.fst).Nodup)
    (h : ∀ name, ps.lookup name = qs.lookup name) : ps = qs := by
  induction ps generalizing qs with
  | nil => exact (List.map_eq_nil_iff.mp hkeys.symm).symm
  | cons p ps ih =>
    cases qs with
    | nil => cases hkeys
    | cons q qs =>
      obtain ⟨hname, hkeys⟩ := List.cons.inj hkeys
      rw [List.map_cons, List.nodup_cons] at hk
      have hvalue : p.2 = q.2 := by
        have hp := h p.1
        rw [lookup_cons_eq, lookup_cons_eq, if_pos rfl, if_pos hname.symm] at hp
        exact Option.some.inj hp
      have htail : ps = qs := by
        refine ih hkeys hk.2 fun name => ?_
        by_cases hp : p.1 = name
        · rw [lookup_eq_none.mpr (hp ▸ hk.1), lookup_eq_none.mpr (by rw [← hkeys, ← hp]; exact hk.1)]
        · have hname' := h name
          rwa [lookup_cons_eq, lookup_cons_eq, if_neg hp, if_neg (hname ▸ hp)] at hname'
      rw [htail, Prod.ext hname hvalue]

theorem lookup_filter (names : List JsString) (ps : List (JsString × α)) (name : JsString) :
    (ps.filter fun p => p.1 ∉ names).lookup name = if name ∈ names then none else ps.lookup name := by
  induction ps with
  | nil => simp
  | cons p ps ih =>
    rw [List.filter_cons, lookup_cons_eq]
    by_cases hp : p.1 ∈ names
    · rw [if_neg (by simpa using hp), ih]
      by_cases hname : p.1 = name
      · rw [if_pos (hname ▸ hp), if_pos (hname ▸ hp)]
      · rw [if_neg hname]
    · rw [if_pos (by simpa using hp), lookup_cons_eq, ih]
      by_cases hname : p.1 = name
      · rw [if_pos hname, if_pos hname, if_neg (hname ▸ hp)]
      · rw [if_neg hname, if_neg hname]

theorem keys_filter {ps qs : List (JsString × α)} (h : ps.map Prod.fst = qs.map Prod.fst) (names : List JsString) :
    (ps.filter fun p => p.1 ∉ names).map Prod.fst = (qs.filter fun p => p.1 ∉ names).map Prod.fst := by
  have hkeys : ∀ rs : List (JsString × α), (rs.filter fun p => p.1 ∉ names).map Prod.fst =
    (rs.map Prod.fst).filter (· ∉ names) := by
    intro rs
    rw [List.filter_map]
    rfl
  rw [hkeys, hkeys, h]

/-- The order depends on the names alone. -/
theorem keys_ownOrder {ps qs : List (JsString × α)} (h : ps.map Prod.fst = qs.map Prod.fst) :
    (ownOrder ps).map Prod.fst = (ownOrder qs).map Prod.fst := by
  have hnames : ∀ rs : List (JsString × α), (ownOrder rs).map Prod.fst =
      (ownOrder ((rs.map Prod.fst).map fun name => (name, ()))).map Prod.fst := by
    intro rs
    have hmap := map_ownOrder (fun _ => ()) rs
    rw [List.map_map, show (rs.map ((fun name => (name, ())) ∘ Prod.fst)) =
      rs.map (fun p => (p.1, ())) from rfl, ← hmap, List.map_map]
    rfl
  rw [hnames ps, hnames qs, h]

end

end Js
