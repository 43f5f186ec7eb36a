import MaterialOpenWebui.History.Chain
import MaterialOpenWebui.Js.JsonRoundTrip

/-!
# `History.Canonical` — what the canonical text tells apart

`canonical` sorts an entry's fields with `stable` and writes them with `JSON.stringify`. Two entries have one
canonical text exactly when the values the texts read back as are the same (`canonical_eq_iff`), so every
question about the text becomes one about `canon`.
-/

namespace MaterialOpenWebui
namespace History
open Js JsValue

/-! ## Sorting -/

theorem stableElems_eq (vs : List JsValue) : stableElems vs = vs.map stable := by
  induction vs with
  | nil => rfl
  | cons v vs ih => rw [stableElems, ih, List.map_cons]

theorem stableProps_eq (ps : List (JsString × JsValue)) :
    stableProps ps = ps.map (fun p => (p.1, stable p.2)) := by
  induction ps with
  | nil => rfl
  | cons p ps ih =>
    obtain ⟨k, v⟩ := p
    rw [stableProps, ih, List.map_cons]

theorem stable_ne_undefined (v : JsValue) : stable v ≠ .undefined := by
  cases v <;> simp [stable]

/-- The order `stable` leaves the properties of an object in: sorted, then as an object lists them. -/
def sorted {α : Type} (ps : List (JsString × α)) : List (JsString × α) := ownOrder (sortByKey ps)

section
variable {α : Type}

theorem sortByKey_perm (ps : List (JsString × α)) : (sortByKey ps).Perm ps :=
  List.perm_insertionSort _ ps

theorem sorted_perm (ps : List (JsString × α)) : (sorted ps).Perm ps :=
  (ownOrder_perm _).trans (sortByKey_perm ps)

theorem nodup_sortByKey {ps : List (JsString × α)} (hk : (ps.map Prod.fst).Nodup) :
    ((sortByKey ps).map Prod.fst).Nodup :=
  ((sortByKey_perm ps).map Prod.fst).nodup_iff.mpr hk

theorem nodup_sorted {ps : List (JsString × α)} (hk : (ps.map Prod.fst).Nodup) :
    ((sorted ps).map Prod.fst).Nodup :=
  ((sorted_perm ps).map Prod.fst).nodup_iff.mpr hk

/-- Only the names decide the order. -/
theorem map_sorted {β : Type} (f : α → β) (ps : List (JsString × α)) :
    (sorted ps).map (fun p => (p.1, f p.2)) = sorted (ps.map (fun p => (p.1, f p.2))) := by
  rw [sorted, sorted, map_ownOrder, sortByKey, sortByKey]
  congr 1
  exact List.map_insertionSort _ _ _ ps (fun _ _ _ _ => Iff.rfl)

/-- Distinct names have one sorted order, whatever order they came in. -/
theorem sorted_eq_of_perm {ps qs : List (JsString × α)} (hk : (ps.map Prod.fst).Nodup)
    (h : ps.Perm qs) : sorted ps = sorted qs := by
  have htot : Std.Total (fun a b : JsString × α => a.1 ≤ b.1) := ⟨fun _ _ => List.le_total _ _⟩
  have htrans : IsTrans (JsString × α) (fun a b => a.1 ≤ b.1) := ⟨fun _ _ _ => List.le_trans⟩
  have hs : ∀ l : List (JsString × α), (sortByKey l).Pairwise (fun a b => a.1 ≤ b.1) :=
    fun l => List.pairwise_insertionSort _ l
  have hperm : (sortByKey ps).Perm (sortByKey qs) :=
    (sortByKey_perm ps).trans (h.trans (sortByKey_perm qs).symm)
  have heq : sortByKey ps = sortByKey qs := by
    refine List.Perm.eq_of_pairwise ?_ (hs ps) (hs qs) hperm
    intro a b ha hb hab hba
    have ha' : a ∈ ps := (sortByKey_perm ps).mem_iff.mp ha
    have hb' : b ∈ ps := h.mem_iff.mpr ((sortByKey_perm qs).mem_iff.mp hb)
    exact List.inj_on_of_nodup_map hk ha' hb' (List.le_antisymm hab hba)
  rw [sorted, sorted, heq]

end

theorem stable_obj {ps : List (JsString × JsValue)} (hk : (ps.map Prod.fst).Nodup) :
    stable (.obj ps) = .obj ((sorted ps).map (fun p => (p.1, stable p.2))) := by
  have hk' : ((ps.map (fun p => (p.1, stable p.2))).map Prod.fst).Nodup := by
    rw [List.map_map]
    exact hk
  rw [stable, stableProps_eq, fromEntries_of_nodup (nodup_sortByKey hk'), map_sorted, sorted]

/-- `stable` puts every object into own-property order. -/
theorem ordered_stable {v : JsValue} (h : v.Wf) : (stable v).Ordered := by
  induction v with
  | undefined => exact .null
  | null => exact .null
  | bool b => exact .bool b
  | num n => exact .num n
  | str s => exact .str s
  | arr vs ih =>
    rw [stable, stableElems_eq]
    refine .arr ?_
    intro w hw
    obtain ⟨v, hv, rfl⟩ := List.mem_map.mp hw
    exact ih v hv (h.elems v hv)
  | obj ps ih =>
    rw [stable_obj h.keys]
    refine .obj ?_ ?_ ?_
    · rw [List.map_map]
      exact nodup_sorted h.keys
    · exact List.pairwise_map.mpr (inOrder_ownOrder _)
    · intro q hq
      obtain ⟨p, hp, rfl⟩ := List.mem_map.mp hq
      have hp' : p ∈ ps := (sorted_perm ps).mem_iff.mp hp
      exact ih p hp' (h.props p hp')

/-! ## The value a canonical text stands for -/

/-- The value that the canonical text of `v` reads back as. -/
def canon (v : JsValue) : JsValue := jsonCopy (stable v)

@[simp] theorem canon_undefined : canon .undefined = .null := rfl
@[simp] theorem canon_null : canon .null = .null := rfl
@[simp] theorem canon_str (s : JsString) : canon (.str s) = .str s := rfl

theorem canon_arr (vs : List JsValue) : canon (.arr vs) = .arr (vs.map canon) := by
  rw [canon, stable, stableElems_eq, jsonCopy, copyElems_eq, List.map_map]
  rfl

theorem canon_obj {ps : List (JsString × JsValue)} (hk : (ps.map Prod.fst).Nodup) :
    canon (.obj ps) = .obj ((sorted ps).map (fun p => (p.1, canon p.2))) := by
  have hcopy : copyProps ((sorted ps).map (fun p => (p.1, stable p.2))) =
      (sorted ps).map (fun p => (p.1, canon p.2)) := by
    rw [copyProps_eq, List.filter_eq_self.mpr, List.map_map]
    · rfl
    · intro q hq
      obtain ⟨p, -, rfl⟩ := List.mem_map.mp hq
      cases hs : stringify (stable p.2) with
      | none => exact absurd (stringify_eq_none hs) (stable_ne_undefined p.2)
      | some t => rfl
  have hkeys : (((sorted ps).map (fun p => (p.1, canon p.2))).map Prod.fst).Nodup := by
    rw [List.map_map]
    exact nodup_sorted hk
  have horder : InOrder ((sorted ps).map (fun p => (p.1, canon p.2))) :=
    List.pairwise_map.mpr (inOrder_ownOrder _)
  rw [canon, stable_obj hk, jsonCopy, hcopy, fromEntries_of_nodup hkeys, horder.ownOrder_eq]

/-- **Objects have one canonical value exactly when they hold the same properties**, in whatever order and
    up to the canonical value of each. -/
theorem canon_obj_eq_iff {ps qs : List (JsString × JsValue)} (hps : (ps.map Prod.fst).Nodup)
    (hqs : (qs.map Prod.fst).Nodup) : canon (.obj ps) = canon (.obj qs) ↔
      (ps.map (fun p => (p.1, canon p.2))).Perm (qs.map (fun p => (p.1, canon p.2))) := by
  rw [canon_obj hps, canon_obj hqs, JsValue.obj.injEq]
  constructor
  · intro h
    have hp := ((sorted_perm ps).map (fun p => (p.1, canon p.2))).symm
    rw [h] at hp
    exact hp.trans ((sorted_perm qs).map _)
  · intro h
    rw [map_sorted, map_sorted]
    refine sorted_eq_of_perm ?_ h
    rw [List.map_map]
    exact hps

/-- Equal canonical values agree property by property. -/
theorem lookup_of_canon_eq {ps qs : List (JsString × JsValue)} (hps : (ps.map Prod.fst).Nodup)
    (hqs : (qs.map Prod.fst).Nodup) (h : canon (.obj ps) = canon (.obj qs)) (k : JsString) :
    (ps.lookup k).map canon = (qs.lookup k).map canon := by
  have hperm := (canon_obj_eq_iff hps hqs).mp h
  have hk : ((ps.map (fun p => (p.1, canon p.2))).map Prod.fst).Nodup := by
    rw [List.map_map]
    exact hps
  rw [← lookup_map, ← lookup_map]
  exact lookup_perm hk hperm k

/-- Properties listed in one order agree canonically exactly when their values do. -/
theorem canon_map_eq_iff {ps : List (JsString × JsValue)} (hk : (ps.map Prod.fst).Nodup)
    (f : JsValue → JsValue) : canon (.obj (ps.map (fun p => (p.1, f p.2)))) = canon (.obj ps) ↔
      ∀ p ∈ ps, canon (f p.2) = canon p.2 := by
  have hkf : ((ps.map (fun p => (p.1, f p.2))).map Prod.fst).Nodup := by
    rw [List.map_map]
    exact hk
  constructor
  · intro h p hp
    have hl := lookup_of_canon_eq hkf hk h p.1
    rw [lookup_map, lookup_of_mem hk (a := p.2) hp] at hl
    exact Option.some.inj hl
  · intro h
    rw [canon_obj_eq_iff hkf hk, List.map_map]
    have heq : ps.map ((fun p => (p.1, canon p.2)) ∘ fun p => (p.1, f p.2)) =
        ps.map (fun p => (p.1, canon p.2)) := by
      refine List.map_congr_left ?_
      intro p hp
      simp only [Function.comp, h p hp]
    rw [heq]

/-! ## Canonical texts -/

theorem keys_hashedFields (e : JsValue) : (hashedFields e).map Prod.fst =
    [js "seq", js "at", js "action", js "target", js "before", js "after", js "label", js "parent"] :=
  rfl

theorem nodup_hashedFields (e : JsValue) : ((hashedFields e).map Prod.fst).Nodup := by
  rw [keys_hashedFields]
  decide

theorem wf_or {a b : JsValue} (ha : a.Wf) (hb : b.Wf) : (a.or b).Wf := by
  unfold JsValue.or
  split_ifs
  · exact ha
  · exact hb

theorem wf_hashedFields {e : JsValue} (h : e.Wf) : (JsValue.obj (hashedFields e)).Wf := by
  refine .obj (nodup_hashedFields e) ?_
  intro p hp
  simp only [hashedFields, List.mem_cons, List.not_mem_nil, or_false] at hp
  rcases hp with rfl | rfl | rfl | rfl | rfl | rfl | rfl | rfl
  all_goals first
    | exact wf_get h _
    | exact wf_or (wf_get h _) (.str [])

/-- The canonical text of an entry is written: `stable` leaves nothing undefined. -/
theorem stringify_canonical (e : JsValue) :
    stringify (stable (.obj (hashedFields e))) = some (canonical e) := by
  cases hs : stringify (stable (.obj (hashedFields e))) with
  | none => exact absurd (stringify_eq_none hs) (stable_ne_undefined _)
  | some t => rw [canonical, hs, Option.getD_some]

/-- **Equal canonical texts, equal canonical values.** -/
theorem canonical_eq_iff {a b : JsValue} (ha : a.Wf) (hb : b.Wf) : canonical a = canonical b ↔
    canon (.obj (hashedFields a)) = canon (.obj (hashedFields b)) := by
  constructor
  · intro h
    have hsa := stringify_canonical a
    rw [h] at hsa
    exact stringify_injective hsa (stringify_canonical b)
  · intro h
    -- each text is what the copy of its sorted value is written as
    have hsa := stringify_jsonCopy (ordered_stable (wf_hashedFields ha)) (stable_ne_undefined _)
    have hsb := stringify_jsonCopy (ordered_stable (wf_hashedFields hb)) (stable_ne_undefined _)
    rw [stringify_canonical] at hsa hsb
    rw [canon, canon] at h
    rw [h, hsb] at hsa
    exact (Option.some.inj hsa).symm

/-- Entries with one canonical text agree in every hashed field. -/
theorem fields_of_canonical_eq {a b : JsValue} (ha : a.Wf) (hb : b.Wf)
    (h : canonical a = canonical b) (k : JsString) :
    ((hashedFields a).lookup k).map canon = ((hashedFields b).lookup k).map canon :=
  lookup_of_canon_eq (nodup_hashedFields a) (nodup_hashedFields b) ((canonical_eq_iff ha hb).mp h) k

/-! ## Hashes -/

/-- The bytes an entry's hash is computed from. -/
def hashedBytes (entry : JsValue) : ByteArray := (String.ofList (canonical entry)).toUTF8

theorem hashedBytes_eq_iff (a b : JsValue) : hashedBytes a = hashedBytes b ↔ canonical a = canonical b := by
  constructor
  · intro h
    have hstr : String.ofList (canonical a) = String.ofList (canonical b) := String.toByteArray_inj.mp h
    have hlist := congrArg String.toList hstr
    rwa [String.toList_ofList, String.toList_ofList] at hlist
  · intro h
    rw [hashedBytes, hashedBytes, h]

/-- Equal hashes are equal digests. -/
theorem digest_of_hashOf_eq {sha256 : ByteArray → Vector UInt8 32} {a b : JsValue}
    (h : hashOf sha256 a = hashOf sha256 b) : sha256 (hashedBytes a) = sha256 (hashedBytes b) :=
  Vector.toList_inj.mp (flatMap_hexByte_injective h)

theorem hashOf_of_canonical_eq (sha256 : ByteArray → Vector UInt8 32) {a b : JsValue}
    (h : canonical a = canonical b) : hashOf sha256 a = hashOf sha256 b := by
  rw [hashOf, hashOf, h]

/-- **Equal hashes, equal canonical texts**, for a digest without collisions on the bytes at hand. -/
theorem hashOf_injective {sha256 : ByteArray → Vector UInt8 32} {bytes : Set ByteArray}
    (hinj : Set.InjOn sha256 bytes) {a b : JsValue} (ha : hashedBytes a ∈ bytes)
    (hb : hashedBytes b ∈ bytes) (h : hashOf sha256 a = hashOf sha256 b) : canonical a = canonical b :=
  (hashedBytes_eq_iff a b).mp (hinj ha hb (digest_of_hashOf_eq h))

end History
end MaterialOpenWebui
