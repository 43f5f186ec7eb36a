import MaterialOpenWebui.Site.Store

/-!
# `Site.Patches` — what the settings read as after a patch

`patchSettings` merges a patch into the settings by the rule that also merges what is stored into the defaults. The rule takes
null for nothing said, and goes into an object whatever is merged into it. So a patch is not heeded where it asks for null in
place of something else, or for something else in place of an object (`readsBack_iff`).
-/

namespace MaterialOpenWebui
namespace Site
open Js JsValue Run Tables

abbrev Props := List (JsString × JsValue)

def Props.names (ps : Props) : List JsString := ps.map Prod.fst

/-- The property of a name. -/
def Props.own (ps : Props) (k : JsString) : JsValue := (JsValue.obj ps).get k

def isPlain : JsValue → Bool
  | .obj _ => true
  | _ => false

variable {bs ps ns : Props} {k : JsString} {before patch n : JsValue} {rest : JsValue → JsValue}

/-! ## Reading -/

/-- What is found at a path; of an object, only that it is one. -/
def readAt : JsValue → List JsString → JsValue
  | .obj _, [] => .obj []
  | v, [] => v
  | v, k :: path => readAt (v.get k) path

def ReadsAs (v w : JsValue) : Prop := ∀ path, readAt v path = readAt w path

/-- What is to be found: at a path that the patch names what it has there, elsewhere the `rest` of what was there. -/
def asked (rest : JsValue → JsValue) : JsValue → JsValue → List JsString → JsValue
  | .obj bs, .obj ps, k :: path =>
    if k ∈ Props.names ps then asked rest (Props.own bs k) (Props.own ps k) path else readAt (rest (Props.own bs k)) path
  | _, patch, path => readAt patch path

/-- Of the settings nothing else is to be lost. -/
def expected (before patch : JsValue) : List JsString → JsValue := asked id before patch

theorem eq_of_readAt {v w : JsValue} (hw : isPlain w = false) (h : readAt v [] = w) : v = w := by
  cases v with
  | obj ps =>
    rw [← h] at hw
    cases hw
  | _ => exact h

theorem readAt_nil (h : isPlain n = false) : readAt n [] = n := by
  cases n with
  | obj ps => cases h
  | _ => rfl

theorem isPlain_readAt (v : JsValue) : isPlain (readAt v []) = isPlain v := by
  cases v <;> rfl

theorem isNullish_readAt (v : JsValue) : (readAt v []).isNullish = v.isNullish := by
  cases v <;> rfl

theorem not_isPlain (h : n.isNullish = true) : isPlain n = false := by
  cases n <;> first | rfl | cases h

theorem exists_props (h : isPlain n = true) : ∃ ps : Props, n = .obj ps := by
  cases n with
  | obj ps => exact ⟨ps, rfl⟩
  | _ => cases h

theorem asked_of_leaf (h : isPlain before = false) (patch : JsValue) (path : List JsString) :
    asked rest before patch path = readAt patch path := by
  cases before with
  | obj bs => cases h
  | _ => unfold asked; rfl

theorem asked_nil (rest : JsValue → JsValue) (before patch : JsValue) : asked rest before patch [] = readAt patch [] := by
  cases before <;> cases patch <;> rfl

theorem own_of_not_mem (h : k ∉ ps.names) : ps.own k = .undefined := by
  show (ps.lookup k).getD _ = _
  rw [lookup_eq_none.mpr h]
  rfl

theorem lookup_of_mem_names (h : k ∈ ps.names) : ps.lookup k = some (ps.own k) := by
  cases hlookup : ps.lookup k with
  | none => exact absurd h (lookup_eq_none.mp hlookup)
  | some v =>
    show _ = some ((ps.lookup k).getD _)
    rw [hlookup]
    rfl

/-! ## One merge -/

/-- What becomes of a property of the override: `none` where it throws, `some none` where it adds nothing. -/
def mergedProp (bs : Props) (p : JsString × JsValue) : Option (Option JsValue) :=
  match bs.lookup p.1 with
  | some v => (deepMerge v p.2).map some
  | none => if inheritedFails p.1 p.2 then none else some (if p.1 = js "__proto__" then none else some (clone p.2))

def put (out : Props) (k : JsString) : Option JsValue → Props
  | none => out
  | some v => setProp out k v

theorem mergedProp_old (h : k ∈ bs.names) (v : JsValue) : mergedProp bs (k, v) = (deepMerge (bs.own k) v).map some := by
  unfold mergedProp
  rw [lookup_of_mem_names h]

theorem mergedProp_new (h : k ∉ bs.names) (v : JsValue) : mergedProp bs (k, v) =
    if inheritedFails k v then none else some (if k = js "__proto__" then none else some (clone v)) := by
  unfold mergedProp
  rw [lookup_eq_none.mpr h]

theorem deepMerge_obj (h : patch.isNullish = false) : deepMerge (.obj bs) patch =
    ((ownProps patch).foldlM (fun out p => (mergedProp bs p).map (put out p.1)) (fromEntries (copyProps bs))).map
      fun out => .obj (ownOrder out) := by
  unfold deepMerge
  rw [if_neg (by rw [h]; exact Bool.false_ne_true)]
  refine congrArg (Option.map _) (congrArg (fun f => List.foldlM f _ _) ?_)
  funext out p
  unfold mergedProp
  split
  · next v hlookup =>
      rw [hlookup, Option.map_map]
      rfl
  · next hlookup =>
      rw [hlookup]
      cases inheritedFails p.1 p.2 with
      | true => rfl
      | false => by_cases hproto : p.1 = js "__proto__" <;> simp [hproto, put]

theorem deepMerge_nullish (h : patch.isNullish = true) : deepMerge before patch = some (clone before) := by
  unfold deepMerge
  rw [if_pos h]

theorem deepMerge_leaf (hb : isPlain before = false) (h : patch.isNullish = false) :
    deepMerge before patch = some (clone patch) := by
  unfold deepMerge
  rw [if_neg (by rw [h]; exact Bool.false_ne_true)]
  cases before with
  | obj bs => cases hb
  | _ => rfl

variable {f : JsString × JsValue → Option (Option JsValue)} {out out' : Props}

theorem isSome_foldlM (ps out : Props) :
    (ps.foldlM (fun out p => (f p).map (put out p.1)) out).isSome = true ↔ ∀ p ∈ ps, (f p).isSome = true := by
  induction ps generalizing out with
  | nil => simp
  | cons p ps ih =>
    rw [List.foldlM_cons, List.forall_mem_cons]
    cases hf : f p with
    | none => simp
    | some o =>
      rw [Option.map_some, Option.bind_eq_bind, Option.bind_some, ih]
      simp

theorem lookup_foldlM (hp : ps.names.Nodup) (ho : out.names.Nodup)
    (h : ps.foldlM (fun out p => (f p).map (put out p.1)) out = some out') :
    out'.names.Nodup ∧ ∀ k, out'.lookup k = ((ps.lookup k).bind fun v => (f (k, v)).join).or (out.lookup k) := by
  induction ps generalizing out with
  | nil =>
    cases h
    exact ⟨ho, fun k => rfl⟩
  | cons p ps ih =>
    obtain ⟨hfresh, hp⟩ := List.nodup_cons.mp hp
    rw [List.foldlM_cons] at h
    obtain ⟨out₁, hout₁, h⟩ := Option.bind_eq_some_iff.mp h
    obtain ⟨o, hf, rfl⟩ := Option.map_eq_some_iff.mp hout₁
    have ho₁ : (put out p.1 o).names.Nodup := by
      cases o with
      | none => exact ho
      | some v => exact nodup_setProp ho p.1 v
    obtain ⟨hnodup, hlookup⟩ := ih hp ho₁ h
    refine ⟨hnodup, fun k => ?_⟩
    rw [hlookup k, lookup_cons_eq]
    by_cases heq : p.1 = k
    · subst heq
      have hnone : ps.lookup p.1 = none := lookup_eq_none.mpr hfresh
      rw [hnone, if_pos rfl, Option.bind_none, Option.none_or, Option.bind_some, hf]
      cases o with
      | none => rfl
      | some v => exact (lookup_setProp out p.1 p.1 v).trans (if_pos rfl)
    · rw [if_neg heq]
      cases o with
      | none => rfl
      | some v => exact congrArg _ ((lookup_setProp out p.1 k v).trans (if_neg heq))

theorem clone_eq_reloaded (v : JsValue) : clone v = reloaded v := by
  cases v <;> rfl

/-- The merged object, property by property. -/
structure MergedProps (bs ps ns : Props) : Prop where
  nodup : ns.names.Nodup
  old : ∀ k ∈ ps.names, k ∈ bs.names → deepMerge (bs.own k) (ps.own k) = some (ns.own k)
  new : ∀ k ∈ ps.names, k ∉ bs.names → inheritedFails k (ps.own k) = false ∧
    ns.own k = if k = js "__proto__" then .undefined else clone (ps.own k)
  rest : ∀ k ∉ ps.names, ns.own k = clone (bs.own k)

theorem mergedProps (hb : bs.names.Nodup) (hp : ps.names.Nodup) (h : deepMerge (.obj bs) (.obj ps) = some n) :
    ∃ ns : Props, n = .obj ns ∧ MergedProps bs ps ns := by
  rw [deepMerge_obj rfl] at h
  obtain ⟨out, hout, rfl⟩ := Option.map_eq_some_iff.mp h
  have hstart : ∀ k, ((fromEntries (copyProps bs)).lookup k).getD .undefined = clone (bs.own k) := by
    intro k
    rw [clone_eq_reloaded, Props.own, ← get_jsonCopy hb, jsonCopy, JsValue.get,
      lookup_perm (nodup_fromEntries _) (ownOrder_perm (fromEntries (copyProps bs))).symm]
  have hdone := (isSome_foldlM ps (fromEntries (copyProps bs))).mp (Option.isSome_of_eq_some hout)
  obtain ⟨hnodup, hlookup⟩ := lookup_foldlM hp (nodup_fromEntries _) hout
  have hown : ∀ k, Props.own (ownOrder out) k =
      (((ps.lookup k).bind fun v => (mergedProp bs (k, v)).join).or ((fromEntries (copyProps bs)).lookup k)).getD
        .undefined := by
    intro k
    rw [Props.own, JsValue.get, ← lookup_perm hnodup (ownOrder_perm out).symm, hlookup k]
  have hnamed : ∀ k ∈ ps.names, (mergedProp bs (k, ps.own k)).isSome = true ∧ Props.own (ownOrder out) k =
      ((mergedProp bs (k, ps.own k)).join.or ((fromEntries (copyProps bs)).lookup k)).getD .undefined := by
    intro k hkp
    refine ⟨hdone _ (mem_of_lookup (lookup_of_mem_names hkp)), ?_⟩
    rw [hown k, lookup_of_mem_names hkp, Option.bind_some]
  refine ⟨ownOrder out, rfl, ((ownOrder_perm out).map Prod.fst).nodup_iff.mpr hnodup, fun k hkp hkb => ?_,
    fun k hkp hkb => ?_, fun k hkp => ?_⟩
  · obtain ⟨hsome, heq⟩ := hnamed k hkp
    rw [mergedProp_old hkb] at hsome heq
    cases hmerge : deepMerge (bs.own k) (ps.own k) with
    | none =>
      rw [hmerge] at hsome
      cases hsome
    | some m =>
      rw [heq, hmerge]
      rfl
  · obtain ⟨hsome, heq⟩ := hnamed k hkp
    rw [mergedProp_new hkb] at hsome heq
    cases hfails : inheritedFails k (ps.own k) with
    | true =>
      rw [hfails] at hsome
      cases hsome
    | false =>
      refine ⟨rfl, heq.trans ?_⟩
      rw [hfails]
      by_cases hproto : k = js "__proto__"
      · rw [if_pos hproto, if_pos hproto]
        exact (hstart k).trans (by rw [own_of_not_mem hkb]; rfl)
      · rw [if_neg hproto, if_neg hproto]
        rfl
  · rw [hown k, lookup_eq_none.mpr hkp, Option.bind_none, Option.none_or, hstart k]

theorem isSome_deepMerge :
    (deepMerge (.obj bs) (.obj ps)).isSome = true ↔ ∀ p ∈ ps, (mergedProp bs p).isSome = true := by
  rw [deepMerge_obj rfl, Option.isSome_map, isSome_foldlM]
  rfl

/-! ## What is heeded -/

/-- The copy of a value reads as the value. -/
def Kept (v : JsValue) : Prop := ReadsAs (clone v) v

/-- A property can be added under a name: it is not asked whether an inherited one is nothing, and it is no prototype. -/
def Addable (k : JsString) (v : JsValue) : Prop :=
  inheritedFails k v = false ∧ if k = js "__proto__" then v = .undefined else Kept v

/-- **What a merge heeds.** Null only for null, and in place of an object only an object. -/
inductive Heeded : JsValue → JsValue → Prop where
  | leaf {before patch : JsValue} (hb : isPlain before = false)
      (h : if patch.isNullish then clone before = patch else Kept patch) : Heeded before patch
  | object {bs ps : Props} (hold : ∀ k ∈ ps.names, k ∈ bs.names → Heeded (bs.own k) (ps.own k))
      (hnew : ∀ k ∈ ps.names, k ∉ bs.names → Addable k (ps.own k)) (hrest : ∀ k ∉ ps.names, Kept (bs.own k)) :
      Heeded (.obj bs) (.obj ps)

theorem kept_clone (v : JsValue) : Kept (clone v) := by
  intro path
  rw [clone_clone]

/-- The merge of a patch into what was before reads as asked. -/
def Merges (rest : JsValue → JsValue) (before patch : JsValue) : Prop :=
  ∃ n, deepMerge before patch = some n ∧ ∀ path, readAt n path = asked rest before patch path

theorem merges_leaf_iff (hb : isPlain before = false) (patch : JsValue) :
    Merges rest before patch ↔ if patch.isNullish then clone before = patch else Kept patch := by
  have hmerge : deepMerge before patch = some (if patch.isNullish then clone before else clone patch) := by
    cases h : patch.isNullish with
    | true => exact deepMerge_nullish h
    | false => exact deepMerge_leaf hb h
  have hiff : Merges rest before patch ↔ ReadsAs (if patch.isNullish then clone before else clone patch) patch := by
    unfold Merges ReadsAs
    simp only [hmerge, Option.some.injEq, exists_eq_left', asked_of_leaf hb]
  rw [hiff]
  by_cases h : patch.isNullish = true
  · rw [if_pos h, if_pos h]
    refine ⟨fun hreads => ?_, fun heq path => by rw [heq]⟩
    exact eq_of_readAt (not_isPlain h) ((hreads []).trans (readAt_nil (not_isPlain h)))
  · rw [if_neg h, if_neg h]
    rfl

/-- A merge into an object is one. -/
theorem not_merges (hp : isPlain patch = false) : ¬ Merges rest (.obj bs) patch := by
  rintro ⟨n, hmerge, hreads⟩
  have hplain : isPlain n = true := by
    cases h : patch.isNullish with
    | true =>
      rw [deepMerge_nullish h] at hmerge
      cases hmerge
      rfl
    | false =>
      rw [deepMerge_obj h] at hmerge
      obtain ⟨out, -, rfl⟩ := Option.map_eq_some_iff.mp hmerge
      rfl
  rw [← isPlain_readAt, hreads [], asked_nil, isPlain_readAt, hp] at hplain
  cases hplain

theorem asked_cons_of_mem (h : k ∈ ps.names) (path : List JsString) :
    asked rest (.obj bs) (.obj ps) (k :: path) = asked rest (bs.own k) (ps.own k) path := by
  rw [asked, if_pos h]

theorem asked_cons_of_not_mem (h : k ∉ ps.names) (path : List JsString) :
    asked rest (.obj bs) (.obj ps) (k :: path) = readAt (rest (bs.own k)) path := by
  rw [asked, if_neg h]

/-- A merge into an object reads as asked exactly if it does so for each property. -/
theorem merges_obj_iff (hb : bs.names.Nodup) (hp : ps.names.Nodup) : Merges rest (.obj bs) (.obj ps) ↔
    (∀ k ∈ ps.names, k ∈ bs.names → Merges rest (bs.own k) (ps.own k)) ∧
      (∀ k ∈ ps.names, k ∉ bs.names → Addable k (ps.own k)) ∧
      ∀ k ∉ ps.names, ReadsAs (clone (bs.own k)) (rest (bs.own k)) := by
  constructor
  · rintro ⟨n, hmerge, hreads⟩
    obtain ⟨ns, rfl, hprops⟩ := mergedProps hb hp hmerge
    have hat : ∀ k path, readAt (ns.own k) path = asked rest (.obj bs) (.obj ps) (k :: path) :=
      fun k path => hreads (k :: path)
    refine ⟨fun k hkp hkb => ⟨_, hprops.old k hkp hkb, fun path => ?_⟩, fun k hkp hkb => ?_, fun k hkp path => ?_⟩
    · rw [hat k path, asked_cons_of_mem hkp]
    · obtain ⟨hfails, hown⟩ := hprops.new k hkp hkb
      have hnew : ReadsAs (ns.own k) (ps.own k) := by
        intro path
        rw [hat k path, asked_cons_of_mem hkp, own_of_not_mem hkb, asked_of_leaf rfl]
      rw [hown] at hnew
      refine ⟨hfails, ?_⟩
      by_cases hproto : k = js "__proto__"
      · rw [if_pos hproto] at hnew ⊢
        exact eq_of_readAt rfl (hnew []).symm
      · rw [if_neg hproto] at hnew ⊢
        exact hnew
    · rw [← hprops.rest k hkp, hat k path, asked_cons_of_not_mem hkp]
  · rintro ⟨hold, hnew, hrest⟩
    have hsome : (deepMerge (.obj bs) (.obj ps)).isSome = true := by
      refine isSome_deepMerge.mpr fun (k, v) hmem => ?_
      have hkp : k ∈ ps.names := List.mem_map_of_mem hmem
      have hval : v = ps.own k := Option.some.inj ((lookup_of_mem hp hmem).symm.trans (lookup_of_mem_names hkp))
      rw [hval]
      by_cases hkb : k ∈ bs.names
      · obtain ⟨m, hm, -⟩ := hold k hkp hkb
        rw [mergedProp_old hkb, hm]
        rfl
      · rw [mergedProp_new hkb, (hnew k hkp hkb).1]
        rfl
    obtain ⟨n, hmerge⟩ := Option.isSome_iff_exists.mp hsome
    obtain ⟨ns, rfl, hprops⟩ := mergedProps hb hp hmerge
    refine ⟨.obj ns, hmerge, fun path => ?_⟩
    cases path with
    | nil => rfl
    | cons k path =>
      show readAt (ns.own k) path = _
      by_cases hkp : k ∈ ps.names
      · rw [asked_cons_of_mem hkp]
        by_cases hkb : k ∈ bs.names
        · obtain ⟨m, hm, hread⟩ := hold k hkp hkb
          rw [Option.some.inj ((hprops.old k hkp hkb).symm.trans hm)]
          exact hread path
        · have hadd := (hnew k hkp hkb).2
          rw [(hprops.new k hkp hkb).2, own_of_not_mem hkb, asked_of_leaf rfl]
          by_cases hproto : k = js "__proto__"
          · rw [if_pos hproto] at hadd ⊢
            rw [hadd]
          · rw [if_neg hproto] at hadd ⊢
            exact hadd path
      · rw [asked_cons_of_not_mem hkp, ← hrest k hkp path, hprops.rest k hkp]

theorem mem_of_name (h : k ∈ ps.names) : (k, ps.own k) ∈ ps := mem_of_lookup (lookup_of_mem_names h)

/-- **What is heeded is read back**, and nothing else: by induction on what was there before. -/
theorem merges_iff (hb : before.Wf) (hp : patch.Wf) : Merges id before patch ↔ Heeded before patch := by
  induction before generalizing patch with
  | obj bs ih =>
    cases hplain : isPlain patch with
    | true =>
      obtain ⟨ps, rfl⟩ := exists_props hplain
      have hsub : ∀ k ∈ Props.names bs,
          (Merges id (Props.own bs k) (ps.own k) ↔ Heeded (Props.own bs k) (ps.own k)) :=
        fun k hk => ih _ (mem_of_name hk) (wf_get hb k) (wf_get hp k)
      rw [merges_obj_iff hb.keys hp.keys]
      constructor
      · rintro ⟨hold, hnew, hrest⟩
        exact .object (fun k hkp hkb => (hsub k hkb).mp (hold k hkp hkb)) hnew hrest
      · intro h
        cases h with
        | leaf hleaf _ => cases hleaf
        | object hold hnew hrest => exact ⟨fun k hkp hkb => (hsub k hkb).mpr (hold k hkp hkb), hnew, hrest⟩
    | false =>
      refine iff_of_false (not_merges hplain) fun h => ?_
      cases h with
      | leaf hleaf _ => cases hleaf
      | object _ _ _ => cases hplain
  | _ =>
    refine (merges_leaf_iff rfl patch).trans ⟨.leaf rfl, fun h => ?_⟩
    cases h with
    | leaf _ h => exact h

/-- What a heeded patch leaves reads the same when it is copied. -/
theorem kept_of_heeded (hb : before.Wf) (hp : patch.Wf) (h : Heeded before patch)
    (hmerge : deepMerge before patch = some n) : Kept n := by
  induction h generalizing n with
  | @leaf before patch hleaf _ =>
    cases hnull : patch.isNullish with
    | true =>
      rw [deepMerge_nullish hnull] at hmerge
      cases hmerge
      exact kept_clone _
    | false =>
      rw [deepMerge_leaf hleaf hnull] at hmerge
      cases hmerge
      exact kept_clone _
  | @object bs ps _ _ _ ih =>
    obtain ⟨ns, rfl, hprops⟩ := mergedProps hb.keys hp.keys hmerge
    have hkept : ∀ k, Kept (ns.own k) := by
      intro k
      by_cases hkp : k ∈ ps.names
      · by_cases hkb : k ∈ bs.names
        · exact ih k hkp hkb (wf_get hb k) (wf_get hp k) (hprops.old k hkp hkb)
        · rw [(hprops.new k hkp hkb).2]
          split
          · exact fun _ => rfl
          · exact kept_clone _
      · rw [hprops.rest k hkp]
        exact kept_clone _
    intro path
    cases path with
    | nil => rfl
    | cons k path =>
      show readAt ((jsonCopy (.obj ns)).get k) path = readAt (ns.own k) path
      rw [get_jsonCopy hprops.nodup, ← clone_eq_reloaded]
      exact hkept k path

/-! ## What is stored -/

/-- What reads as `f` has the form of the defaults: an object where they have one, and something where they have something. -/
inductive Fits : JsValue → (List JsString → JsValue) → Prop where
  | leaf {d : JsValue} {f : List JsString → JsValue} (hd : isPlain d = false)
      (h : (f []).isNullish = true → clone d = f []) : Fits d f
  | object {ds : Props} {f : List JsString → JsValue} (h : f [] = .obj [])
      (hold : ∀ k ∈ ds.names, Fits (ds.own k) fun path => f (k :: path))
      (hnew : ∀ k ∉ ds.names, k ∈ objectPrototype → f [k] ≠ .null ∧ (k = js "__proto__" → f [k] = .undefined)) :
      Fits (.obj ds) f

theorem fits_undefined_iff (d : JsValue) : Fits d (readAt .undefined) ↔ clone d = .undefined := by
  constructor
  · intro h
    cases h with
    | leaf _ h => exact h rfl
    | object h _ _ => cases h
  · intro h
    cases d with
    | obj ds => cases h
    | _ => exact .leaf rfl fun _ => h

theorem asked_nothing (d v : JsValue) (path : List JsString) : asked (fun _ => .undefined) d v path = readAt v path := by
  induction path generalizing d v with
  | nil => exact asked_nil _ d v
  | cons k path ih =>
    cases hd : isPlain d with
    | false => exact asked_of_leaf hd v _
    | true =>
      obtain ⟨ds, rfl⟩ := exists_props hd
      cases v with
      | obj vs =>
        show _ = readAt (Props.own vs k) path
        by_cases hk : k ∈ Props.names vs
        · rw [asked_cons_of_mem hk, ih]
        · rw [asked_cons_of_not_mem hk, own_of_not_mem hk]
      | _ => rfl

/-- The values in a copy are copies. -/
theorem clone_own (h : clone (.obj ps) = .obj ps) (hk : k ∈ ps.names) :
    clone (ps.own k) = ps.own k ∧ ps.own k ≠ .undefined := by
  have hcopy := (jsonCopy_obj_eq_iff.mp h).2.2 _ (mem_of_name hk)
  have hne : ps.own k ≠ .undefined := fun hu => jsonCopy_ne_undefined _ (hcopy.trans hu)
  exact ⟨(clone_of_ne hne).trans hcopy, hne⟩

theorem addable_iff {v : JsValue} (hv : clone v = v) (hne : v ≠ .undefined) : Addable k v ↔
    (k ∈ objectPrototype → readAt v [] ≠ .null ∧ (k = js "__proto__" → readAt v [] = .undefined)) := by
  have hkept : Kept v := fun path => by rw [hv]
  have hnull : readAt v [] = .null ↔ v.isNullish = true := by
    cases v <;> simp_all [isNullish, readAt]
  have hundefined : readAt v [] ≠ .undefined := fun h => hne (eq_of_readAt rfl h)
  by_cases hproto : k = js "__proto__"
  · have hmem : js "__proto__" ∈ objectPrototype := by decide
    simp [Addable, hproto, hne, hundefined, hmem]
  · simp [Addable, inheritedFails, hproto, hkept, hnull]

/-- **What is read after a reload**: a copy is read as it is exactly if it has the form of the defaults. -/
theorem merges_defaults_iff {d v : JsValue} (hd : clone d = d) (hv : clone v = v) :
    Merges (fun _ => .undefined) d v ↔ Fits d (readAt v) := by
  induction d generalizing v with
  | obj ds ih =>
    cases hplain : isPlain v with
    | true =>
      obtain ⟨vs, rfl⟩ := exists_props hplain
      have hsub : ∀ k ∈ Props.names ds, k ∈ vs.names → (Merges (fun _ => .undefined) (Props.own ds k) (vs.own k) ↔
          Fits (Props.own ds k) (readAt (vs.own k))) :=
        fun k hk hkv => ih _ (mem_of_name hk) (clone_own hd hk).1 (clone_own hv hkv).1
      have hnew : ∀ k ∈ vs.names, Addable k (vs.own k) ↔
          (k ∈ objectPrototype → readAt (vs.own k) [] ≠ .null ∧ (k = js "__proto__" → readAt (vs.own k) [] = .undefined)) :=
        fun k hkv => addable_iff (clone_own hv hkv).1 (clone_own hv hkv).2
      rw [merges_obj_iff (jsonCopy_obj_eq_iff.mp hd).1 (jsonCopy_obj_eq_iff.mp hv).1]
      constructor
      · rintro ⟨hold, hadd, hrest⟩
        refine .object rfl (fun k hk => ?_) fun k hk => ?_
        · show Fits _ (readAt (vs.own k))
          by_cases hkv : k ∈ vs.names
          · exact (hsub k hk hkv).mp (hold k hkv hk)
          · rw [own_of_not_mem hkv, fits_undefined_iff]
            exact eq_of_readAt rfl (hrest k hkv [])
        · show k ∈ objectPrototype → readAt (vs.own k) [] ≠ .null ∧ (_ → readAt (vs.own k) [] = _)
          by_cases hkv : k ∈ vs.names
          · exact (hnew k hkv).mp (hadd k hkv hk)
          · rw [own_of_not_mem hkv]
            exact fun _ => ⟨nofun, fun _ => rfl⟩
      · intro h
        cases h with
        | leaf hleaf _ => cases hleaf
        | object _ hold hform =>
          refine ⟨fun k hkv hk => (hsub k hk hkv).mpr (hold k hk), fun k hkv hk => (hnew k hkv).mpr (hform k hk),
            fun k hkv path => ?_⟩
          by_cases hk : k ∈ Props.names ds
          · have hfits : Fits _ (readAt (vs.own k)) := hold k hk
            rw [own_of_not_mem hkv, fits_undefined_iff] at hfits
            rw [hfits]
          · rw [own_of_not_mem hk]
            rfl
    | false =>
      refine iff_of_false (not_merges hplain) fun h => ?_
      cases h with
      | leaf hleaf _ => cases hleaf
      | object h _ _ =>
        rw [← isPlain_readAt, h] at hplain
        cases hplain
  | _ =>
    refine (merges_leaf_iff rfl v).trans ⟨fun h => .leaf rfl fun hnull => ?_, fun h => ?_⟩
    · rw [isNullish_readAt] at hnull
      rw [if_pos hnull] at h
      rw [h, readAt_nil (not_isPlain hnull)]
    · cases h with
      | leaf _ h =>
        split
        · next hnull =>
            rw [isNullish_readAt, readAt_nil (not_isPlain hnull)] at h
            exact h hnull
        · exact fun path => by rw [hv]

theorem load_eq_some_iff {stored state : Section → JsValue} :
    load stored = some state ↔ ∀ key, deepMerge (DEFAULTS key) (stored key) = some (state key) := by
  have hall : (Section.all.all fun key => (deepMerge (DEFAULTS key) (stored key)).isSome) = true ↔
      ∀ key, (deepMerge (DEFAULTS key) (stored key)).isSome = true := by
    rw [List.all_eq_true]
    exact ⟨fun h key => h key (by cases key <;> decide), fun h key _ => h key⟩
  unfold load
  constructor
  · intro h key
    obtain ⟨hsome, hstate⟩ := Option.ite_none_right_eq_some.mp h
    obtain ⟨v, hv⟩ := Option.isSome_iff_exists.mp (hall.mp hsome key)
    rw [← Option.some.inj hstate]
    show _ = some ((deepMerge (DEFAULTS key) (stored key)).getD _)
    rw [hv]
    rfl
  · intro h
    rw [if_pos (hall.mpr fun key => Option.isSome_of_eq_some (h key))]
    refine congrArg some (funext fun key => ?_)
    rw [h key]
    rfl

/-! ## The law -/

/-- What a patch is to do, at once and after a reload if the browser took the write. -/
structure ReadsBack (s : Store) (call : Call) (patch : JsValue) (options : Options) : Prop where
  returns : (deepMerge (s.state .settings) patch).isSome = true
  now : ∀ path, readAt ((s.patchSettings call patch options).state .settings) path = expected (s.state .settings) patch path
  reloaded : call.persisted = true → ∃ state, load (s.patchSettings call patch options).stored = some state ∧
    ∀ path, readAt (state .settings) path = expected (s.state .settings) patch path

/-- The other sections do not keep the page from opening. -/
def Opens (s : Store) : Prop := ∀ key ≠ .settings, (deepMerge (DEFAULTS key) (s.stored key)).isSome = true

theorem patchSettings_eq {s : Store} (hmerge : deepMerge (s.state .settings) patch = some n)
    (call : Call) (options : Options) :
    (s.patchSettings call patch options).state = Function.update s.state .settings n ∧
      (s.patchSettings call patch options).stored =
        if call.persisted then Function.update s.stored .settings (clone n) else s.stored := by
  unfold Store.patchSettings Store.set
  rw [hmerge]
  cases options.record with
  | false => exact ⟨rfl, rfl⟩
  | true =>
    unfold Store.record
    cases call.logged <;> exact ⟨rfl, rfl⟩

theorem clone_settings : clone (DEFAULTS .settings) = DEFAULTS .settings := rfl

/-- **The law of patches.** A patch is read back exactly if it is heeded, and what is stored then has the form of the defaults. -/
theorem readsBack_iff {s : Store} (hs : (s.state .settings).Wf) (hp : patch.Wf) (call : Call) (options : Options) :
    ReadsBack s call patch options ↔ Heeded (s.state .settings) patch ∧
      (call.persisted = true → Opens s ∧ Fits (DEFAULTS .settings) (expected (s.state .settings) patch)) := by
  have hsession : (∃ n, deepMerge (s.state .settings) patch = some n ∧
      ∀ path, readAt n path = expected (s.state .settings) patch path) ↔ Heeded (s.state .settings) patch := merges_iff hs hp
  have hreload : ∀ {n}, deepMerge (s.state .settings) patch = some n →
      (∀ path, readAt n path = expected (s.state .settings) patch path) → call.persisted = true →
      ((∃ state, load (s.patchSettings call patch options).stored = some state ∧
        ∀ path, readAt (state .settings) path = expected (s.state .settings) patch path) ↔
        Opens s ∧ Fits (DEFAULTS .settings) (expected (s.state .settings) patch)) := by
    intro n hmerge hreads hpersisted
    have hcopy : readAt (clone n) = expected (s.state .settings) patch := by
      funext path
      rw [kept_of_heeded hs hp (hsession.mp ⟨n, hmerge, hreads⟩) hmerge path, hreads path]
    have hfits := merges_defaults_iff clone_settings (clone_clone n)
    simp only [Merges, asked_nothing, hcopy] at hfits
    rw [(patchSettings_eq hmerge call options).2, if_pos hpersisted, ← hfits]
    constructor
    · rintro ⟨state, hload, hread⟩
      rw [load_eq_some_iff] at hload
      refine ⟨fun key hkey => ?_, _, ?_, hread⟩
      · have hkeyed := hload key
        rw [Function.update_of_ne hkey] at hkeyed
        exact Option.isSome_of_eq_some hkeyed
      · have hkeyed := hload .settings
        rwa [Function.update_self] at hkeyed
    · rintro ⟨hopens, n', hn', hread⟩
      refine ⟨Function.update (fun key => (deepMerge (DEFAULTS key) (s.stored key)).getD .undefined) .settings n', ?_, ?_⟩
      · rw [load_eq_some_iff]
        intro key
        by_cases hkey : key = .settings
        · subst hkey
          rw [Function.update_self, Function.update_self, hn']
        · obtain ⟨v, hv⟩ := Option.isSome_iff_exists.mp (hopens key hkey)
          rw [Function.update_of_ne hkey, Function.update_of_ne hkey, hv]
          rfl
      · rw [Function.update_self]
        exact hread
  constructor
  · rintro ⟨hreturns, hnow, hreloaded⟩
    obtain ⟨n, hmerge⟩ := Option.isSome_iff_exists.mp hreturns
    rw [(patchSettings_eq hmerge call options).1, Function.update_self] at hnow
    exact ⟨hsession.mp ⟨n, hmerge, hnow⟩, fun hpersisted =>
      (hreload hmerge hnow hpersisted).mp (hreloaded hpersisted)⟩
  · rintro ⟨hheeded, hform⟩
    obtain ⟨n, hmerge, hnow⟩ := hsession.mpr hheeded
    refine ⟨Option.isSome_of_eq_some hmerge, ?_, fun hpersisted => (hreload hmerge hnow hpersisted).mpr (hform hpersisted)⟩
    rw [(patchSettings_eq hmerge call options).1, Function.update_self]
    exact hnow

def themed : Store := { start with state := Function.update start.state .settings (object [("theme", text "system")]) }

theorem readsBack_themed : ReadsBack themed (callOf "h1" 1) (object [("theme", text "dark")]) plainly ↔
    Heeded (object [("theme", text "system")]) (object [("theme", text "dark")]) ∧
      (true = true → Opens themed ∧
        Fits (DEFAULTS .settings) (expected (object [("theme", text "system")]) (object [("theme", text "dark")]))) := by
  have hwf : ∀ t, (object [("theme", text t)]).Wf := by
    intro t
    refine .obj (List.nodup_singleton _) fun p hp => ?_
    rw [List.mem_singleton.mp hp]
    exact .str _
  exact readsBack_iff (s := themed) (hwf "system") (hwf "dark") (callOf "h1" 1) plainly

def logoPatch (custom : JsValue) : JsValue := object [("logo", object [("custom", custom)])]

/-- A visitor has chosen a logo. -/
def branded : Store := run step start [.patchSettings (callOf "h1" 1) (logoPatch (text "data:,x")) plainly]

/-- The logo cannot be taken back: the patch says null, and the settings keep it. -/
theorem logo_kept :
    readAt ((branded.patchSettings (callOf "h2" 2) (logoPatch .null) plainly).state .settings) [js "logo", js "custom"] =
      text "data:,x" ∧
    expected (branded.state .settings) (logoPatch .null) [js "logo", js "custom"] = .null ∧
    ¬ ReadsBack branded (callOf "h2" 2) (logoPatch .null) plainly := by
  have hread : readAt ((branded.patchSettings (callOf "h2" 2) (logoPatch .null) plainly).state .settings)
      [js "logo", js "custom"] = text "data:,x" := by
    refine isStr_iff.mp ?_
    decide +kernel
  have hasked : ∀ before, expected before (logoPatch .null) [js "logo", js "custom"] = .null := by
    intro before
    cases before with
    | obj bs =>
      show asked id (Props.own bs (js "logo")) (object [("custom", .null)]) [js "custom"] = .null
      cases Props.own bs (js "logo") with
      | obj cs => exact asked_nil id (Props.own cs (js "custom")) .null
      | _ => rfl
    | _ => rfl
  refine ⟨hread, hasked _, fun h => ?_⟩
  have hnow := h.now [js "logo", js "custom"]
  rw [hread, hasked] at hnow
  cases hnow

end Site
end MaterialOpenWebui
