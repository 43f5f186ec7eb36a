import MaterialOpenWebui.Js.Decoder
import MaterialOpenWebui.Site.Store

/-!
# `Site.Export` — the file with everything (`docs/assets/js/store.js`)

`exportBundle` copies the state and takes credentials out of three of its sections: those of locks, those of authenticators and
the vocabulary. Both buttons write what it returns with `JSON.stringify`, so what is `undefined` in it is not in the file.
-/

namespace MaterialOpenWebui
namespace Site
open Js JsValue Tables

/-! ## The bundle -/

/-- The properties of `{ ...v }`. -/
def spread (v : JsValue) : List (JsString × JsValue) := ownOrder (ownProps v)

/-- `{ ...v, name: undefined }`, for each of the names. -/
def without (names : List JsString) (v : JsValue) : JsValue :=
  .obj (names.foldl (fun ps name => setProp ps name .undefined) (spread v))

def lockCredentials : List JsString := [js "secret", js "hash"]

def totpCredentials : List JsString := [js "secret"]

def exportedLocks (locks : JsValue) : JsValue :=
  .obj (fromEntries ((ownProps (locks.or (.obj []))).map fun p => (p.1, without lockCredentials p.2)))

/-- `none` where there is no `map`. -/
def exportedTotp (totp : JsValue) : Option JsValue :=
  match totp.or (.arr []) with
  | .arr es => some (.arr (es.map (without totpCredentials)))
  | _ => none

def exportedVocab (vocab : JsValue) : JsValue :=
  if vocab.truthy then object [("loaded", .bool true), ("terms", omitted)] else .null

def exportedSettings (settings : JsValue) : JsValue :=
  .obj (setProp (spread settings) (js "vocab") (exportedVocab (settings.get (js "vocab"))))

def sections (state : Section → JsValue) : List (JsString × JsValue) := Section.all.map fun k => (k.key, state k)

def exportedProps (state : Section → JsValue) (totp : JsValue) : List (JsString × JsValue) :=
  let ps := fromEntries (copyProps (sections state))
  let s := JsValue.obj ps
  let settings := s.get (js "settings")
  let ps := setProp (setProp ps (js "locks") (exportedLocks (s.get (js "locks")))) (js "totp") totp
  if settings.truthy then setProp ps (js "settings") (exportedSettings settings) else ps

def exportedState (state : Section → JsValue) : Option (List (JsString × JsValue)) :=
  (exportedTotp ((JsValue.obj (fromEntries (copyProps (sections state)))).get (js "totp"))).map (exportedProps state)

def Entry.toJs (e : Entry) : JsValue :=
  object [("id", .str e.id), ("t", .num e.t), ("action", .str e.action), ("label", .str e.label), ("detail", e.detail)]

def EXPORT_OMISSIONS : List JsString := [
  js "Lock credentials — a password hash or one-time-code secret is never serialised.",
  js "Authenticator secrets — the entries are listed, the secrets are not.",
  js "Personal-vocabulary contents — the cache is never copied into a file that leaves this browser."]

def bundleProps (now : JsString) (history : List Entry) (state : List (JsString × JsValue)) : List (JsString × JsValue) := [
  (js "schema", text "material-open-webui.site-state"),
  (js "version", nat 1),
  (js "exportedAt", .str now),
  (js "encoding", text "UTF-8"),
  (js "lineEndings", text "LF"),
  (js "omitted", .arr (EXPORT_OMISSIONS.map .str)),
  (js "state", .obj state),
  (js "history", .arr (history.map Entry.toJs))]

def exportBundle (now : JsString) (s : Store) : Option JsValue :=
    (exportedState s.state).map fun state => .obj (bundleProps now s.history state)

/-- The same data in the file. -/
def Identical (b b' : Option JsValue) : Prop := b.map jsonCopy = b'.map jsonCopy

/-! ## Values alike -/

theorem reloaded_eq (v : JsValue) : reloaded v = clone v := by
  cases v <;> rfl

/-- Values that are the same after redaction have one shape. -/
theorem shape_of_walk {a b : JsValue} (h : walk a = walk b) :
    a = b ∨ (∃ vs ws, a = .arr vs ∧ b = .arr ws ∧ vs.length = ws.length) ∨
    ∃ ps qs, a = .obj ps ∧ b = .obj qs ∧ ps.map Prod.fst = qs.map Prod.fst := by
  cases a with
  | arr vs =>
    cases b with
    | arr ws =>
      have hlength := congrArg List.length (JsValue.arr.inj h)
      rw [walkElems_eq, walkElems_eq, List.length_map, List.length_map] at hlength
      exact .inr (.inl ⟨vs, ws, rfl, rfl, hlength⟩)
    | _ => cases h
  | obj ps =>
    cases b with
    | obj qs =>
      have hkeys := congrArg (List.map Prod.fst) (JsValue.obj.inj h)
      rw [keys_walkProps, keys_walkProps] at hkeys
      exact .inr (.inr ⟨ps, qs, rfl, rfl, hkeys⟩)
    | _ => cases h
  | _ => cases b <;> first | exact .inl h | cases h

theorem truthy_of_walk {a b : JsValue} (h : walk a = walk b) : a.truthy = b.truthy := by
  rcases shape_of_walk h with rfl | ⟨vs, ws, rfl, rfl, -⟩ | ⟨ps, qs, rfl, rfl, -⟩ <;> rfl

theorem undefined_of_walk {a b : JsValue} (h : walk a = walk b) : a = .undefined ↔ b = .undefined := by
  rcases shape_of_walk h with rfl | ⟨vs, ws, rfl, rfl, -⟩ | ⟨ps, qs, rfl, rfl, -⟩ <;> simp

theorem keys_of_walk {a b : JsValue} (h : walk a = walk b) : (ownProps a).map Prod.fst = (ownProps b).map Prod.fst := by
  rcases shape_of_walk h with rfl | ⟨vs, ws, rfl, rfl, hlength⟩ | ⟨ps, qs, rfl, rfl, hkeys⟩
  · rfl
  · rw [keys_arr, keys_arr, hlength]
  · exact hkeys

/-- A value that `JSON.parse` returned, or none. -/
def IsCopy (v : JsValue) : Prop := clone v = v

theorem isCopy_clone (v : JsValue) : IsCopy (clone v) := clone_clone v

theorem nodup_ownProps {v : JsValue} (h : IsCopy v) : ((ownProps v).map Prod.fst).Nodup :=
  nodup_keys fun ps hv => (jsonCopy_obj_eq_iff.mp (hv ▸ h : IsCopy (.obj ps))).1

theorem isCopy_of_mem {v : JsValue} (h : IsCopy v) {p : JsString × JsValue} (hp : p ∈ ownProps v) : jsonCopy p.2 = p.2 := by
  cases v with
  | obj ps => exact (jsonCopy_obj_eq_iff.mp h).2.2 p hp
  | arr vs =>
    obtain ⟨q, hq, rfl⟩ := List.mem_map.mp hp
    exact jsonCopy_arr_eq_iff.mp h q.1 (List.fst_mem_of_mem_zipIdx hq)
  | str s =>
    obtain ⟨q, hq, rfl⟩ := List.mem_map.mp hp
    rfl
  | _ => exact absurd hp List.not_mem_nil

theorem isCopy_of_jsonCopy {v : JsValue} (h : jsonCopy v = v) : IsCopy v := by
  have hne : v ≠ .undefined := h ▸ jsonCopy_ne_undefined v
  unfold IsCopy
  rw [clone_of_ne hne, h]

theorem nodup_spread {v : JsValue} (h : IsCopy v) : ((spread v).map Prod.fst).Nodup :=
  ((ownOrder_perm _).map Prod.fst).nodup_iff.mpr (nodup_ownProps h)

/-! ## What is left of a value -/

/-- The same properties, but for those with the names. -/
def AgreeBut (names : List JsString) (v w : JsValue) : Prop :=
  (spread v).filter (fun p => p.1 ∉ names) = (spread w).filter fun p => p.1 ∉ names

theorem filter_setProp_undefined (ps : List (JsString × JsValue)) (name : JsString) :
    (setProp ps name .undefined).filter (fun p => !p.2.isUndefined) =
      (ps.filter fun p => p.1 ∉ [name]).filter fun p => !p.2.isUndefined := by
  have hreplace : ∀ qs : List (JsString × JsValue),
      (qs.map fun p => if p.1 = name then (name, JsValue.undefined) else p).filter (fun p => !p.2.isUndefined) =
        (qs.filter fun p => p.1 ∉ [name]).filter fun p => !p.2.isUndefined := by
    intro qs
    induction qs with
    | nil => rfl
    | cons q qs ih =>
      rw [List.map_cons, List.filter_cons, List.filter_cons, ih]
      by_cases hq : q.1 = name
      · simp [hq, isUndefined]
      · simp [hq, List.filter_cons]
  rw [setProp]
  split
  · exact hreplace ps
  · rename_i hmem
    have hself : (ps.filter fun p => p.1 ∉ [name]) = ps := by
      rw [List.filter_eq_self]
      intro p hp
      simp only [List.mem_singleton, decide_not, Bool.not_eq_true', decide_eq_false_iff_not]
      rintro rfl
      exact hmem (List.mem_map.mpr ⟨p, hp, rfl⟩)
    rw [List.filter_append, hself]
    simp [isUndefined]

theorem filter_without (names : List JsString) (ps : List (JsString × JsValue)) :
    (names.foldl (fun ps name => setProp ps name JsValue.undefined) ps).filter (fun p => !p.2.isUndefined) =
      (ps.filter fun p => p.1 ∉ names).filter fun p => !p.2.isUndefined := by
  induction names generalizing ps with
  | nil => simp
  | cons name names ih =>
    have hcomm : ∀ qs : List (JsString × JsValue), (qs.filter fun p => p.1 ∉ names).filter (fun p => !p.2.isUndefined) =
        (qs.filter fun p => !p.2.isUndefined).filter fun p => p.1 ∉ names := by
      intro qs
      rw [List.filter_filter, List.filter_filter]
      exact List.filter_congr fun p _ => Bool.and_comm _ _
    rw [List.foldl_cons, ih, hcomm, filter_setProp_undefined, ← hcomm, List.filter_filter (l := ps)]
    congr 1
    refine List.filter_congr fun p _ => ?_
    simp [not_or, Bool.and_comm]

/-- What the file has of a value with some properties taken out. -/
theorem jsonCopy_without {v : JsValue} (h : IsCopy v) (names : List JsString) :
    jsonCopy (without names v) = .obj ((spread v).filter fun p => p.1 ∉ names) := by
  have hcopy : ∀ p ∈ (spread v).filter (fun p => p.1 ∉ names), jsonCopy p.2 = p.2 := fun p hp =>
    isCopy_of_mem h (mem_ownOrder.mp (List.mem_filter.mp hp).1)
  have hprops : copyProps (names.foldl (fun ps name => setProp ps name JsValue.undefined) (spread v)) =
      (spread v).filter fun p => p.1 ∉ names := by
    rw [copyProps_eq, List.filter_congr fun p _ => isSome_stringify p.2, filter_without,
      List.filter_eq_self.mpr, map_eq_self_iff]
    · exact fun p hp => Prod.ext rfl (hcopy p hp)
    · intro p hp
      rw [← isSome_stringify, Option.isSome_iff_ne_none]
      intro hnone
      exact jsonCopy_ne_undefined p.2 (by rw [hcopy p hp, stringify_eq_none hnone])
  have hk : (((spread v).filter fun p => p.1 ∉ names).map Prod.fst).Nodup :=
    (nodup_spread h).sublist (List.filter_sublist.map _)
  have ho : InOrder ((spread v).filter fun p => p.1 ∉ names) := (inOrder_ownOrder _).sublist List.filter_sublist
  rw [without, jsonCopy, hprops, fromEntries_of_nodup hk, ho.ownOrder_eq]

/-- Two values are the same in the file, less some properties, if they agree but for these. -/
theorem without_eq_iff {v w : JsValue} (hv : IsCopy v) (hw : IsCopy w) (names : List JsString) :
    jsonCopy (without names v) = jsonCopy (without names w) ↔ AgreeBut names v w := by
  rw [jsonCopy_without hv, jsonCopy_without hw, JsValue.obj.injEq]
  rfl

/-! ## Sections -/

theorem ownProps_or (v : JsValue) : ownProps (v.or (.obj [])) = ownProps v := by
  unfold JsValue.or
  cases h : v.truthy with
  | true => rfl
  | false =>
    cases v with
    | str s =>
      have hs : s = [] := by simpa [truthy] using h
      rw [hs]
      rfl
    | arr vs => cases h
    | obj ps => cases h
    | _ => rfl

/-- Every lock that the two have agrees but for its credentials. -/
def LocksAgree (a b : JsValue) : Prop := ∀ name v w, (ownProps a).lookup name = some v → (ownProps b).lookup name = some w →
  AgreeBut lockCredentials v w

theorem get_exportedLocks {a : JsValue} (ha : IsCopy a) (name : JsString) :
    (exportedLocks a).get name = (((ownProps a).lookup name).map (without lockCredentials)).getD .undefined := by
  have hk : (((ownProps a).map fun p => (p.1, without lockCredentials p.2)).map Prod.fst).Nodup := by
    rw [List.map_map]
    exact nodup_ownProps ha
  unfold exportedLocks
  rw [ownProps_or, fromEntries_of_nodup hk, JsValue.get, ← lookup_perm hk (ownOrder_perm _).symm, lookup_map]

theorem exportedLocks_eq_iff {a b : JsValue} (ha : IsCopy a) (hb : IsCopy b) (h : walk a = walk b) :
    jsonCopy (exportedLocks a) = jsonCopy (exportedLocks b) ↔ LocksAgree a b := by
  have hkeys := keys_of_walk h
  have hcopies : jsonCopy (exportedLocks a) = jsonCopy (exportedLocks b) ↔
      ∀ name, reloaded ((exportedLocks a).get name) = reloaded ((exportedLocks b).get name) := by
    unfold exportedLocks
    refine jsonCopy_obj_eq_jsonCopy_iff ?_ (nodup_fromEntries _)
    rw [ownProps_or, ownProps_or, fromEntries_of_nodup, fromEntries_of_nodup]
    · refine keys_ownOrder ?_
      rw [List.map_map, List.map_map]
      exact hkeys
    · rw [List.map_map]
      exact nodup_ownProps hb
    · rw [List.map_map]
      exact nodup_ownProps ha
  have hlock : ∀ {v w : JsValue} {name : JsString}, (ownProps a).lookup name = some v → (ownProps b).lookup name = some w →
      (jsonCopy (without lockCredentials v) = jsonCopy (without lockCredentials w) ↔ AgreeBut lockCredentials v w) :=
    fun hv hw => without_eq_iff (isCopy_of_jsonCopy (isCopy_of_mem ha (mem_of_lookup hv)))
      (isCopy_of_jsonCopy (isCopy_of_mem hb (mem_of_lookup hw))) _
  rw [hcopies]
  constructor
  · intro heq name v w hv hw
    have hname := heq name
    rw [get_exportedLocks ha, get_exportedLocks hb, hv, hw] at hname
    exact (hlock hv hw).mp hname
  · intro hagree name
    rw [get_exportedLocks ha, get_exportedLocks hb]
    cases hv : (ownProps a).lookup name with
    | none =>
      rw [lookup_eq_none, hkeys, ← lookup_eq_none] at hv
      rw [hv]
    | some v =>
      cases hw : (ownProps b).lookup name with
      | none =>
        rw [lookup_eq_none, ← hkeys, ← lookup_eq_none, hv] at hw
        cases hw
      | some w => exact (hlock hv hw).mpr (hagree name v w hv hw)

/-- The authenticators are truthy and no list. -/
def noList (totp : JsValue) : Bool :=
  match totp.or (.arr []) with
  | .arr _ => false
  | _ => true

theorem exportedTotp_of_noList {totp : JsValue} (h : noList totp = true) : exportedTotp totp = none := by
  unfold noList at h
  unfold exportedTotp
  split at h
  · cases h
  · rfl

theorem exportedTotp_of_list {totp : JsValue} (h : noList totp = false) :
    exportedTotp totp = some (.arr (totp.elemsOrNil.map (without totpCredentials))) := by
  cases totp with
  | undefined => rfl
  | null => rfl
  | bool b => cases b <;> first | rfl | cases h
  | num n => 
    cases ht : (JsValue.num n).truthy with
    | true => simp [noList, JsValue.or, ht] at h
    | false => simp [exportedTotp, JsValue.or, ht, elemsOrNil]
  | str s =>
    cases ht : (JsValue.str s).truthy with
    | true => simp [noList, JsValue.or, ht] at h
    | false => simp [exportedTotp, JsValue.or, ht, elemsOrNil]
  | arr es => rfl
  | obj ps => cases h

theorem noList_of_walk {a b : JsValue} (h : walk a = walk b) : noList a = noList b := by
  rcases shape_of_walk h with rfl | ⟨vs, ws, rfl, rfl, -⟩ | ⟨ps, qs, rfl, rfl, -⟩ <;> rfl

theorem isCopy_of_mem_elems {v : JsValue} (h : IsCopy v) {e : JsValue} (he : e ∈ v.elemsOrNil) : IsCopy e := by
  cases v with
  | arr vs => exact isCopy_of_jsonCopy (jsonCopy_arr_eq_iff.mp h e he)
  | _ => exact absurd he List.not_mem_nil

/-- The authenticators of two lists agree but for their secrets. -/
theorem exportedTotp_eq_iff {vs ws : List JsValue} (hv : ∀ v ∈ vs, IsCopy v) (hw : ∀ w ∈ ws, IsCopy w) :
    jsonCopy (.arr (vs.map (without totpCredentials))) = jsonCopy (.arr (ws.map (without totpCredentials))) ↔
      List.Forall₂ (AgreeBut totpCredentials) vs ws := by
  rw [jsonCopy, jsonCopy, copyElems_eq, copyElems_eq, JsValue.arr.injEq]
  induction vs generalizing ws with
  | nil => cases ws <;> simp
  | cons v vs ih =>
    cases ws with
    | nil => simp
    | cons w ws =>
      rw [List.forall_mem_cons] at hv hw
      rw [List.map_cons, List.map_cons, List.map_cons, List.map_cons, List.cons.injEq, List.forall₂_cons,
        without_eq_iff hv.1 hw.1, ih hv.2 hw.2]

theorem lookup_eq_of_reloaded {a b : JsValue} (ha : IsCopy a) (hb : IsCopy b)
    (hkeys : (spread a).map Prod.fst = (spread b).map Prod.fst) {name : JsString}
    (h : reloaded (((spread a).lookup name).getD .undefined) = reloaded (((spread b).lookup name).getD .undefined)) :
    (spread a).lookup name = (spread b).lookup name := by
  have hvalue : ∀ {c v : JsValue}, IsCopy c → (spread c).lookup name = some v → reloaded v = v := fun hc hv => by
    rw [reloaded_eq]
    exact isCopy_of_jsonCopy (isCopy_of_mem hc (mem_ownOrder.mp (mem_of_lookup hv)))
  cases hv : (spread a).lookup name with
  | none =>
    rw [lookup_eq_none, hkeys, ← lookup_eq_none] at hv
    rw [hv]
  | some v =>
    cases hw : (spread b).lookup name with
    | none =>
      rw [lookup_eq_none, ← hkeys, ← lookup_eq_none, hv] at hw
      cases hw
    | some w =>
      rw [hv, hw, Option.getD_some, Option.getD_some, hvalue ha hv, hvalue hb hw] at h
      rw [h]

/-- Settings in the file are the same if they agree but for the vocabulary, and both have one or neither. -/
theorem exportedSettings_eq_iff {a b : JsValue} (ha : IsCopy a) (hb : IsCopy b) (h : walk a = walk b) :
    jsonCopy (exportedSettings a) = jsonCopy (exportedSettings b) ↔
      AgreeBut [js "vocab"] a b ∧ (a.get (js "vocab")).truthy = (b.get (js "vocab")).truthy := by
  have hspread : (spread a).map Prod.fst = (spread b).map Prod.fst := keys_ownOrder (keys_of_walk h)
  have hcopies : jsonCopy (exportedSettings a) = jsonCopy (exportedSettings b) ↔
      ∀ name, reloaded ((exportedSettings a).get name) = reloaded ((exportedSettings b).get name) :=
    jsonCopy_obj_eq_jsonCopy_iff (keys_setProp hspread _ _ _) (nodup_setProp (nodup_spread ha) _ _)
  have hget : ∀ (v : JsValue) (name : JsString), (exportedSettings v).get name =
      if js "vocab" = name then exportedVocab (v.get (js "vocab")) else ((spread v).lookup name).getD .undefined := by
    intro v name
    unfold exportedSettings
    rw [JsValue.get, lookup_setProp]
    split <;> rfl
  have hvocab : reloaded (exportedVocab (a.get (js "vocab"))) = reloaded (exportedVocab (b.get (js "vocab"))) ↔
      (a.get (js "vocab")).truthy = (b.get (js "vocab")).truthy := by
    unfold exportedVocab
    cases (a.get (js "vocab")).truthy <;> cases (b.get (js "vocab")).truthy <;> simp [reloaded, object, jsonCopy]
  rw [hcopies, ← hvocab]
  constructor
  · intro heq
    refine ⟨eq_of_lookup (keys_filter hspread _) ((nodup_spread ha).sublist (List.filter_sublist.map _)) fun name => ?_, ?_⟩
    · rw [lookup_filter, lookup_filter]
      by_cases hname : js "vocab" = name
      · rw [if_pos (List.mem_singleton.mpr hname.symm), if_pos (List.mem_singleton.mpr hname.symm)]
      · have hrest := heq name
        rw [hget, hget, if_neg hname, if_neg hname] at hrest
        rw [lookup_eq_of_reloaded ha hb hspread hrest]
    · have hname := heq (js "vocab")
      rwa [hget, hget, if_pos rfl, if_pos rfl] at hname
  · rintro ⟨hagree, htruthy⟩ name
    rw [hget, hget]
    by_cases hname : js "vocab" = name
    · rw [if_pos hname, if_pos hname, htruthy]
    · have hlookup := congrArg (List.lookup name) hagree
      have hother : name ∉ [js "vocab"] := fun h => hname (List.mem_singleton.mp h).symm
      rw [lookup_filter, lookup_filter, if_neg hother, if_neg hother] at hlookup
      rw [if_neg hname, if_neg hname, hlookup]

/-! ## The state -/

/-- A copy of the state has the copies of its sections. -/
theorem get_sections (state : Section → JsValue) (k : Section) :
    ((fromEntries (copyProps (sections state))).lookup k.key).getD .undefined = clone (state k) := by
  have hk : ((sections state).map Prod.fst).Nodup := show (Section.all.map Section.key).Nodup by decide
  have hget : (jsonCopy (.obj (sections state))).get k.key = reloaded ((JsValue.obj (sections state)).get k.key) :=
    get_jsonCopy hk _
  rw [reloaded_eq] at hget
  have hsection : (JsValue.obj (sections state)).get k.key = state k := by
    cases k <;> rfl
  rw [hsection] at hget
  exact hget

/-- What the file has for a section. -/
def exportedSection (state : Section → JsValue) (totp : JsValue) : Section → JsValue
  | .locks => exportedLocks (clone (state .locks))
  | .totp => totp
  | .settings => if (clone (state .settings)).truthy then exportedSettings
    (clone (state .settings)) else clone (state .settings)
  | k => clone (state k)

theorem exportedState_eq (state : Section → JsValue) :
    exportedState state = (exportedTotp (clone (state .totp))).map (exportedProps state) := by
  unfold exportedState
  rw [JsValue.get]
  exact congrArg (fun v => (exportedTotp v).map (exportedProps state)) (get_sections state .totp)

theorem exportedProps_eq (state : Section → JsValue) (totp : JsValue) : exportedProps state totp =
    let ps := setProp (setProp (fromEntries (copyProps (sections state))) (js "locks") (exportedLocks (clone (state .locks))))
      (js "totp") totp
    if (clone (state .settings)).truthy then setProp ps (js "settings")
      (exportedSettings (clone (state .settings))) else ps := by
  have hlocks : (JsValue.obj (fromEntries (copyProps (sections state)))).get (js "locks") = clone (state .locks) :=
    get_sections state .locks
  have hsettings : (JsValue.obj (fromEntries (copyProps (sections state)))).get (js "settings") = clone (state .settings) :=
    get_sections state .settings
  simp only [exportedProps, hlocks, hsettings]

theorem get_exportedProps (state : Section → JsValue) (totp : JsValue) (k : Section) :
    (JsValue.obj (exportedProps state totp)).get k.key = exportedSection state totp k := by
  have hsections := get_sections state k
  rw [exportedProps_eq, JsValue.get]
  show ((if (clone (state .settings)).truthy then _ else _ : List (JsString × JsValue)).lookup k.key).getD .undefined = _
  split
  · rename_i htruthy
    rw [lookup_setProp, lookup_setProp, lookup_setProp]
    cases k <;> simp only [exportedSection, if_pos htruthy] <;> first | rfl | exact hsections
  · rename_i htruthy
    rw [lookup_setProp, lookup_setProp]
    cases k <;> simp only [exportedSection, if_neg htruthy] <;> first | rfl | exact hsections

theorem nodup_exportedProps (state : Section → JsValue) (totp : JsValue) :
    ((exportedProps state totp).map Prod.fst).Nodup := by
  unfold exportedProps
  have hps := nodup_setProp (nodup_setProp (nodup_fromEntries (copyProps (sections state))) (js "locks")
    (exportedLocks ((JsValue.obj (fromEntries (copyProps (sections state)))).get (js "locks")))) (js "totp") totp
  show ((if _ then _ else _ : List (JsString × JsValue)).map Prod.fst).Nodup
  split
  · exact nodup_setProp hps _ _
  · exact hps

/-- Nothing else is in it. -/
theorem exists_section_of_mem {state : Section → JsValue} {totp : JsValue} {p : JsString × JsValue}
    (h : p ∈ exportedProps state totp) : ∃ k : Section, k.key = p.1 := by
  have hsections : p ∈ fromEntries (copyProps (sections state)) → ∃ k : Section, k.key = p.1 := by
    intro hp
    have hname := (keys_copyProps _).mem (List.mem_map_of_mem (f := Prod.fst) (mem_of_mem_fromEntries hp))
    obtain ⟨q, hq, hname⟩ := List.mem_map.mp hname
    obtain ⟨k, -, rfl⟩ := List.mem_map.mp hq
    exact ⟨k, hname⟩
  have hset : ∀ {ps : List (JsString × JsValue)} (k : Section) {v : JsValue}, p ∈ setProp ps k.key v →
      (p ∈ ps → ∃ k : Section, k.key = p.1) → ∃ k : Section, k.key = p.1 := by
    intro ps k v hp hps
    rcases mem_of_mem_setProp hp with hp | rfl
    · exact hps hp
    · exact ⟨k, rfl⟩
  rw [exportedProps_eq] at h
  have htwo : p ∈ setProp (setProp (fromEntries (copyProps (sections state))) (js "locks")
    (exportedLocks (clone (state .locks))))
      (js "totp") totp → ∃ k : Section, k.key = p.1 := fun hp => hset .totp hp fun hp => hset .locks hp hsections
  by_cases htruthy : (clone (state .settings)).truthy = true
  · simp only [if_pos htruthy] at h
    exact hset .settings h htwo
  · simp only [if_neg htruthy] at h
    exact htwo h

/-- Two states that differ in nothing but what is redacted. -/
structure Alike (s t : Store) : Prop where
  sections : ∀ k, walk (clone (s.state k)) = walk (clone (t.state k))
  history : s.history = t.history

theorem clone_eq_undefined {v : JsValue} : clone v = .undefined ↔ v = .undefined := by
  constructor
  · intro h
    by_contra hv
    rw [clone_of_ne hv] at h
    exact jsonCopy_ne_undefined v h
  · rintro rfl
    rfl

theorem keys_sections {s t : Store} (h : Alike s t) :
    (copyProps (sections s.state)).map Prod.fst = (copyProps (sections t.state)).map Prod.fst := by
  unfold sections
  induction Section.all with
  | nil => rfl
  | cons k ks ih =>
    have hundefined : s.state k = .undefined ↔ t.state k = .undefined := by
      rw [← clone_eq_undefined, ← clone_eq_undefined (v := t.state k)]
      exact undefined_of_walk (h.sections k)
    rw [List.map_cons, List.map_cons]
    by_cases hk : s.state k = .undefined
    · rw [hk, hundefined.mp hk, copyProps, copyProps, ih]
    · rw [copyProps, copyProps, List.map_cons, List.map_cons, ih]
      · exact fun ht => hk (hundefined.mpr ht)
      · exact hk

theorem keys_exportedProps {s t : Store} (h : Alike s t) (totp totp' : JsValue) :
    (exportedProps s.state totp).map Prod.fst = (exportedProps t.state totp').map Prod.fst := by
  have hk : ∀ state : Section → JsValue, ((copyProps (sections state)).map Prod.fst).Nodup := fun state =>
    (show (Section.all.map Section.key).Nodup by decide).sublist (keys_copyProps (sections state))
  have hbase : (fromEntries (copyProps (sections s.state))).map Prod.fst =
      (fromEntries (copyProps (sections t.state))).map Prod.fst := by
    rw [fromEntries_of_nodup (hk s.state), fromEntries_of_nodup (hk t.state)]
    exact keys_ownOrder (keys_sections h)
  have htwo := keys_setProp (keys_setProp hbase (js "locks") (exportedLocks (clone (s.state .locks)))
    (exportedLocks (clone (t.state .locks)))) (js "totp") totp totp'
  rw [exportedProps_eq, exportedProps_eq, truthy_of_walk (h.sections .settings)]
  by_cases htruthy : (clone (t.state .settings)).truthy = true
  · simp only [if_pos htruthy]
    exact keys_setProp htwo _ _ _
  · simp only [if_neg htruthy]
    exact htwo

/-- The state in the file is the same exactly if every section is. -/
theorem exportedProps_eq_iff {s t : Store} (h : Alike s t) (totp totp' : JsValue) :
    jsonCopy (.obj (exportedProps s.state totp)) = jsonCopy (.obj (exportedProps t.state totp')) ↔
      ∀ k, reloaded (exportedSection s.state totp k) = reloaded (exportedSection t.state totp' k) := by
  have hkeys := keys_exportedProps h totp totp'
  rw [jsonCopy_obj_eq_jsonCopy_iff hkeys (nodup_exportedProps _ _)]
  constructor
  · intro heq k
    rw [← get_exportedProps, ← get_exportedProps, heq]
  · intro heq name
    by_cases hname : name ∈ (exportedProps s.state totp).map Prod.fst
    · obtain ⟨p, hp, rfl⟩ := List.mem_map.mp hname
      obtain ⟨k, hk⟩ := exists_section_of_mem hp
      rw [← hk, get_exportedProps, get_exportedProps, heq]
    · have hname' := hname
      rw [hkeys] at hname'
      rw [JsValue.get, JsValue.get, lookup_eq_none.mpr hname, lookup_eq_none.mpr hname']

/-- The two states agree on every credential that the export does not take out. -/
structure AgreeOutside (s t : Section → JsValue) : Prop where
  others : ∀ k, k ≠ .locks → k ≠ .totp → k ≠ .settings → clone (s k) = clone (t k)
  locks : LocksAgree (clone (s .locks)) (clone (t .locks))
  totp : List.Forall₂ (AgreeBut totpCredentials) (clone (s .totp)).elemsOrNil (clone (t .totp)).elemsOrNil
  settings : AgreeBut [js "vocab"] (clone (s .settings)) (clone (t .settings))
  vocab : ((clone (s .settings)).get (js "vocab")).truthy = ((clone (t .settings)).get (js "vocab")).truthy

/-- Where there is no vocabulary to take out, there is nothing else either. -/
theorem settings_eq_iff {a b : JsValue} (ha : IsCopy a) (hb : IsCopy b) (h : walk a = walk b) :
    reloaded (if a.truthy then exportedSettings a else a) = reloaded (if b.truthy then exportedSettings b else b) ↔
      AgreeBut [js "vocab"] a b ∧ (a.get (js "vocab")).truthy = (b.get (js "vocab")).truthy := by
  by_cases htruthy : b.truthy = true
  · rw [truthy_of_walk h, if_pos htruthy, if_pos htruthy]
    exact exportedSettings_eq_iff ha hb h
  · rw [truthy_of_walk h, if_neg htruthy, if_neg htruthy]
    rcases shape_of_walk h with rfl | ⟨vs, ws, rfl, rfl, -⟩ | ⟨ps, qs, rfl, rfl, -⟩
    · exact iff_of_true rfl ⟨rfl, rfl⟩
    · exact absurd rfl htruthy
    · exact absurd rfl htruthy

theorem nodup_bundleProps (now : JsString) (history : List Entry) (ps : List (JsString × JsValue)) :
    ((bundleProps now history ps).map Prod.fst).Nodup :=
  show [js "schema", js "version", js "exportedAt", js "encoding", js "lineEndings", js "omitted",
    js "state", js "history"].Nodup by
    decide

theorem bundle_eq_iff (now : JsString) (history : List Entry) {ps qs : List (JsString × JsValue)} :
    jsonCopy (.obj (bundleProps now history ps)) = jsonCopy (.obj (bundleProps now history qs)) ↔
      jsonCopy (.obj ps) = jsonCopy (.obj qs) := by
  have hkeys : (bundleProps now history ps).map Prod.fst = (bundleProps now history qs).map Prod.fst := rfl
  rw [jsonCopy_obj_eq_jsonCopy_iff hkeys (nodup_bundleProps now history ps)]
  have hstate : ∀ rs, (JsValue.obj (bundleProps now history rs)).get (js "state") = .obj rs := fun _ => rfl
  constructor
  · intro h
    have hname := h (js "state")
    rwa [hstate, hstate] at hname
  · intro h name
    by_cases hname : name = js "state"
    · rw [hname]
      exact h
    · have hother : (JsValue.obj (bundleProps now history ps)).get name =
        (JsValue.obj (bundleProps now history qs)).get name := by
        simp only [bundleProps, JsValue.get, lookup_cons_eq, if_neg (Ne.symm hname)]
      rw [hother]

/-- **Two exports.** They are the same exactly if the states agree on every credential that the export does not take out. -/
theorem identical_iff (now : JsString) {s t : Store} (h : Alike s t) : Identical (exportBundle now s) (exportBundle now t) ↔
    noList (clone (s.state .totp)) = true ∨ AgreeOutside s.state t.state := by
  unfold Identical exportBundle
  rw [exportedState_eq, exportedState_eq]
  by_cases hlist : noList (clone (s.state .totp)) = true
  · have hlist' : noList (clone (t.state .totp)) = true := noList_of_walk (h.sections .totp) ▸ hlist
    rw [exportedTotp_of_noList hlist, exportedTotp_of_noList hlist']
    exact iff_of_true rfl (.inl hlist)
  · rw [Bool.not_eq_true] at hlist
    have hlist' : noList (clone (t.state .totp)) = false := noList_of_walk (h.sections .totp) ▸ hlist
    rw [exportedTotp_of_list hlist, exportedTotp_of_list hlist', hlist, h.history]
    simp only [Option.map_some, Option.some.injEq, Bool.false_eq_true, false_or]
    rw [bundle_eq_iff, exportedProps_eq_iff h]
    have htotp : jsonCopy (.arr ((clone (s.state .totp)).elemsOrNil.map (without totpCredentials))) =
        jsonCopy (.arr ((clone (t.state .totp)).elemsOrNil.map (without totpCredentials))) ↔
        List.Forall₂ (AgreeBut totpCredentials) (clone (s.state .totp)).elemsOrNil (clone (t.state .totp)).elemsOrNil :=
      exportedTotp_eq_iff (fun _ => isCopy_of_mem_elems (isCopy_clone _)) fun _ => isCopy_of_mem_elems (isCopy_clone _)
    have hlocks := exportedLocks_eq_iff (isCopy_clone (s.state .locks)) (isCopy_clone (t.state .locks)) (h.sections .locks)
    have hsettings := settings_eq_iff (isCopy_clone (s.state .settings))
      (isCopy_clone (t.state .settings)) (h.sections .settings)
    have hother : ∀ v, reloaded (clone v) = clone v := fun v => (reloaded_eq _).trans (clone_clone v)
    constructor
    · intro heq
      obtain ⟨hagree, hvocab⟩ := hsettings.mp (heq .settings)
      refine ⟨fun k hl ht hs => ?_, hlocks.mp (heq .locks), htotp.mp (heq .totp), hagree, hvocab⟩
      have hk := heq k
      cases k <;> first | contradiction | (simp only [exportedSection, hother] at hk; exact hk)
    · rintro ⟨hrest, hl, ht, hs, hvocab⟩ k
      cases k with
      | locks => exact hlocks.mpr hl
      | totp => exact htotp.mpr ht
      | settings => exact hsettings.mpr ⟨hs, hvocab⟩
      | _ => exact congrArg reloaded (hrest _ (by decide) (by decide) (by decide))

/-- A store with a pin, and a lock with a hash. -/
def storeWith (pin hash : String) : Store :=
  { start with state := fun
      | .settings => .obj [(js "theme", text "dark"), (js "school", .obj [(js "on", .bool true), (js "pin", text pin)])]
      | .locks => .obj [(js "chats", .obj [(js "kind", text "password"), (js "hash", text hash)])]
      | k => start.state k }

theorem alike_storeWith (pin pin' hash hash' : String) : Alike (storeWith pin hash) (storeWith pin' hash') where
  sections k := by
    cases k <;> rfl
  history := rfl

/-- The hash of a lock is in no export. -/
theorem identical_of_hashes : Identical (exportBundle (js "2026-01-01T00:00:00.000Z") (storeWith "4821" "a1"))
    (exportBundle (js "2026-01-01T00:00:00.000Z") (storeWith "4821" "b2")) ↔
    noList (clone ((storeWith "4821" "a1").state .totp)) = true ∨
      AgreeOutside (storeWith "4821" "a1").state (storeWith "4821" "b2").state :=
  identical_iff _ (alike_storeWith "4821" "4821" "a1" "b2")

/-- The pin is. -/
theorem pin_exported : Alike (storeWith "4821" "a1") (storeWith "1234" "a1") ∧
    ¬ Identical (exportBundle (js "2026-01-01T00:00:00.000Z") (storeWith "4821" "a1"))
      (exportBundle (js "2026-01-01T00:00:00.000Z") (storeWith "1234" "a1")) := by
  refine ⟨alike_storeWith "4821" "1234" "a1" "a1", fun h => ?_⟩
  rcases (identical_iff _ (alike_storeWith "4821" "1234" "a1" "a1")).mp h with hlist | hagree
  · cases hlist
  · have hpin : text "4821" = text "1234" := congrArg (fun ps => pinOf (.obj ps)) hagree.settings
    exact absurd (JsValue.str.inj hpin) (by decide)

end Site
end MaterialOpenWebui
