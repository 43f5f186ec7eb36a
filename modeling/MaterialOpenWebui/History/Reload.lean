import MaterialOpenWebui.History.Canonical
import MaterialOpenWebui.History.Runs

/-!
# `History.Reload` — a log stored as JSON and loaded back

`app/js/state.js` stores the history with `JSON.stringify` and reads it with `JSON.parse`. The hash of an
entry was taken from the value in memory, and `verify` recomputes it from the value loaded. The two see the
same text unless `before` or `after` holds an object with an `undefined` property: `stable` makes that
property `null`, and `JSON.stringify` leaves it out.
-/

namespace MaterialOpenWebui
namespace History
open Js JsValue HashChain

/-! ## Storing -/

/-- What `write('history', log)` puts into storage. -/
def persist (log : Log) : Option (List Char) := stringify log.toJs

/-- What `read('history')` makes of it. -/
def load (raw : List Char) : Option JsValue := parse raw

theorem canon_reloaded (v : JsValue) : canon (reloaded v) = canon (jsonCopy v) := by
  cases v <;> rfl

/-! ## One value -/

mutual

/-- Some object in the value has an `undefined` property. -/
def holdsUndefined : JsValue → Bool
  | .arr vs => elemHoldsUndefined vs
  | .obj ps => propHoldsUndefined ps
  | .undefined => false
  | .null => false
  | .bool _ => false
  | .num _ => false
  | .str _ => false

def elemHoldsUndefined : List JsValue → Bool
  | [] => false
  | v :: vs => holdsUndefined v || elemHoldsUndefined vs

def propHoldsUndefined : List (JsString × JsValue) → Bool
  | [] => false
  | (_, v) :: ps => isUndefined v || holdsUndefined v || propHoldsUndefined ps

end

theorem elemHoldsUndefined_eq_false {vs : List JsValue} :
    elemHoldsUndefined vs = false ↔ ∀ v ∈ vs, holdsUndefined v = false := by
  induction vs with
  | nil => simp [elemHoldsUndefined]
  | cons v vs ih => simp [elemHoldsUndefined, ih]

theorem propHoldsUndefined_eq_false {ps : List (JsString × JsValue)} :
    propHoldsUndefined ps = false ↔ ∀ p ∈ ps, isUndefined p.2 = false ∧ holdsUndefined p.2 = false := by
  induction ps with
  | nil => simp [propHoldsUndefined]
  | cons p ps ih =>
    obtain ⟨k, v⟩ := p
    simp [propHoldsUndefined, ih, and_assoc]

/-- Without `undefined` properties the copied properties are all of them. -/
theorem copyProps_eq_map {ps : List (JsString × JsValue)} (h : ∀ p ∈ ps, isUndefined p.2 = false) :
    copyProps ps = ps.map (fun p => (p.1, jsonCopy p.2)) := by
  rw [copyProps_eq, List.filter_eq_self.mpr]
  intro p hp
  cases hs : stringify p.2 with
  | some t => rfl
  | none =>
    have hu := h p hp
    rw [stringify_eq_none hs] at hu
    cases hu

/-- With an `undefined` property, one fewer is copied. -/
theorem length_copyProps_lt {ps : List (JsString × JsValue)} {p : JsString × JsValue} (hp : p ∈ ps)
    (hu : isUndefined p.2 = true) : (copyProps ps).length < ps.length := by
  rw [copyProps_eq, List.length_map]
  refine List.length_filter_lt_length_iff_exists.mpr ⟨p, hp, ?_⟩
  rw [isUndefined_iff.mp hu]
  simp [stringify]

theorem canon_ownOrder {ps : List (JsString × JsValue)} (hk : (ps.map Prod.fst).Nodup) :
    canon (.obj (ownOrder ps)) = canon (.obj ps) := by
  have hk' : ((ownOrder ps).map Prod.fst).Nodup := ((ownOrder_perm ps).map Prod.fst).nodup_iff.mpr hk
  exact (canon_obj_eq_iff hk' hk).mpr ((ownOrder_perm ps).map _)

/-- **The copy has the canonical value of the original exactly when no property is `undefined`.** -/
theorem canon_jsonCopy_iff {v : JsValue} (h : v.Wf) :
    canon (jsonCopy v) = canon v ↔ holdsUndefined v = false := by
  induction v with
  | undefined => simp [jsonCopy, holdsUndefined]
  | null => simp [jsonCopy, holdsUndefined]
  | bool b => simp [jsonCopy, holdsUndefined]
  | num n =>
    cases n with
    | finite d =>
      have hz : d.unsignZero.unsignZero = d.unsignZero := by
        unfold Decimal.unsignZero
        split_ifs <;> simp_all
      simp [jsonCopy, holdsUndefined, canon, stable, hz]
    | nan => simp [jsonCopy, holdsUndefined, canon, stable]
    | infinity b => simp [jsonCopy, holdsUndefined, canon, stable]
  | str s => simp [jsonCopy, holdsUndefined]
  | arr vs ih =>
    rw [jsonCopy, copyElems_eq, canon_arr, canon_arr, holdsUndefined, elemHoldsUndefined_eq_false,
      JsValue.arr.injEq, List.map_map, List.map_inj_left]
    exact forall₂_congr fun v hv => ih v hv (h.elems v hv)
  | obj ps ih =>
    have hkeys : ((copyProps ps).map Prod.fst).Nodup := h.keys.sublist (keys_copyProps ps)
    rw [jsonCopy, fromEntries_of_nodup hkeys, canon_ownOrder hkeys, holdsUndefined,
      propHoldsUndefined_eq_false]
    by_cases hu : ∀ p ∈ ps, isUndefined p.2 = false
    · rw [copyProps_eq_map hu, canon_map_eq_iff h.keys]
      refine forall₂_congr fun p hp => ?_
      rw [ih p hp (h.props p hp), hu p hp]
      simp
    · -- a property is dropped, so the two objects differ in size
      push Not at hu
      obtain ⟨p, hp, hup⟩ := hu
      rw [Bool.ne_false_iff] at hup
      constructor
      · intro heq
        have hlen := ((canon_obj_eq_iff hkeys h.keys).mp heq).length_eq
        rw [List.length_map, List.length_map] at hlen
        exact absurd hlen (Nat.ne_of_lt (length_copyProps_lt hp hup))
      · intro hall
        rw [(hall p hp).1] at hup
        cases hup

/-! ## What `record` writes of a value -/

mutual

/-- What `record` writes of the value has an object with an `undefined` property: one that is not replaced by
    a placeholder, and no deeper than `redact` goes. -/
def recordsUndefined : Nat → JsValue → Bool
  | depth, v =>
    if depth > 8 then false
    else
      match v with
      | .arr vs => elemRecordsUndefined (depth + 1) vs
      | .obj ps => propRecordsUndefined (depth + 1) ps
      | .undefined => false
      | .null => false
      | .bool _ => false
      | .num _ => false
      | .str _ => false

def elemRecordsUndefined : Nat → List JsValue → Bool
  | _, [] => false
  | depth, v :: vs => recordsUndefined depth v || elemRecordsUndefined depth vs

def propRecordsUndefined : Nat → List (JsString × JsValue) → Bool
  | _, [] => false
  | depth, (k, v) :: ps =>
    (decide (k ∉ neverRecorded ∧ k ≠ js "__proto__") &&
      (isUndefined v && decide (depth ≤ 8) || recordsUndefined depth v)) || propRecordsUndefined depth ps

end

/-- `redact` leaves `undefined` alone, except past its depth, and makes no other value `undefined`. -/
theorem isUndefined_redact (depth : Nat) (v : JsValue) :
    isUndefined (redact depth v) = (isUndefined v && decide (depth ≤ 8)) := by
  by_cases hd : depth > 8
  · have hnot : ¬ depth ≤ 8 := by omega
    cases v <;> simp [redact, hd, hnot, isUndefined]
  · have hle : depth ≤ 8 := by omega
    cases v with
    | str s =>
      simp only [redact, if_neg hd]
      split_ifs <;> simp [isUndefined]
    | _ => simp [redact, hd, hle, isUndefined]

/-- **The condition on the value recorded is the one on the value written.** -/
theorem holdsUndefined_redact (v : JsValue) : ∀ depth,
    holdsUndefined (redact depth v) = recordsUndefined depth v := by
  induction v with
  | arr vs ih =>
    intro depth
    by_cases hd : depth > 8
    · simp [redact, recordsUndefined, hd, holdsUndefined]
    · simp only [redact, recordsUndefined, if_neg hd, holdsUndefined]
      induction vs with
      | nil => rfl
      | cons v vs ihvs =>
        rw [redactElems, elemHoldsUndefined, elemRecordsUndefined, ih v (by simp),
          ihvs (fun w hw => ih w (by simp [hw]))]
  | obj ps ih =>
    intro depth
    by_cases hd : depth > 8
    · simp [redact, recordsUndefined, hd, holdsUndefined]
    · simp only [redact, recordsUndefined, if_neg hd, holdsUndefined]
      induction ps with
      | nil => rfl
      | cons p ps ihps =>
        obtain ⟨k, v⟩ := p
        have hrest := ihps (fun q hq => ih q (by simp [hq]))
        rw [redactProps, propRecordsUndefined]
        by_cases hnever : k ∈ neverRecorded
        · simp [hnever, propHoldsUndefined, isUndefined, holdsUndefined, hrest]
        · by_cases hproto : k = js "__proto__"
          · simp only [if_neg hnever, if_pos hproto, hrest]
            simp [hproto]
          · simp only [if_neg hnever, if_neg hproto, propHoldsUndefined, hrest,
              isUndefined_redact, ih (k, v) (by simp) (depth + 1)]
            simp [hnever, hproto]
  | str s =>
    intro depth
    simp only [redact, recordsUndefined]
    split_ifs <;> rfl
  | _ =>
    intro depth
    simp only [redact, recordsUndefined]
    split_ifs <;> rfl

theorem keys_redactProps (depth : Nat) (ps : List (JsString × JsValue)) :
    ((redactProps depth ps).map Prod.fst).Sublist (ps.map Prod.fst) := by
  induction ps with
  | nil => exact .slnil
  | cons p ps ih =>
    obtain ⟨k, v⟩ := p
    rw [redactProps]
    split_ifs
    · exact ih.cons_cons k
    · exact ih.cons k
    · exact ih.cons_cons k

/-- Redacting keeps a value well-formed. -/
theorem wf_redact {v : JsValue} (h : v.Wf) : ∀ depth, (redact depth v).Wf := by
  induction v with
  | arr vs ih =>
    intro depth
    simp only [redact]
    split_ifs
    · exact .str _
    · refine .arr ?_
      have helems := h.elems
      clear h
      induction vs with
      | nil => intro w hw; exact absurd hw List.not_mem_nil
      | cons v vs ihvs =>
        intro w hw
        rcases List.mem_cons.mp hw with rfl | hw
        · exact ih v (by simp) (helems v (by simp)) _
        · exact ihvs (fun u hu => ih u (by simp [hu])) (fun u hu => helems u (by simp [hu])) w hw
  | obj ps ih =>
    intro depth
    simp only [redact]
    split_ifs
    · exact .str _
    · refine .obj (h.keys.sublist (keys_redactProps _ ps)) ?_
      have hprops := h.props
      clear h
      induction ps with
      | nil => intro q hq; exact absurd hq List.not_mem_nil
      | cons p ps ihps =>
        obtain ⟨k, v⟩ := p
        have hrest := ihps (fun q hq => ih q (by simp [hq])) (fun q hq => hprops q (by simp [hq]))
        intro q hq
        rw [redactProps] at hq
        split_ifs at hq
        · rcases List.mem_cons.mp hq with rfl | hq
          · exact .str _
          · exact hrest q hq
        · exact hrest q hq
        · rcases List.mem_cons.mp hq with rfl | hq
          · exact ih (k, v) (by simp) (hprops (k, v) (by simp)) _
          · exact hrest q hq
  | str s =>
    intro depth
    simp only [redact]
    split_ifs <;> exact .str _
  | undefined => intro depth; simp only [redact]; split_ifs <;> first | exact .str _ | exact .undefined
  | null => intro depth; simp only [redact]; split_ifs <;> first | exact .str _ | exact .null
  | bool b => intro depth; simp only [redact]; split_ifs <;> first | exact .str _ | exact .bool b
  | num n => intro depth; simp only [redact]; split_ifs <;> first | exact .str _ | exact .num n

/-! ## One entry -/

theorem unsignZero_of_nonneg {d : Decimal} (h : d.neg = false) : d.unsignZero = d := by
  obtain ⟨neg, digits, exp, normal⟩ := d
  cases h
  unfold Decimal.unsignZero
  split_ifs with hd
  · simp only at hd
    subst hd
    simp only [if_true] at normal
    simp [normal]
  · rfl

theorem unsignZero_ofNat (n : Nat) : (Decimal.make false n 0).unsignZero = Decimal.make false n 0 := by
  refine unsignZero_of_nonneg ?_
  unfold Decimal.make
  split_ifs <;> rfl

theorem nodup_toJs (e : Entry) : ((match e.toJs with | .obj ps => ps | _ => []).map Prod.fst).Nodup := by
  simp only [Entry.toJs, List.map_cons, List.map_nil]
  decide

theorem wf_toJs {e : Entry} (hb : e.before.Wf) (ha : e.after.Wf) : e.toJs.Wf := by
  refine .obj (nodup_toJs e) ?_
  intro p hp
  simp only [List.mem_cons, List.not_mem_nil, or_false] at hp
  rcases hp with rfl | rfl | rfl | rfl | rfl | rfl | rfl | rfl | rfl
  all_goals first
    | exact hb
    | exact ha
    | exact .str _
    | exact .num _

theorem wf_jsonCopy {v : JsValue} (h : v.Wf) : (jsonCopy v).Wf := by
  induction v with
  | undefined => exact .null
  | null => exact .null
  | bool b => exact .bool b
  | num n => cases n <;> first | exact .num _ | exact .null
  | str s => exact .str s
  | arr vs ih =>
    rw [jsonCopy, copyElems_eq]
    refine .arr ?_
    intro w hw
    obtain ⟨v, hv, rfl⟩ := List.mem_map.mp hw
    exact ih v hv (h.elems v hv)
  | obj ps ih =>
    have hkeys : ((copyProps ps).map Prod.fst).Nodup := h.keys.sublist (keys_copyProps ps)
    rw [jsonCopy, fromEntries_of_nodup hkeys]
    refine .obj (((ownOrder_perm _).map Prod.fst).nodup_iff.mpr hkeys) ?_
    intro q hq
    rw [mem_ownOrder, copyProps_eq] at hq
    obtain ⟨p, hp, rfl⟩ := List.mem_map.mp hq
    have hp' : p ∈ ps := List.mem_of_mem_filter hp
    exact ih p hp' (h.props p hp')

/-- Reading a field of an entry after a reload. -/
theorem get_reloadedEntry (e : Entry) (k : JsString) :
    (jsonCopy e.toJs).get k = reloaded (e.toJs.get k) := get_jsonCopy (nodup_toJs e) k

theorem reloaded_seq (e : Entry) : reloaded (e.toJs.get (js "seq")) = e.toJs.get (js "seq") := by
  have hget : e.toJs.get (js "seq") = .num (.ofNat e.seq) := rfl
  rw [hget, reloaded, JsNumber.ofNat, jsonCopy, unsignZero_ofNat]
  simp

/-- The hashed fields of a reloaded entry: `before` and `after` are reloaded, the rest is as it was. -/
theorem hashedFields_reloaded (e : Entry) : hashedFields (jsonCopy e.toJs) =
    [(js "seq", .num (.ofNat e.seq)), (js "at", .str e.atTime), (js "action", .str e.action),
      (js "target", .str e.target), (js "before", reloaded e.before), (js "after", reloaded e.after),
      (js "label", .str e.label), (js "parent", .str e.parent)] := by
  unfold hashedFields
  simp only [get_reloadedEntry]
  rw [reloaded_seq]
  have hlabel : (reloaded (e.toJs.get (js "label"))).or (.str []) = .str e.label := or_empty e.label
  have hparent : (reloaded (e.toJs.get (js "parent"))).or (.str []) = .str e.parent := or_empty e.parent
  rw [hlabel, hparent]
  rfl

theorem hashedFields_toJs (e : Entry) : hashedFields e.toJs =
    [(js "seq", .num (.ofNat e.seq)), (js "at", .str e.atTime), (js "action", .str e.action),
      (js "target", .str e.target), (js "before", e.before), (js "after", e.after),
      (js "label", .str e.label), (js "parent", .str e.parent)] := by
  have hlabel : (e.toJs.get (js "label")).or (.str []) = .str e.label := or_empty e.label
  have hparent : (e.toJs.get (js "parent")).or (.str []) = .str e.parent := or_empty e.parent
  rw [hashedFields, hlabel, hparent]
  rfl

/-- **An entry keeps its canonical text over a reload exactly when no property in its values is
    `undefined`.** -/
theorem canonical_reloaded_iff {e : Entry} (hb : e.before.Wf) (ha : e.after.Wf) :
    canonical (jsonCopy e.toJs) = canonical e.toJs ↔
      holdsUndefined e.before = false ∧ holdsUndefined e.after = false := by
  have hwf := wf_toJs hb ha
  rw [← canon_jsonCopy_iff hb, ← canon_jsonCopy_iff ha, ← canon_reloaded e.before, ← canon_reloaded e.after]
  constructor
  · intro h
    have hfields := fields_of_canonical_eq (wf_jsonCopy hwf) hwf h
    rw [hashedFields_reloaded, hashedFields_toJs] at hfields
    exact ⟨Option.some.inj (hfields (js "before")), Option.some.inj (hfields (js "after"))⟩
  · rintro ⟨hbefore, hafter⟩
    rw [canonical_eq_iff (wf_jsonCopy hwf) hwf,
      canon_obj_eq_iff (nodup_hashedFields _) (nodup_hashedFields _), hashedFields_reloaded,
      hashedFields_toJs]
    simp only [List.map_cons, List.map_nil, hbefore, hafter]
    exact .refl _

/-! ## Recorded logs -/

theorem load_persist {log : Log} {raw : List Char} (h : persist log = some raw) :
    load raw = some (jsonCopy log.toJs) := parse_stringify h

theorem entriesOf_reloaded (log : Log) :
    entriesOf (jsonCopy log.toJs) = (log.entries.map Entry.toJs).map jsonCopy := by
  have hget : (jsonCopy log.toJs).get (js "entries") = reloaded (log.toJs.get (js "entries")) := by
    refine get_jsonCopy ?_ _
    rw [List.map_append]
    cases log.truncated with
    | none =>
      simp only [List.map_cons, List.map_nil]
      decide
    | some n =>
      simp only [List.map_cons, List.map_nil]
      decide
  rw [entriesOf, hget, toJs_entries, reloaded, jsonCopy, elemsOrNil, copyElems_eq]
  simp

variable (sha256 : ByteArray → Vector UInt8 32)

/-- The log after calls of `record` one after another, each with the time it is made at. -/
def recordAll (calls : List (JsString × Change)) : Except JsString Log :=
  calls.foldlM (fun log c => (record sha256 c.1 log c.2).map Recorded.log) empty

/-- Stored as JSON and loaded back, the log is one that `verify` accepts, with the hashes it had, and each
    entry has the canonical text it had in memory. -/
def SurvivesReload (log : Log) : Prop :=
  ∃ raw loaded, persist log = some raw ∧ load raw = some loaded ∧ Accepted sha256 loaded ∧
    List.Forall₂ (fun e f => e.get (js "hash") = f.get (js "hash") ∧ canonical e = canonical f)
      (entriesOf loaded) (entriesOf log.toJs)

theorem recordAll_concat {calls : List (JsString × Change)} {c : JsString × Change} {log : Log}
    (h : recordAll sha256 (calls ++ [c]) = .ok log) :
    ∃ prev r, recordAll sha256 calls = .ok prev ∧ record sha256 c.1 prev c.2 = .ok r ∧ r.log = log := by
  rw [recordAll, List.foldlM_append] at h
  obtain ⟨prev, hprev, h⟩ := Run.bind_ok h
  rw [List.foldlM_cons] at h
  obtain ⟨log', hlog', h⟩ := Run.bind_ok h
  cases h
  obtain ⟨r, hr, rfl⟩ := map_ok hlog'
  exact ⟨prev, r, hprev, hr, rfl⟩

/-- What is known of a recorded log: how long it is, where its chain starts, and, until the cap is passed,
    the values of its entries. -/
structure RecordedLog (calls : List (JsString × Change)) (log : Log) : Prop where
  length : log.entries.length = min calls.length maxEntries
  linked : ∃ p, (p = [] ↔ calls.length ≤ maxEntries) ∧ Linked (entryScheme sha256) p log.entries
  values : calls.length ≤ maxEntries → log.entries.map (fun e => (e.before, e.after)) =
    calls.map (fun c => (redact 0 c.2.before, redact 0 c.2.after))

/-- On a full log the chain starts from the hash of the entry dropped. -/
theorem linked_drop {p : JsString} {log : Log} (now : JsString) (c : Change)
    (h : Linked (entryScheme sha256) p log.entries) (hne : log.entries ≠ []) :
    ∃ q, q ≠ [] ∧ Linked (entryScheme sha256) q
      ((log.entries ++ [newEntry sha256 now log.entries c]).drop 1) := by
  obtain ⟨e, es, hes⟩ := List.exists_cons_of_ne_nil hne
  have htip : tip (entryScheme sha256) p log.entries = (log.entries.getLast?.map Entry.hash).getD [] := by
    rw [tip_eq_getLast?, hes, List.getLast?_cons]
    rfl
  have hall : Linked (entryScheme sha256) p (log.entries ++ [newEntry sha256 now log.entries c]) :=
    h.concat htip.symm (sealEntry_digest sha256 _ _)
  rw [hes, List.cons_append] at hall ⊢
  refine ⟨e.hash, ?_, hall.2.2⟩
  intro hnil
  exact hashOf_ne_nil sha256 e.toJs (hall.2.1.symm.trans hnil)

theorem recordedLog (calls : List (JsString × Change)) : ∀ log, recordAll sha256 calls = .ok log →
    RecordedLog sha256 calls log := by
  induction calls using List.reverseRecOn with
  | nil =>
    intro log h
    cases h
    exact ⟨rfl, ⟨[], by simp, trivial⟩, fun _ => rfl⟩
  | append_singleton calls c ih =>
    intro log h
    obtain ⟨prev, r, hprev, hr, rfl⟩ := recordAll_concat sha256 h
    obtain ⟨hlen, ⟨p, hp, hlink⟩, hvalues⟩ := ih prev hprev
    have haction := record_action sha256 hr
    by_cases hroom : prev.entries.length < maxEntries
    · rw [record_of_room sha256 haction hroom] at hr
      cases hr
      have hcap : calls.length < maxEntries := by omega
      have hnil : p = [] := hp.mpr (Nat.le_of_lt hcap)
      subst hnil
      refine ⟨?_, ⟨[], ?_, linked_newEntry sha256 hlink c.1 c.2⟩, ?_⟩
      · simp only [List.length_append, List.length_singleton]
        omega
      · simp only [List.length_append, List.length_singleton]
        exact ⟨fun _ => hcap, fun _ => trivial⟩
      · intro _
        simp only [List.map_append, hvalues (Nat.le_of_lt hcap)]
        rfl
    · have hfull : prev.entries.length = maxEntries := by omega
      rw [record_of_full sha256 haction hfull] at hr
      cases hr
      have hne : prev.entries ≠ [] := by
        intro hnil
        rw [hnil] at hfull
        exact absurd hfull (by decide)
      obtain ⟨q, hq, hlink'⟩ := linked_drop sha256 c.1 c.2 hlink hne
      refine ⟨?_, ⟨q, ?_, hlink'⟩, ?_⟩
      · simp only [List.length_drop, List.length_append, List.length_singleton]
        omega
      · simp only [List.length_append, List.length_singleton]
        exact ⟨fun h => absurd h hq, fun h => by omega⟩
      · intro h
        simp only [List.length_append, List.length_singleton] at h
        omega

/-- A reloaded list of entries that kept their texts is linked as it was. -/
theorem linked_reloaded {p : JsString} {es : List Entry}
    (hcanon : ∀ e ∈ es, canonical (jsonCopy e.toJs) = canonical e.toJs) :
    Linked (scheme sha256) (.str p) ((es.map Entry.toJs).map jsonCopy) ↔
      Linked (entryScheme sha256) p es := by
  rw [← linked_toJs sha256 p es]
  refine linked_map_iff ?_ ?_ ?_
  · intro v hv
    obtain ⟨e, -, rfl⟩ := List.mem_map.mp hv
    simp only [scheme, get_reloadedEntry]
    rfl
  · intro v hv
    obtain ⟨e, -, rfl⟩ := List.mem_map.mp hv
    simp only [scheme, get_reloadedEntry]
    rfl
  · intro v hv
    obtain ⟨e, he, rfl⟩ := List.mem_map.mp hv
    exact congrArg JsValue.str (hashOf_of_canonical_eq sha256 (hcanon e he))

/-- A reloaded chain starts where the chain in memory did. -/
theorem start_reloaded {p q : JsString} {es : List Entry} (hne : es ≠ [])
    (h : Linked (entryScheme sha256) p es)
    (h' : Linked (scheme sha256) (.str q) ((es.map Entry.toJs).map jsonCopy)) : p = q := by
  obtain ⟨e, es, rfl⟩ := List.exists_cons_of_ne_nil hne
  have hq : ((jsonCopy e.toJs).get (js "parent")).or (.str []) = .str q := h'.1
  have hparent : ((jsonCopy e.toJs).get (js "parent")).or (.str []) = .str e.parent := by
    rw [get_reloadedEntry]
    exact or_empty e.parent
  rw [hparent] at hq
  exact h.1.symm.trans (JsValue.str.inj hq)

/-- The entries of a log of at most `maxEntries` records hold no `undefined` property exactly when what was
    recorded holds none. -/
theorem entries_holdUndefined {calls : List (JsString × Change)} {log : Log}
    (h : RecordedLog sha256 calls log) (hcap : calls.length ≤ maxEntries) :
    (∀ e ∈ log.entries, holdsUndefined e.before = false ∧ holdsUndefined e.after = false) ↔
      ∀ c ∈ calls, recordsUndefined 0 c.2.before = false ∧ recordsUndefined 0 c.2.after = false := by
  have hleft : (∀ e ∈ log.entries, holdsUndefined e.before = false ∧ holdsUndefined e.after = false) ↔
      ∀ q ∈ log.entries.map (fun e => (e.before, e.after)),
        holdsUndefined q.1 = false ∧ holdsUndefined q.2 = false := by
    simp only [List.forall_mem_map]
  rw [hleft, h.values hcap, List.forall_mem_map]
  simp only [holdsUndefined_redact]

/-- The values of recorded entries are well-formed. -/
theorem entries_wf {calls : List (JsString × Change)} {log : Log} (h : RecordedLog sha256 calls log)
    (hcap : calls.length ≤ maxEntries) (hwf : ∀ c ∈ calls, c.2.before.Wf ∧ c.2.after.Wf) :
    ∀ e ∈ log.entries, e.before.Wf ∧ e.after.Wf := by
  intro e he
  have hmem : (e.before, e.after) ∈ log.entries.map (fun e => (e.before, e.after)) :=
    List.mem_map_of_mem he
  rw [h.values hcap] at hmem
  obtain ⟨c, hc, heq⟩ := List.mem_map.mp hmem
  rw [Prod.mk.injEq] at heq
  rw [← heq.1, ← heq.2]
  exact ⟨wf_redact (hwf c hc).1 0, wf_redact (hwf c hc).2 0⟩

theorem stringify_log (log : Log) : ∃ raw, persist log = some raw := ⟨_, rfl⟩

/-- Every entry kept its hash and its text over the reload. -/
theorem forall₂_reloaded (log : Log) :
    List.Forall₂ (fun e f => e.get (js "hash") = f.get (js "hash") ∧ canonical e = canonical f)
      (entriesOf (jsonCopy log.toJs)) (entriesOf log.toJs) ↔
    ∀ e ∈ log.entries, canonical (jsonCopy e.toJs) = canonical e.toJs := by
  have hentries : entriesOf log.toJs = log.entries.map Entry.toJs := rfl
  rw [entriesOf_reloaded, hentries, List.forall₂_map_left_iff, List.forall₂_same, List.forall_mem_map]
  refine forall₂_congr fun e _ => ?_
  have hhash : (jsonCopy e.toJs).get (js "hash") = e.toJs.get (js "hash") := by
    rw [get_reloadedEntry]
    rfl
  simp [hhash]

/-- **A changed text is reported**: when the digest separates an entry's text from the text it has after a
    reload, `verify` refuses the loaded log. -/
theorem refused_of_separated {log : Log} {e : Entry} (he : e ∈ log.entries)
    (hhash : e.hash = e.digest sha256)
    (hne : sha256 (hashedBytes e.toJs) ≠ sha256 (hashedBytes (jsonCopy e.toJs))) :
    ¬ Accepted sha256 (jsonCopy log.toJs) := by
  intro haccepted
  rw [accepted_iff, entriesOf_reloaded] at haccepted
  have hlinked : (jsonCopy e.toJs).get (js "hash") = .str (hashOf sha256 (jsonCopy e.toJs)) :=
    haccepted.hash_eq _ (List.mem_map_of_mem (List.mem_map_of_mem he))
  have hget : (jsonCopy e.toJs).get (js "hash") = .str e.hash := by
    rw [get_reloadedEntry]
    rfl
  rw [hget, JsValue.str.injEq, hhash] at hlinked
  exact hne (digest_of_hashOf_eq hlinked)

/-- **A recorded log survives being stored and loaded exactly when** it holds every record made (no more than
    `maxEntries` were) and no value recorded has an `undefined` property. -/
theorem survives_iff {calls : List (JsString × Change)} {log : Log}
    (hwf : ∀ c ∈ calls, c.2.before.Wf ∧ c.2.after.Wf) (h : recordAll sha256 calls = .ok log) :
    SurvivesReload sha256 log ↔ calls.length ≤ maxEntries ∧
      ∀ c ∈ calls, recordsUndefined 0 c.2.before = false ∧ recordsUndefined 0 c.2.after = false := by
  have hrec := recordedLog sha256 calls log h
  obtain ⟨p, hp, hlink⟩ := hrec.linked
  constructor
  · rintro ⟨raw, loaded, hraw, hloaded, haccepted, htexts⟩
    rw [load_persist hraw, Option.some.injEq] at hloaded
    subst hloaded
    rw [accepted_iff, entriesOf_reloaded] at haccepted
    have hcap : calls.length ≤ maxEntries := by
      by_contra hover
      have hne : log.entries ≠ [] := by
        intro hnil
        have hlen := hrec.length
        rw [hnil, List.length_nil, Nat.min_eq_right (by omega)] at hlen
        exact absurd hlen (by decide)
      exact hover (hp.mp (start_reloaded sha256 hne hlink haccepted))
    refine ⟨hcap, (entries_holdUndefined sha256 hrec hcap).mp ?_⟩
    intro e he
    obtain ⟨hb, ha⟩ := entries_wf sha256 hrec hcap hwf e he
    exact (canonical_reloaded_iff hb ha).mp ((forall₂_reloaded log).mp htexts e he)
  · rintro ⟨hcap, hnone⟩
    have hcanon : ∀ e ∈ log.entries, canonical (jsonCopy e.toJs) = canonical e.toJs := by
      intro e he
      obtain ⟨hb, ha⟩ := entries_wf sha256 hrec hcap hwf e he
      exact (canonical_reloaded_iff hb ha).mpr ((entries_holdUndefined sha256 hrec hcap).mpr hnone e he)
    obtain ⟨raw, hraw⟩ := stringify_log log
    refine ⟨raw, jsonCopy log.toJs, hraw, load_persist hraw, ?_, (forall₂_reloaded log).mpr hcanon⟩
    rw [accepted_iff, entriesOf_reloaded, linked_reloaded sha256 hcanon, ← hp.mpr hcap]
    exact hlink

theorem theme_survives : SurvivesReload (fun _ => themeDigest)
    ⟨[newEntry (fun _ => themeDigest) midnight [] themeChange], some 0⟩ := by
  have hrecord : recordAll (fun _ => themeDigest) [(midnight, themeChange)] =
      .ok ⟨[newEntry (fun _ => themeDigest) midnight [] themeChange], some 0⟩ := rfl
  refine (survives_iff (fun _ => themeDigest) ?_ hrecord).mpr ⟨by decide, by decide⟩
  intro c hc
  rw [List.mem_singleton.mp hc]
  exact ⟨.str _, .str _⟩

/-- Somebody sets a logo for the first time: before that the setting was `undefined`. -/
def logoChange : Change :=
  { action := js "setting", target := some (js "logo"), before := .obj [(js "logo", .undefined)],
    after := .obj [(js "logo", .str (js "cat.svg"))], atTime := none, label := none }

/-- The log that holds this change alone. -/
def logoLog : Log := ⟨[newEntry sha256 midnight [] logoChange], some 0⟩

/-- The one record in a log is accepted in memory; stored and loaded, its text is another, and `verify`
    reports it as changed under every digest that separates the two texts. -/
theorem logo_refused_after_reload :
    (¬ ∃ sha256 : ByteArray → Vector UInt8 32, SurvivesReload sha256 (logoLog sha256)) ∧
    ∀ (sha256 : ByteArray → Vector UInt8 32) (raw : List Char) (loaded : JsValue),
      recordAll sha256 [(midnight, logoChange)] = .ok (logoLog sha256) ∧
      Accepted sha256 (logoLog sha256).toJs ∧
      (sha256 (hashedBytes (newEntry sha256 midnight [] logoChange).toJs) ≠
          sha256 (hashedBytes (jsonCopy (newEntry sha256 midnight [] logoChange).toJs)) →
        persist (logoLog sha256) = some raw → load raw = some loaded → ¬ Accepted sha256 loaded) := by
  constructor
  · rintro ⟨sha256, raw, loaded, hraw, hloaded, -, htexts⟩
    rw [load_persist hraw, Option.some.injEq] at hloaded
    subst hloaded
    have hcanon := (forall₂_reloaded _).mp htexts _ (List.mem_singleton.mpr rfl)
    have hwf : (newEntry sha256 midnight [] logoChange).before.Wf ∧
        (newEntry sha256 midnight [] logoChange).after.Wf := by
      refine ⟨wf_redact (.obj (by decide) ?_) 0, wf_redact (.obj (by decide) ?_) 0⟩
      · intro p hp
        rw [List.mem_singleton.mp hp]
        exact .undefined
      · intro p hp
        rw [List.mem_singleton.mp hp]
        exact .str _
    have hnone := (canonical_reloaded_iff hwf.1 hwf.2).mp hcanon
    have hbefore : holdsUndefined (redact 0 logoChange.before) = false := hnone.1
    exact absurd hbefore (by decide)
  · intro sha256 raw loaded
    have haction : logoChange.action ≠ [] := by decide
    have hroom : empty.entries.length < maxEntries := by decide
    have hrecord : recordAll sha256 [(midnight, logoChange)] = .ok (logoLog sha256) := by
      rw [recordAll, List.foldlM_cons, record_of_room sha256 haction hroom]
      rfl
    have hlinked : Linked (entryScheme sha256) [] (logoLog sha256).entries :=
      linked_newEntry sha256 (sound_empty sha256).linked midnight logoChange
    refine ⟨hrecord, (accepted_toJs sha256 _).mpr hlinked, ?_⟩
    intro hne hraw hloaded haccepted
    rw [load_persist hraw, Option.some.injEq] at hloaded
    subst hloaded
    exact refused_of_separated sha256 (List.mem_singleton.mpr rfl) (sealEntry_digest sha256 _ _) hne haccepted

end History
end MaterialOpenWebui
