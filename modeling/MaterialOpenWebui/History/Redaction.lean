import MaterialOpenWebui.History.Undo
import MaterialOpenWebui.Js.Digits
import MaterialOpenWebui.Js.JsonRoundTrip
import Mathlib.Data.Nat.Log

/-!
# `History.Redaction` — what redaction keeps out, and what it changes again

Nothing depends on what is under a name that is never recorded: not the entry, not its hash, and so not the log of a whole run.
And `restore` records values that have been redacted before. They are redacted once more, which a text that was cut short does
not survive as it is: what stands for the rest of it is counted anew.
-/

namespace MaterialOpenWebui
namespace History
open Js Run

/-! ## Noninterference -/

/-- The values differ in nothing but what is under names that are never recorded. -/
inductive Alike : JsValue → JsValue → Prop where
  | same (v : JsValue) : Alike v v
  | arr {vs ws : List JsValue} (hlength : vs.length = ws.length)
      (h : ∀ p ∈ vs.zip ws, Alike p.1 p.2) : Alike (.arr vs) (.arr ws)
  | obj {ps qs : List (JsString × JsValue)} (hkeys : ps.map Prod.fst = qs.map Prod.fst)
      (h : ∀ p ∈ ps.zip qs, p.1.1 ∉ neverRecorded → Alike p.1.2 p.2.2) : Alike (.obj ps) (.obj qs)

theorem redactElems_eq (depth : Nat) (vs : List JsValue) : redactElems depth vs = vs.map (redact depth) := by
  induction vs with
  | nil => rfl
  | cons v vs ih => rw [redactElems, ih, List.map_cons]

/-- What becomes of a property. -/
def redactProp (depth : Nat) (p : JsString × JsValue) : List (JsString × JsValue) :=
  if p.1 ∈ neverRecorded then [(p.1, .str (js "[not recorded]"))]
  else if p.1 = js "__proto__" then []
  else [(p.1, redact depth p.2)]

theorem redactProps_eq (depth : Nat) (ps : List (JsString × JsValue)) :
    redactProps depth ps = ps.flatMap (redactProp depth) := by
  induction ps with
  | nil => rfl
  | cons p ps ih =>
    rw [redactProps, ih, List.flatMap_cons, redactProp]
    split
    · rfl
    split <;> rfl

theorem map_eq_of_zip {α β : Type} {f : α → β} {vs ws : List α} (hlength : vs.length = ws.length)
    (h : ∀ p ∈ vs.zip ws, f p.1 = f p.2) : vs.map f = ws.map f := by
  induction vs generalizing ws with
  | nil =>
    cases ws with
    | nil => rfl
    | cons w ws => cases hlength
  | cons v vs ih =>
    cases ws with
    | nil => cases hlength
    | cons w ws =>
      rw [List.zip_cons_cons, List.forall_mem_cons] at h
      rw [List.map_cons, List.map_cons, h.1, ih (Nat.succ.inj hlength) h.2]

/-- Names in the same places are the same. -/
theorem name_of_zip {ps qs : List (JsString × JsValue)} (hkeys : ps.map Prod.fst = qs.map Prod.fst) :
    ∀ p ∈ ps.zip qs, p.1.1 = p.2.1 := by
  induction ps generalizing qs with
  | nil => exact fun p hp => absurd hp List.not_mem_nil
  | cons p ps ih =>
    cases qs with
    | nil => cases hkeys
    | cons q qs =>
      obtain ⟨hname, hkeys⟩ := List.cons.inj hkeys
      rw [List.zip_cons_cons, List.forall_mem_cons]
      exact ⟨hname, ih hkeys⟩

/-- **Noninterference.** What is left is the same. -/
theorem redact_alike {v w : JsValue} (h : Alike v w) (depth : Nat) : redact depth v = redact depth w := by
  induction h generalizing depth with
  | same v => rfl
  | arr hlength h ih =>
    unfold redact
    split
    · rfl
    show JsValue.arr (redactElems (depth + 1) _) = .arr (redactElems (depth + 1) _)
    rw [redactElems_eq, redactElems_eq, map_eq_of_zip hlength fun p hp => ih p hp (depth + 1)]
  | @obj ps qs hkeys h ih =>
    have hlength : ps.length = qs.length := by
      rw [← List.length_map Prod.fst, hkeys, List.length_map]
    have hprop : ∀ p ∈ ps.zip qs, redactProp (depth + 1) p.1 = redactProp (depth + 1) p.2 := by
      intro p hp
      unfold redactProp
      rw [name_of_zip hkeys p hp]
      split
      · rfl
      · rename_i hname
        rw [← name_of_zip hkeys p hp] at hname
        rw [ih p hp hname]
    unfold redact
    split
    · rfl
    show JsValue.obj (redactProps (depth + 1) _) = .obj (redactProps (depth + 1) _)
    rw [redactProps_eq, redactProps_eq, List.flatMap_def, List.flatMap_def, map_eq_of_zip hlength hprop]

variable (sha256 : ByteArray → Vector UInt8 32) (number : JsString → JsNumber)

/-- The changes differ in nothing but what is never recorded of their values. -/
structure AlikeChanges (c c' : Change) : Prop where
  before : Alike c.before c'.before
  after : Alike c.after c'.after
  rest : c' = { c with before := c'.before, after := c'.after }

/-- **The log does not tell such changes apart.** -/
theorem record_alike {c c' : Change} (h : AlikeChanges c c') (now : JsString) (log : Log) :
    record sha256 now log c = record sha256 now log c' := by
  have hentry : newEntry sha256 now log.entries c = newEntry sha256 now log.entries c' := by
    rw [h.rest]
    unfold newEntry
    rw [redact_alike h.before, redact_alike h.after]
  have haction : c.action = c'.action := by rw [h.rest]
  unfold record
  rw [hentry, haction]

theorem record_alike_pin :
    record shortDigest midnight empty { themeChange with after := .arr [.obj [(js "pin", .str (js "4821"))]] } =
      record shortDigest midnight empty { themeChange with after := .arr [.obj [(js "pin", .obj [])]] } := by
  have hpins : Alike (.obj [(js "pin", .str (js "4821"))]) (.obj [(js "pin", .obj [])]) := by
    refine .obj rfl fun p hp hname => ?_
    rw [List.mem_singleton.mp hp] at hname
    exact absurd (by decide) hname
  have helems : ∀ p ∈ [JsValue.obj [(js "pin", .str (js "4821"))]].zip [.obj [(js "pin", .obj [])]], Alike p.1 p.2 :=
    fun p hp => List.mem_singleton.mp hp ▸ hpins
  have hchanges : AlikeChanges { themeChange with after := .arr [.obj [(js "pin", .str (js "4821"))]] }
      { themeChange with after := .arr [.obj [(js "pin", .obj [])]] } := ⟨.same _, .arr rfl helems, rfl⟩
  exact record_alike shortDigest hchanges midnight empty

/-- Calls that differ in nothing but what is never recorded. -/
inductive AlikeOps : Op → Op → Prop where
  | same (op : Op) : AlikeOps op op
  | record (now : JsString) {c c' : Change} (h : AlikeChanges c c') : AlikeOps (.record now c) (.record now c')

/-- **Whole runs** leave the same log. -/
theorem reached_alike {ops ops' : List Op} (h : List.Forall₂ AlikeOps ops ops') :
    reached sha256 number ops = reached sha256 number ops' := by
  have hrun : ∀ log, run (step sha256 number) log ops = run (step sha256 number) log ops' := by
    induction h with
    | nil => exact fun log => rfl
    | cons hop hops ih =>
      intro log
      rw [run_cons, run_cons, ← ih]
      cases hop with
      | same op => rfl
      | @record now c c' h =>
        have hentry : newEntry sha256 now log.entries c = newEntry sha256 now log.entries c' := by
          rw [h.rest, newEntry, newEntry, redact_alike h.before, redact_alike h.after]
        have haction : c.action = c'.action := by rw [h.rest]
        rw [step, step, apply, apply, History.record, History.record, hentry, haction]
  exact hrun empty

theorem reached_alike_pin :
    reached shortDigest (fun _ => .nan)
        [.record midnight { themeChange with after := .obj [(js "pin", .str (js "4821"))] }, .label midnight 1 [] none] =
      reached shortDigest (fun _ => .nan)
        [.record midnight { themeChange with after := .obj [(js "pin", .null)] }, .label midnight 1 [] none] := by
  have hpins : Alike (.obj [(js "pin", .str (js "4821"))]) (.obj [(js "pin", .null)]) := by
    refine .obj rfl fun p hp hname => ?_
    rw [List.mem_singleton.mp hp] at hname
    exact absurd (by decide) hname
  exact reached_alike _ _ (.cons (.record midnight ⟨.same _, hpins, rfl⟩) (.cons (.same _) .nil))

/-! ## Settled values -/

/-- What is written after a text that is cut short. -/
def restNote (count : Nat) : JsString := js "… [" ++ natText count ++ js " more characters not recorded]"

/-- Redacting the value once more changes nothing. The note after a text has 35 characters if it counts 35. -/
inductive Settled : Nat → JsValue → Prop where
  | deep {depth : Nat} (h : 8 < depth) : Settled depth (.str (js "[too deeply nested to record]"))
  | undefined {depth : Nat} (h : depth ≤ 8) : Settled depth .undefined
  | null {depth : Nat} (h : depth ≤ 8) : Settled depth .null
  | bool {depth : Nat} (h : depth ≤ 8) (b : Bool) : Settled depth (.bool b)
  | num {depth : Nat} (h : depth ≤ 8) (n : JsNumber) : Settled depth (.num n)
  | str {depth : Nat} (h : depth ≤ 8) {s : JsString} (hs : s.length ≤ maxValueBytes ∨ s.drop maxValueBytes = restNote 35) :
      Settled depth (.str s)
  | arr {depth : Nat} (h : depth ≤ 8) {vs : List JsValue} (hvs : ∀ v ∈ vs, Settled (depth + 1) v) : Settled depth (.arr vs)
  | obj {depth : Nat} (h : depth ≤ 8) {ps : List (JsString × JsValue)}
      (hproto : ∀ p ∈ ps, p.1 ≠ js "__proto__") (hnever : ∀ p ∈ ps, p.1 ∈ neverRecorded → p.2 = .str (js "[not recorded]"))
      (hps : ∀ p ∈ ps, p.1 ∉ neverRecorded → Settled (depth + 1) p.2) : Settled depth (.obj ps)

theorem length_natText {n : Nat} (h : 0 < n) : ∃ k, (natText n).length = k + 1 ∧ 10 ^ k ≤ n ∧ n < 10 ^ (k + 1) := by
  have hlow : 10 ^ Nat.log 10 n ≤ n := Nat.pow_log_le_self 10 (by omega)
  have hhigh : n < 10 ^ (Nat.log 10 n + 1) := Nat.lt_pow_succ_log_self (by decide) n
  refine ⟨Nat.log 10 n, ?_, hlow, hhigh⟩
  rw [natText_eq_padded _ n hlow hhigh, length_padded]

/-- Only a note of 35 has the length that it counts. -/
theorem length_restNote_iff {n : Nat} : (restNote n).length = n ↔ n = 35 := by
  have hlength : (restNote n).length = 33 + (natText n).length := by
    have hfront : (js "… [").length = 3 := by decide
    have hback : (js " more characters not recorded]").length = 30 := by decide
    rw [restNote, List.length_append, List.length_append, hfront, hback]
    omega
  rw [hlength]
  constructor
  · intro h
    obtain ⟨k, hk, hlow, hhigh⟩ : ∃ k, (natText n).length = k + 1 ∧ 10 ^ k ≤ n ∧ n < 10 ^ (k + 1) := length_natText (by omega)
    rcases k with _ | _ | k
    · omega
    · omega
    · -- three digits and more count far more than they add
      exfalso
      have hgrow : ∀ k, 36 + k < 10 ^ (k + 1 + 1) := by
        intro k
        induction k with
        | zero => decide
        | succ k ih =>
          have hten : 10 ^ (k + 1 + 1 + 1) = 10 ^ (k + 1 + 1) * 10 := Nat.pow_succ 10 (k + 1 + 1)
          omega
      have hk' := hgrow k
      omega
  · rintro rfl
    rfl

theorem redact_str {depth : Nat} (h : depth ≤ 8) (s : JsString) : redact depth (.str s) =
    if s.length > maxValueBytes then .str (s.take maxValueBytes ++ restNote (s.length - maxValueBytes)) else .str s := by
  rw [redact, if_neg (Nat.not_lt.mpr h), restNote, List.append_assoc, List.append_assoc, List.append_assoc]

theorem redact_str_eq_iff (s : JsString) :
    (if s.length > maxValueBytes then JsValue.str (s.take maxValueBytes ++ restNote (s.length - maxValueBytes))
    else .str s) = .str s ↔ s.length ≤ maxValueBytes ∨ s.drop maxValueBytes = restNote 35 := by
  by_cases hlong : s.length > maxValueBytes
  · have hparts : s.take maxValueBytes ++ s.drop maxValueBytes = s := List.take_append_drop maxValueBytes s
    have hrest : (s.drop maxValueBytes).length = s.length - maxValueBytes := List.length_drop
    rw [if_pos hlong, JsValue.str.injEq]
    constructor
    · intro h
      have hdrop : restNote (s.length - maxValueBytes) = s.drop maxValueBytes :=
        List.append_cancel_left (h.trans hparts.symm)
      have hcount : s.length - maxValueBytes = 35 := by
        rw [← length_restNote_iff, hdrop, hrest]
      right
      rw [← hdrop, hcount]
    · rintro (h | h)
      · omega
      · have hcount : s.length - maxValueBytes = 35 := by
          rw [← hrest, h]
          rfl
        rw [hcount, ← h, hparts]
  · rw [if_neg hlong]
    exact iff_of_true rfl (.inl (Nat.le_of_not_gt hlong))

theorem redact_deep {depth : Nat} (h : 8 < depth) (v : JsValue) : redact depth v = v ↔ Settled depth v := by
  unfold redact
  rw [if_pos h]
  constructor
  · rintro rfl
    exact .deep h
  · intro hv
    cases hv with
    | deep => rfl
    | _ => omega

/-- A property is left as it is. -/
theorem redactProp_eq_iff {depth : Nat} {p : JsString × JsValue} (ih : redact depth p.2 = p.2 ↔ Settled depth p.2) :
    redactProp depth p = [p] ↔ p.1 ≠ js "__proto__" ∧ (p.1 ∈ neverRecorded → p.2 = .str (js "[not recorded]")) ∧
      (p.1 ∉ neverRecorded → Settled depth p.2) := by
  obtain ⟨k, v⟩ := p
  have hproto : js "__proto__" ∉ neverRecorded := by decide
  unfold redactProp
  by_cases hk : k ∈ neverRecorded
  · have hne : k ≠ js "__proto__" := fun h => hproto (h ▸ hk)
    rw [if_pos hk, List.singleton_inj, Prod.mk.injEq]
    exact ⟨fun h => ⟨hne, fun _ => h.2.symm, fun h => absurd hk h⟩, fun h => ⟨rfl, (h.2.1 hk).symm⟩⟩
  · rw [if_neg hk]
    by_cases hp : k = js "__proto__"
    · rw [if_pos hp]
      exact iff_of_false (List.cons_ne_nil _ _).symm fun h => h.1 hp
    · rw [if_neg hp, List.singleton_inj, Prod.mk.injEq, ih]
      exact ⟨fun h => ⟨hp, fun hmem => absurd hmem hk, fun _ => h.2⟩, fun h => ⟨rfl, h.2.2 hk⟩⟩

theorem length_redactProp_le (depth : Nat) (p : JsString × JsValue) : (redactProp depth p).length ≤ 1 := by
  unfold redactProp
  split
  · exact Nat.le_refl 1
  split
  · exact Nat.zero_le 1
  · exact Nat.le_refl 1

/-- Where each part becomes one or none, all is as it was exactly if each part is. -/
theorem flatMap_eq_self_iff {α : Type} {f : α → List α} (hlength : ∀ a, (f a).length ≤ 1) {as : List α} :
    as.flatMap f = as ↔ ∀ a ∈ as, f a = [a] := by
  have hle : ∀ as : List α, (as.flatMap f).length ≤ as.length := by
    intro as
    induction as with
    | nil => exact Nat.le_refl 0
    | cons a as ih =>
      have ha := hlength a
      rw [List.flatMap_cons, List.length_append, List.length_cons]
      omega
  induction as with
  | nil => exact iff_of_true rfl (List.forall_mem_nil _)
  | cons a as ih =>
    rw [List.flatMap_cons, List.forall_mem_cons]
    refine Iff.trans ?_ (and_congr Iff.rfl ih)
    have ha := hlength a
    match f a, ha with
    | [], _ =>
      refine iff_of_false (fun h => ?_) fun h => absurd h.1 (List.cons_ne_nil a []).symm
      have hlong := hle as
      rw [List.nil_append] at h
      rw [h, List.length_cons] at hlong
      omega
    | [b], _ =>
      rw [List.singleton_append, List.cons.injEq, List.singleton_inj]

/-- **What redaction leaves as it is** is what is settled. -/
theorem redact_eq_iff (v : JsValue) (depth : Nat) : redact depth v = v ↔ Settled depth v := by
  -- only the depths at which something is recorded are looked into
  suffices hflat : ∀ depth ≤ 8, (redact depth v = v ↔ Settled depth v) from
    (Nat.lt_or_ge 8 depth).elim (fun h => redact_deep h v) (hflat depth)
  clear depth
  intro depth hle
  have hdeep : ¬ depth > 8 := Nat.not_lt.mpr hle
  induction v generalizing depth with
  | undefined => exact iff_of_true (by rw [redact, if_neg hdeep]) (.undefined hle)
  | null => exact iff_of_true (by rw [redact, if_neg hdeep]) (.null hle)
  | bool b => exact iff_of_true (by rw [redact, if_neg hdeep]) (.bool hle b)
  | num n => exact iff_of_true (by rw [redact, if_neg hdeep]) (.num hle n)
  | str s =>
    rw [redact_str hle, redact_str_eq_iff]
    refine ⟨.str hle, fun h => ?_⟩
    cases h with
    | deep h => omega
    | str _ hs => exact hs
  | arr vs ih =>
    have hone : ∀ v ∈ vs, (redact (depth + 1) v = v ↔ Settled (depth + 1) v) := fun v hv =>
      (Nat.lt_or_ge 8 (depth + 1)).elim (fun h => redact_deep h v) fun h => ih v hv (depth + 1) h (Nat.not_lt.mpr h)
    have harr : redact depth (.arr vs) = .arr (vs.map (redact (depth + 1))) := by rw [redact, if_neg hdeep, redactElems_eq]
    rw [harr, JsValue.arr.injEq, map_eq_self_iff]
    constructor
    · exact fun h => .arr hle fun v hv => (hone v hv).mp (h v hv)
    · intro h
      cases h with
      | arr _ hvs => exact fun v hv => (hone v hv).mpr (hvs v hv)
  | obj ps ih =>
    have hone : ∀ p ∈ ps, (redact (depth + 1) p.2 = p.2 ↔ Settled (depth + 1) p.2) := fun p hp =>
      (Nat.lt_or_ge 8 (depth + 1)).elim (fun h => redact_deep h p.2) fun h => ih p hp (depth + 1) h (Nat.not_lt.mpr h)
    have hobj : redact depth (.obj ps) =
      .obj (ps.flatMap (redactProp (depth + 1))) := by rw [redact, if_neg hdeep, redactProps_eq]
    rw [hobj, JsValue.obj.injEq, flatMap_eq_self_iff (length_redactProp_le (depth + 1))]
    constructor
    · intro h
      have hprop := fun p hp => (redactProp_eq_iff (hone p hp)).mp (h p hp)
      exact .obj hle (fun p hp => (hprop p hp).1) (fun p hp => (hprop p hp).2.1) fun p hp => (hprop p hp).2.2
    · intro h
      cases h with
      | obj _ hproto hnever hps =>
        exact fun p hp => (redactProp_eq_iff (hone p hp)).mpr
          ⟨hproto p hp, hnever p hp, hps p hp⟩

/-! ## Restoring -/

/-- The entry that restoring `e` appends has its values the other way round, and restoring that one has them as they were. -/
structure Swapped (e : Entry) (r : Restored) : Prop where
  before : r.entry.before = e.after
  after : r.entry.after = e.before
  again : ∀ now atTime r', restore sha256 now r.log r.entry.seq atTime = .ok r' → r'.source = r.entry →
    r'.entry.before = e.before ∧ r'.entry.after = e.after

theorem restore_found {log : Log} {seq : Nat} {e : Entry}
    (hfound : (log.entries.find? fun x => x.seq = seq) = some e) (now : JsString)
    (atTime : Option JsString) : ∃ r, restore sha256 now log seq atTime = .ok r ∧ r.source = e ∧
      r.entry.before = redact 0 e.after ∧ r.entry.after = redact 0 e.before ∧
      r.entry.seq = (log.entries.getLast?.map fun x => succ x.seq).getD 1 ∧
      ∃ n ≤ log.entries.length, r.log.entries = (log.entries ++ [r.entry]).drop n := by
  have haction : js "restore" ≠ [] := by decide
  obtain ⟨r, hr, hentry, hlog, hdropped⟩ := record_appends sha256 now log (c :=
    { action := js "restore"
      target := some (e.action ++ (if e.target = [] then [] else js " · " ++ e.target))
      before := e.after
      after := e.before
      atTime := atTime
      label := some (js "Restored the value from entry " ++ natText seq) }) haction
  refine ⟨{ toRecorded := r, restored := e.before, source := e }, ?_, rfl, ?_, ?_, ?_, r.dropped, hdropped, hlog⟩
  · rw [restore, hfound]
    simp only [hr]
    rfl
  · rw [hentry]
    rfl
  · rw [hentry]
    rfl
  · rw [hentry]
    rfl

theorem record_entry {now : JsString} {log : Log} {c : Change} {r : Recorded} (h : record sha256 now log c = .ok r) :
    r.entry = newEntry sha256 now log.entries c := by
  obtain ⟨r', hr', hentry, -⟩ := record_appends sha256 now log (record_action sha256 h)
  cases h.symm.trans hr'
  exact hentry

/-- **Restoring swaps** the values of an entry exactly if both are settled. -/
theorem swapped_iff {log : Log} {e : Entry} (hfound : (log.entries.find? fun x => x.seq = e.seq) = some e) (now : JsString)
    (atTime : Option JsString) : ∃ r, restore sha256 now log e.seq atTime = .ok r ∧ r.source = e ∧
      (Swapped sha256 e r ↔ Settled 0 e.before ∧ Settled 0 e.after) := by
  obtain ⟨r, hr, hsource, hbefore, hafter, -⟩ := restore_found sha256 hfound now atTime
  refine ⟨r, hr, hsource, ?_⟩
  constructor
  · intro h
    exact ⟨(redact_eq_iff _ 0).mp (hafter.symm.trans h.after), (redact_eq_iff _ 0).mp (hbefore.symm.trans h.before)⟩
  · rintro ⟨hb, ha⟩
    rw [(redact_eq_iff _ 0).mpr ha] at hbefore
    rw [(redact_eq_iff _ 0).mpr hb] at hafter
    refine ⟨hbefore, hafter, fun now' atTime' r' hr' hsource' => ?_⟩
    -- the values that the second restoring records are settled as well
    unfold restore at hr'
    split at hr'
    · cases hr'
    rename_i target hfind
    obtain ⟨result, hresult, heq⟩ := bind_ok hr'
    cases heq
    obtain rfl : target = r.entry := hsource'
    have hnew := record_entry sha256 hresult
    rw [hnew]
    constructor
    · show redact 0 r.entry.after = e.before
      rw [hafter, (redact_eq_iff _ 0).mpr hb]
    · show redact 0 r.entry.before = e.after
      rw [hbefore, (redact_eq_iff _ 0).mpr ha]

/-- In a log whose numbers ascend, its number finds the entry that was appended. -/
theorem restored_found {log : Log} {e : Entry} (hascend : (log.entries.map Entry.seq).Pairwise (· < ·))
    (hcount : Countable log.entries)
    (hfound : (log.entries.find? fun x => x.seq = e.seq) = some e) (now : JsString) (atTime : Option JsString) {r : Restored}
    (hr : restore sha256 now log e.seq atTime = .ok r) :
    (r.log.entries.find? fun x => x.seq = r.entry.seq) = some r.entry := by
  obtain ⟨r', hr', -, -, -, hseq, n, hn, hlog⟩ := restore_found sha256 hfound now atTime
  cases hr.symm.trans hr'
  have hlast : ∀ x ∈ log.entries, x.seq < r.entry.seq := by
    intro x hx
    have hall := increasing_newEntry sha256 hascend hcount now themeChange
    rw [List.map_append, List.pairwise_append] at hall
    have hlt := hall.2.2 x.seq (List.mem_map_of_mem hx) _ List.mem_cons_self
    rwa [seq_newEntry, ← hseq] at hlt
  have hnone : ((log.entries.drop n).find? fun x => x.seq = r.entry.seq) = none := by
    rw [List.find?_eq_none]
    intro x hx heq
    exact absurd (of_decide_eq_true heq) (Nat.ne_of_lt (hlast x (List.mem_of_mem_drop hx)))
  rw [hlog, List.drop_append_of_le_length hn, List.find?_append, hnone, Option.none_or]
  exact List.find?_cons_of_pos (by rw [decide_eq_true_eq])

theorem restored_eq {log : Log} {now : JsString} {seq : Nat} {atTime : Option JsString} {r : Restored}
    (h : restore sha256 now log seq atTime = .ok r) : r.restored = r.source.before := by
  unfold restore at h
  split at h
  · cases h
  · obtain ⟨result, -, heq⟩ := bind_ok h
    cases heq
    rfl

/-- **A restoring can be restored**, in every log that was reached with room: each entry gives back the values before it, and the
entry for that gives back those after it, as far as they are not redacted. -/
theorem restored_again {number : JsString → JsNumber} {ops : List Op}
    (hroom : AllSteps HasRoom (step sha256 number) empty ops)
    (hcount : Countable (reached sha256 number ops).entries) {e : Entry} (he : e ∈ (reached sha256 number ops).entries)
    (now now' : JsString) (atTime atTime' : Option JsString) :
    ∃ r r', restore sha256 now (reached sha256 number ops) e.seq atTime = .ok r ∧ r.source = e ∧ r.restored = e.before ∧
      restore sha256 now' r.log r.entry.seq atTime' = .ok r' ∧ r'.source = r.entry ∧ r'.restored = redact 0 e.after := by
  have hascend := (sound_of_room sha256 number hroom).increasing
  generalize reached sha256 number ops = log at *
  have hfound : (log.entries.find? fun x => x.seq = e.seq) = some e := by
    have hsome : (log.entries.find? fun x => x.seq = e.seq).isSome = true := by
      rw [List.find?_isSome]
      exact ⟨e, he, decide_eq_true rfl⟩
    obtain ⟨x, hx⟩ := Option.isSome_iff_exists.mp hsome
    have hnodup : (log.entries.map Entry.seq).Nodup := hascend.imp Nat.ne_of_lt
    have hseq : x.seq = e.seq := by simpa using List.find?_some hx
    rw [hx, List.inj_on_of_nodup_map hnodup (List.mem_of_find?_eq_some hx) he hseq]
  obtain ⟨r, hr, hsource, hbefore, -⟩ := restore_found sha256 hfound now atTime
  have hagain := restored_found sha256 hascend hcount hfound now atTime hr
  obtain ⟨r', hr', hsource', -⟩ := restore_found sha256 hagain now' atTime'
  refine ⟨r, r', hr, hsource, ?_, hr', hsource', ?_⟩
  · rw [restored_eq sha256 hr, hsource]
  · rw [restored_eq sha256 hr', hsource', hbefore]

theorem restored_again_theme :
    ∃ r r', restore shortDigest midnight (reached shortDigest (fun _ => .nan) [.record midnight themeChange]) 1 none = .ok r ∧
      r.source = newEntry shortDigest midnight [] themeChange ∧ r.restored = .str (js "light") ∧
      restore shortDigest midnight r.log r.entry.seq none = .ok r' ∧ r'.source = r.entry ∧
      r'.restored = redact 0 (redact 0 (.str (js "dark"))) := by
  have hroom : AllSteps HasRoom (step shortDigest fun _ => .nan) empty [.record midnight themeChange] :=
    ⟨⟨by unfold Countable; decide, fun _ => by decide⟩, trivial⟩
  exact restored_again shortDigest (e := newEntry shortDigest midnight [] themeChange) hroom (by unfold Countable; decide)
    (List.mem_singleton_self _) midnight midnight none none

/-- A log of one change, and its entry. -/
def logOf (c : Change) : Log := reached shortDigest (fun _ => .nan) [.record midnight c]

def entryOf (c : Change) : Entry := newEntry shortDigest midnight [] c

theorem entryOf_after (c : Change) : (entryOf c).after = redact 0 c.after := rfl

theorem swapped_theme : ∃ r, restore shortDigest midnight (logOf themeChange) (entryOf themeChange).seq none = .ok r ∧
    r.source = entryOf themeChange ∧
    (Swapped shortDigest (entryOf themeChange) r ↔ Settled 0 (entryOf themeChange).before ∧
      Settled 0 (entryOf themeChange).after) := by
  have hfound : ((logOf themeChange).entries.find? fun x => x.seq = (entryOf themeChange).seq) =
    some (entryOf themeChange) := rfl
  exact swapped_iff shortDigest hfound midnight none

/-- A change to a text of 8300 characters. -/
def longChange : Change := { themeChange with after := .str (List.replicate 8300 0x61) }

/-- It is cut short when it is recorded, and once more when it is restored. -/
theorem cut_twice : ∃ r, restore shortDigest midnight (logOf longChange) (entryOf longChange).seq none = .ok r ∧
    r.source = entryOf longChange ∧ r.entry.before ≠ (entryOf longChange).after ∧
      ¬ Swapped shortDigest (entryOf longChange) r := by
  have hfound : ((logOf longChange).entries.find? fun x => x.seq = (entryOf longChange).seq) =
    some (entryOf longChange) := rfl
  obtain ⟨r, hr, hsource, hbefore, -⟩ := restore_found shortDigest hfound midnight none
  have hafter : (entryOf longChange).after = .str (List.replicate 8192 0x61 ++ restNote 108) := by
    have hlong : longChange.after = .str (List.replicate 8300 0x61) := rfl
    rw [entryOf_after, hlong]
    have hmin : min maxValueBytes 8300 = 8192 := by decide
    have hrest : 8300 - maxValueBytes = 108 := by decide
    rw [redact_str (Nat.zero_le 8), List.length_replicate, if_pos (by decide), List.take_replicate, hmin, hrest]
  have hne : r.entry.before ≠ (entryOf longChange).after := by
    rw [hbefore, hafter]
    intro h
    rw [redact_str (Nat.zero_le 8), redact_str_eq_iff, List.length_append, List.length_replicate] at h
    rcases h with h | h
    · exact absurd h (by decide)
    · have hdrop : (List.replicate 8192 (0x61 : UInt16) ++ restNote 108).drop maxValueBytes = restNote 108 :=
        List.drop_left' List.length_replicate
      exact absurd (hdrop.symm.trans h) (by decide)
  exact ⟨r, hr, hsource, hne, fun h => hne h.before⟩

end History
end MaterialOpenWebui
