import Mathlib.Logic.Function.Basic
import MaterialOpenWebui.Js.JsonRoundTrip
import MaterialOpenWebui.Lib.Run
import MaterialOpenWebui.Tables.Delimited

/-!
# `Site.Store` — the state of a visitor (`docs/assets/js/store.js`)

The documentation site keeps its sections in the browser, and a log of what changed. An entry has the section as it was before
and after, less what the credentials in it are; `restore` writes what the entry has back into the section.

The ids and times of entries, and which writes the browser accepts, are given. Objects have the prototype they were made with.
-/

namespace MaterialOpenWebui
namespace Site
open Js JsValue Run Tables

/-! ## Sections -/

inductive Section where
  | settings | tabs | activeTab | tabModel | locks | totp | tickets | notifications | appearance
deriving DecidableEq

namespace Section

def all : List Section := [settings, tabs, activeTab, tabModel, locks, totp, tickets, notifications, appearance]

def key : Section → JsString
  | settings => js "settings"
  | tabs => js "tabs"
  | activeTab => js "activeTab"
  | tabModel => js "tabModel"
  | locks => js "locks"
  | totp => js "totp"
  | tickets => js "tickets"
  | notifications => js "notifications"
  | appearance => js "appearance"

/-- The section that a value names. -/
def named (v : JsValue) : Option Section := all.find? fun k => v.isStr k.key

@[simp] theorem named_key (k : Section) : named (.str k.key) = some k := by
  cases k <;> rfl

end Section

def object (ps : List (String × JsValue)) : JsValue := .obj (ps.map fun p => (js p.1, p.2))

def text (s : String) : JsValue := .str (js s)

def nat (n : Nat) : JsValue := .num (.ofNat n)

def defaultTab (id page : String) (pinned : Bool) : JsValue :=
  object [("id", text id), ("page", text page), ("pinned", .bool pinned)]

def DEFAULTS : Section → JsValue
  | .settings => object [
      ("theme", text "system"),
      ("language", text "English"),
      ("funnyEn", nat 2),
      ("funnyZh", nat 2),
      ("emojiDialogs", .bool false),
      ("density", nat 0),
      ("scale", nat 1),
      ("radiusScale", nat 1),
      ("seed", text "#6750A4"),
      ("appName", text ""),
      ("narrator", object [("on", .bool false), ("voiceEn", text ""), ("voiceZh", text ""), ("rate", nat 1), ("pitch", nat 1),
        ("lang", text "English")]),
      ("school", object [("on", .bool false), ("name", text "School mode"), ("pin", text "")]),
      ("logo", object [("preset", text "chat"), ("custom", .null), ("fit", text "cover"), ("bg", text "var(--p)")]),
      ("schedules", .arr []),
      ("vocab", .null),
      ("reducedMotion", .bool false),
      ("paletteSize", text "card")]
  | .tabs => .arr [defaultTab "t-home" "home" true, defaultTab "t-features" "features" false,
    defaultTab "t-docs" "docs" false,
      defaultTab "t-changelog" "changelog" false, defaultTab "t-settings" "settings" false]
  | .activeTab => text "t-home"
  | .tabModel => .null
  | .locks => object []
  | .totp => .arr []
  | .tickets => .arr []
  | .notifications => .arr []
  | .appearance => object []

def clone : JsValue → JsValue
  | .undefined => .undefined
  | v => jsonCopy v

/-- Whether copying what a plain object inherits under a name throws, merged with `override`: a function has no JSON text. -/
def inheritedFails (name : JsString) (override : JsValue) : Bool :=
  if name = js "__proto__" then
    (ownProps override).any fun p => p.1 ∈ objectPrototype ∧ p.1 ≠ js "__proto__" ∧ p.2.isNullish
  else decide (name ∈ objectPrototype) && override.isNullish

/-- `none` where it throws. Assigning `__proto__` adds no property. -/
def deepMerge (base override : JsValue) : Option JsValue :=
  if override.isNullish then some (clone base)
  else match base with
  | .obj ps =>
    let assign (out : List (JsString × JsValue)) (p : JsString × JsValue) : Option (List (JsString × JsValue)) :=
      match _h : ps.lookup p.1 with
      | some v => (deepMerge v p.2).map (setProp out p.1)
      | none =>
        if inheritedFails p.1 p.2 then none
        else some (if p.1 = js "__proto__" then out else setProp out p.1 (clone p.2))
    ((ownProps override).foldlM assign (fromEntries (copyProps ps))).map fun out => .obj (ownOrder out)
  | _ => some (clone override)
termination_by sizeOf base
decreasing_by
  have hmem := List.sizeOf_lt_of_mem (mem_of_lookup _h)
  simp only [Prod.mk.sizeOf_spec] at hmem
  simp only [JsValue.obj.sizeOf_spec]
  omega

/-- The state of a page that is opened; `none` where it does not get that far. -/
def load (stored : Section → JsValue) : Option (Section → JsValue) :=
  if Section.all.all fun k => (deepMerge (DEFAULTS k) (stored k)).isSome then
    some fun k => (deepMerge (DEFAULTS k) (stored k)).getD .undefined
  else none

/-! ## The log -/

def omitted : JsValue := text "[omitted]"

def lower (u : UInt16) : UInt16 := if 0x41 ≤ u ∧ u ≤ 0x5a then u + 0x20 else u

/-- `/^(pin|secret|password|hash|credential|terms|vocab)$/i` -/
def isCredential (name : JsString) : Bool :=
  name.map lower ∈ ["pin", "secret", "password", "hash", "credential", "terms", "vocab"].map js

mutual

def walk : JsValue → JsValue
  | .arr vs => .arr (walkElems vs)
  | .obj ps => .obj (walkProps ps)
  | .undefined => .undefined
  | .null => .null
  | .bool b => .bool b
  | .num n => .num n
  | .str s => .str s

def walkElems : List JsValue → List JsValue
  | [] => []
  | v :: vs => walk v :: walkElems vs

def walkProps : List (JsString × JsValue) → List (JsString × JsValue)
  | [] => []
  | (k, v) :: ps => (k, if isCredential k then omitted else walk v) :: walkProps ps

end

def redact (detail : JsValue) : JsValue := walk (jsonCopy (detail.orElse (.obj [])))

structure Entry where
  id : JsString
  t : JsNumber
  action : JsString
  label : JsString
  detail : JsValue

def HISTORY_CAP : Nat := 400

structure Store where
  state : Section → JsValue
  /-- What a page that is opened reads. -/
  stored : Section → JsValue
  history : List Entry

/-- What is not the store's: the id and the time of the entry, and which of its two writes the browser accepts. -/
structure Call where
  id : JsString
  t : JsNumber
  persisted : Bool
  logged : Bool

def newEntry (call : Call) (action label : JsString) (detail : JsValue) : Entry :=
  { id := call.id, t := call.t, action, label, detail := redact detail }

/-- `record`, of an entry that is made. -/
def Store.record (s : Store) (call : Call) (e : Entry) : Store :=
  if call.logged then { s with history := (e :: s.history).take HISTORY_CAP } else s

/-! ## Operations -/

/-- `state[key] = value`, and the write of it. -/
def Store.assign (s : Store) (call : Call) (key : Section) (value : JsValue) : Store :=
  { s with
    state := Function.update s.state key value
    stored := if call.persisted then Function.update s.stored key (clone value) else s.stored }

structure Options where
  action : JsString
  label : JsString
  record : Bool

/-- The entry of `set`. -/
def Store.changeEntry (s : Store) (call : Call) (key : Section) (value : JsValue) (options : Options) : Entry :=
  let before := clone (s.state key)
  let after := clone value
  if call.persisted then
    newEntry call (if options.action = [] then js "settings changed" else options.action)
      (if options.label = [] then key.key else options.label)
      (object [("key", .str key.key), ("before", before), ("after", after)])
  else
    newEntry call (js "not saved")
      (js "Could not save " ++ key.key ++
        js ": this browser refused the write, so the change applies now but will be lost on reload")
      (object [("key", .str key.key), ("before", before), ("after", after), ("persisted", .bool false)])

def Store.set (s : Store) (call : Call) (key : Section) (value : JsValue) (options : Options) : Store :=
  if options.record then (s.assign call key value).record call (s.changeEntry call key value options)
  else s.assign call key value

def Store.patchSettings (s : Store) (call : Call) (patch : JsValue) (options : Options) : Store :=
  match deepMerge (s.state .settings) patch with
  | some next => s.set call .settings next options
  | none => s

/-- What `restore` takes from an entry, where it does not refuse it. -/
def restorable (e : Entry) : Option (Section × JsValue) :=
  if (e.detail.get (js "key")).truthy && !(e.detail.get (js "before")).isUndefined then
    (Section.named (e.detail.get (js "key"))).map (·, e.detail.get (js "before"))
  else none

def Store.accepted (s : Store) (entryId : JsString) : Option (Entry × Section × JsValue) :=
  (s.history.find? fun e => e.id = entryId).bind fun e => (restorable e).map (e, ·)

def restoreEntry (call : Call) (key : Section) (e : Entry) : Entry :=
  newEntry call (if call.persisted then js "restored" else js "not saved")
    (if call.persisted then js "Restored " ++ key.key ++ js " to its state before \"" ++ e.label ++ js "\""
      else js "Restored " ++ key.key ++
        js " in this session only: the browser refused the write, so it will be lost on reload")
    (object [("key", .str key.key), ("persisted", .bool call.persisted)])

def Store.restore (s : Store) (call : Call) (entryId : JsString) : Store :=
  match s.accepted entryId with
  | some (e, key, before) => (s.assign call key before).record call (restoreEntry call key e)
  | none => s

def Store.clearAll (s : Store) : Store := { s with stored := fun _ => .undefined, history := [] }

/-- What happens in a browser: calls of the store, and that the page is opened again. -/
inductive Op where
  | set (call : Call) (key : Section) (value : JsValue) (options : Options)
  | patchSettings (call : Call) (patch : JsValue) (options : Options)
  | restore (call : Call) (entryId : JsString)
  | clearAll
  | reload

def step (s : Store) : Op → Store
  | .set call key value options => s.set call key value options
  | .patchSettings call patch options => s.patchSettings call patch options
  | .restore call entryId => s.restore call entryId
  | .clearAll => s.clearAll
  | .reload =>
    match load s.stored with
    | some state => { s with state }
    | none => s

/-- The first visit. -/
def start : Store := { state := fun k => clone (DEFAULTS k), stored := fun _ => .undefined, history := [] }

/-! ## The changes that entries record -/

/-- An entry, and what its section was just before. -/
structure Noted where
  entry : Entry
  was : JsValue

def Store.notedSet (s : Store) (call : Call) (key : Section) (value : JsValue) (options : Options) : Option Noted :=
  if options.record && call.logged then some ⟨s.changeEntry call key value options, s.state key⟩ else none

/-- What a step adds to the log. -/
def noted (s : Store) : Op → Option Noted
  | .set call key value options => s.notedSet call key value options
  | .patchSettings call patch options =>
    (deepMerge (s.state .settings) patch).bind fun next => s.notedSet call .settings next options
  | .restore call entryId =>
    (s.accepted entryId).bind fun (e, key, _) => if call.logged then some ⟨restoreEntry call key e, s.state key⟩ else none
  | .clearAll => none
  | .reload => none

/-- A store, and the change of each entry in its log. -/
structure Watched where
  store : Store
  notes : List Noted

def Watched.next (w : Watched) (op : Op) : Watched where
  store := step w.store op
  notes :=
    match op, noted w.store op with
    | .clearAll, _ => []
    | _, some n => (n :: w.notes).take HISTORY_CAP
    | _, none => w.notes

/-- The entry that `restore` takes, the section it names and the value it has. -/
def Watched.accepted (w : Watched) (entryId : JsString) : Option (Noted × Section × JsValue) :=
  (w.notes.find? fun n => n.entry.id = entryId).bind fun n => (restorable n.entry).map (n, ·)

/-! ## Redaction -/

/-- JSON data without a credential: what has the name of one says only that it is left out. -/
inductive Plain : JsValue → Prop where
  | null : Plain .null
  | bool (b : Bool) : Plain (.bool b)
  | num {d : Decimal} (h : d.digits = 0 → d.neg = false) : Plain (.num (.finite d))
  | str (s : JsString) : Plain (.str s)
  | arr {vs : List JsValue} (h : ∀ v ∈ vs, Plain v) : Plain (.arr vs)
  | obj {ps : List (JsString × JsValue)} (hk : (ps.map Prod.fst).Nodup) (ho : InOrder ps)
      (hc : ∀ p ∈ ps, isCredential p.1 = true → p.2 = omitted) (h : ∀ p ∈ ps, Plain p.2) : Plain (.obj ps)

theorem walkElems_eq (vs : List JsValue) : walkElems vs = vs.map walk := by
  induction vs with
  | nil => rfl
  | cons v vs ih => rw [walkElems, ih, List.map_cons]

/-- What becomes of a property. -/
def walkProp (p : JsString × JsValue) : JsString × JsValue := (p.1, if isCredential p.1 then omitted else walk p.2)

theorem walkProps_eq (ps : List (JsString × JsValue)) : walkProps ps = ps.map walkProp := by
  induction ps with
  | nil => rfl
  | cons p ps ih => rw [walkProps, ih, List.map_cons, walkProp]

theorem keys_walkProps (ps : List (JsString × JsValue)) : (walkProps ps).map Prod.fst = ps.map Prod.fst := by
  rw [walkProps_eq, List.map_map]
  rfl

theorem get_walk (v : JsValue) {name : JsString} (h : isCredential name = false) : (walk v).get name = walk (v.get name) := by
  cases v with
  | obj ps =>
    have hlookup : ((walkProps ps).lookup name).getD .undefined = walk ((ps.lookup name).getD .undefined) := by
      induction ps with
      | nil => rfl
      | cons p ps ih =>
        obtain ⟨k, v⟩ := p
        unfold walkProps
        rw [lookup_cons_eq, lookup_cons_eq]
        by_cases hk : k = name
        · simp [hk, h]
        · rw [if_neg hk, if_neg hk, ih]
    exact hlookup
  | _ => rfl

theorem unsignZero_eq_iff {d : Decimal} : d.unsignZero = d ↔ (d.digits = 0 → d.neg = false) := by
  obtain ⟨neg, digits, exp, normal⟩ := d
  unfold Decimal.unsignZero
  show (if digits = 0 then _ else _) = _ ↔ (digits = 0 → neg = false)
  by_cases h : digits = 0
  · have hexp : exp = 0 := by rwa [if_pos h] at normal
    simp [h, hexp, eq_comm]
  · simp [h]

theorem Plain.ne_undefined {v : JsValue} (h : Plain v) : v ≠ .undefined := by
  rintro rfl
  cases h

/-- **What survives redaction.** Only plain data is the same after it. -/
theorem walk_jsonCopy_eq_iff (v : JsValue) : walk (jsonCopy v) = v ↔ Plain v := by
  induction v with
  | undefined => exact iff_of_false (fun h => by cases h) (fun h => by cases h)
  | null => exact iff_of_true rfl .null
  | bool b => exact iff_of_true rfl (.bool b)
  | str s => exact iff_of_true rfl (.str s)
  | num n =>
    cases n with
    | finite d =>
      show JsValue.num (.finite d.unsignZero) = _ ↔ _
      rw [JsValue.num.injEq, JsNumber.finite.injEq, unsignZero_eq_iff]
      refine ⟨.num, fun h => ?_⟩
      cases h with
      | num h => exact h
    | _ => exact iff_of_false (fun h => by cases h) (fun h => by cases h)
  | arr vs ih =>
    have hmap : walk (jsonCopy (.arr vs)) = .arr (vs.map fun v => walk (jsonCopy v)) := by
      rw [jsonCopy, walk, copyElems_eq, walkElems_eq, List.map_map]
      rfl
    rw [hmap, JsValue.arr.injEq, map_eq_self_iff]
    constructor
    · exact fun h => .arr fun v hv => (ih v hv).mp (h v hv)
    · intro h v hv
      cases h with
      | arr h => exact (ih v hv).mpr (h v hv)
  | obj ps ih =>
    constructor
    · intro h
      have hps : (fromEntries (copyProps ps)).map walkProp = ps := by
        rw [jsonCopy, walk, walkProps_eq] at h
        exact JsValue.obj.inj h
      have hk : (ps.map Prod.fst).Nodup := by
        rw [← hps, ← walkProps_eq, keys_walkProps]
        exact nodup_fromEntries _
      have ho : InOrder ps := hps ▸ List.pairwise_map.mpr (inOrder_ownOrder _)
      rw [fromEntries_of_nodup (hk.sublist (keys_copyProps ps)), (inOrder_copyProps ho).ownOrder_eq, copyProps_eq,
        List.map_map] at hps
      rw [filter_eq_of_map hps, map_eq_self_iff] at hps
      have hvalue : ∀ p ∈ ps, (if isCredential p.1 then omitted else walk (jsonCopy p.2)) = p.2 := fun p hp =>
        congrArg Prod.snd (hps p hp)
      refine .obj hk ho (fun p hp hname => ?_) (fun p hp => ?_)
      · rw [← hvalue p hp, if_pos hname]
      · by_cases hname : isCredential p.1 = true
        · rw [← hvalue p hp, if_pos hname]
          exact .str _
        · have hcopy := hvalue p hp
          rw [if_neg hname] at hcopy
          exact (ih p hp).mp hcopy
    · intro h
      cases h with
      | obj hk ho hc h =>
        rw [jsonCopy_obj hk ho fun p hp => (h p hp).ne_undefined, walk, walkProps_eq, List.map_map,
          JsValue.obj.injEq, map_eq_self_iff]
        intro p hp
        show (p.1, if isCredential p.1 then omitted else walk (jsonCopy p.2)) = p
        by_cases hname : isCredential p.1 = true
        · rw [if_pos hname, ← hc p hp hname]
        · rw [if_neg hname, (ih p hp).mpr (h p hp)]

/-! ## What entries have -/

theorem clone_of_ne {v : JsValue} (h : v ≠ .undefined) : clone v = jsonCopy v := by
  cases v <;> first | rfl | exact absurd rfl h

theorem clone_clone (v : JsValue) : clone (clone v) = clone v := by
  by_cases h : v = .undefined
  · rw [h]
    rfl
  · rw [clone_of_ne h, clone_of_ne (jsonCopy_ne_undefined v), jsonCopy_jsonCopy]

theorem get_redact {ps : List (JsString × JsValue)} (hk : (ps.map Prod.fst).Nodup) {name : JsString}
    (h : isCredential name = false) : (redact (.obj ps)).get name = walk (clone ((JsValue.obj ps).get name)) := by
  show (walk (jsonCopy (.obj ps))).get name = _
  rw [get_walk _ h, get_jsonCopy hk]
  congr 1

/-- What restoring an entry of `set` would write. -/
theorem restorable_changeEntry (s : Store) (call : Call) (key : Section) (value : JsValue) (options : Options) :
    restorable (s.changeEntry call key value options) =
      if (s.state key).isUndefined then none else some (key, walk (jsonCopy (s.state key))) := by
  have hdetail : ∃ more, (s.changeEntry call key value options).detail =
      redact (.obj ((js "key", .str key.key) :: (js "before", clone (s.state key)) :: more)) ∧
      (((js "key", JsValue.str key.key) :: (js "before", clone (s.state key)) :: more).map Prod.fst).Nodup := by
    unfold Store.changeEntry
    split
    · exact ⟨[(js "after", clone value)], rfl, show [js "key", js "before", js "after"].Nodup by decide⟩
    · exact ⟨[(js "after", clone value), (js "persisted", .bool false)], rfl,
        show [js "key", js "before", js "after", js "persisted"].Nodup by decide⟩
  obtain ⟨more, hdetail, hk⟩ := hdetail
  have hkey : (s.changeEntry call key value options).detail.get (js "key") = .str key.key := by
    rw [hdetail, get_redact hk (by decide)]
    rfl
  have hbefore : (s.changeEntry call key value options).detail.get (js "before") = walk (clone (s.state key)) := by
    rw [hdetail, get_redact hk (by decide)]
    show walk (clone (clone _)) = _
    rw [clone_clone]
  have htruthy : (JsValue.str key.key).truthy = true := by
    cases key <;> rfl
  unfold restorable
  rw [hkey, hbefore, htruthy, Section.named_key]
  by_cases h : s.state key = .undefined
  · rw [h]
    rfl
  · have hdefined : (walk (jsonCopy (s.state key))).isUndefined = false := by
      have hne := jsonCopy_ne_undefined (s.state key)
      cases hcopy : jsonCopy (s.state key) <;> first | rfl | exact absurd hcopy hne
    rw [clone_of_ne h, hdefined, if_neg (isUndefined_iff.not.mpr h)]
    rfl

/-- An entry of `restore` has no value to restore. -/
theorem restorable_restoreEntry (call : Call) (key : Section) (e : Entry) : restorable (restoreEntry call key e) = none := by
  have hk : ([(js "key", JsValue.str key.key), (js "persisted", .bool call.persisted)].map Prod.fst).Nodup :=
    show [js "key", js "persisted"].Nodup by decide
  have hbefore : (restoreEntry call key e).detail.get (js "before") = .undefined := by
    show (redact (.obj [(js "key", .str key.key), (js "persisted", .bool call.persisted)])).get (js "before") = _
    rw [get_redact hk (by decide)]
    rfl
  unfold restorable
  rw [hbefore]
  simp [isUndefined]

/-! ## The log and the changes -/

structure Watched.Sound (w : Watched) : Prop where
  entries : w.store.history = w.notes.map Noted.entry
  values : ∀ n ∈ w.notes, ∀ key before, restorable n.entry = some (key, before) → before = walk (jsonCopy n.was)

theorem history_record (s : Store) (call : Call) (e : Entry) :
    (s.record call e).history = if call.logged then (e :: s.history).take HISTORY_CAP else s.history := by
  unfold Store.record
  split <;> rfl

theorem state_record (s : Store) (call : Call) (e : Entry) : (s.record call e).state = s.state := by
  unfold Store.record
  split <;> rfl

/-- What a step makes of the log. -/
def logAfter (history : List Entry) : Option Noted → List Entry
  | some n => (n.entry :: history).take HISTORY_CAP
  | none => history

theorem history_set (s : Store) (call : Call) (key : Section) (value : JsValue) (options : Options) :
    (s.set call key value options).history = logAfter s.history (s.notedSet call key value options) := by
  unfold Store.set Store.notedSet
  cases options.record with
  | false => rfl
  | true =>
    rw [if_pos rfl, history_record]
    cases call.logged <;> rfl

/-- **One step.** It adds what it notes, if anything; only clearing takes more away than the oldest. -/
theorem history_step (s : Store) {op : Op} (hop : op ≠ .clearAll) :
    (step s op).history = logAfter s.history (noted s op) := by
  cases op with
  | set call key value options => exact history_set s call key value options
  | patchSettings call patch options =>
    show (s.patchSettings call patch options).history =
      logAfter s.history ((deepMerge (s.state .settings) patch).bind fun next => s.notedSet call .settings next options)
    unfold Store.patchSettings
    cases deepMerge (s.state .settings) patch with
    | none => rfl
    | some next => exact history_set s call .settings next options
  | restore call entryId =>
    show (s.restore call entryId).history = logAfter s.history ((s.accepted entryId).bind fun (e, key, _) =>
      if call.logged then some ⟨restoreEntry call key e, s.state key⟩ else none)
    unfold Store.restore
    cases s.accepted entryId with
    | none => rfl
    | some a =>
      obtain ⟨e, key, before⟩ := a
      show ((s.assign call key before).record call (restoreEntry call key e)).history = _
      rw [history_record]
      cases call.logged <;> rfl
  | clearAll => exact absurd rfl hop
  | reload =>
    show (match load s.stored with | some state => { s with state } | none => s).history = _
    cases load s.stored <;> rfl

/-- A note has the section as it was, in its entry only redacted. -/
theorem value_of_noted {s : Store} {op : Op} {n : Noted} (h : noted s op = some n) {key : Section} {before : JsValue}
    (hr : restorable n.entry = some (key, before)) : before = walk (jsonCopy n.was) := by
  have hset : ∀ {call key' value options}, s.notedSet call key' value options = some n → before = walk (jsonCopy n.was) := by
    intro call key' value options hn
    obtain ⟨-, hentry⟩ := Option.ite_none_right_eq_some.mp hn
    cases hentry
    rw [restorable_changeEntry] at hr
    obtain ⟨-, heq⟩ := Option.ite_none_left_eq_some.mp hr
    cases heq
    rfl
  cases op with
  | set call key' value options => exact hset h
  | patchSettings call patch options =>
    obtain ⟨next, -, hn⟩ := Option.bind_eq_some_iff.mp h
    exact hset hn
  | restore call entryId =>
    obtain ⟨⟨e, key', before'⟩, -, hn⟩ := Option.bind_eq_some_iff.mp h
    obtain ⟨-, hentry⟩ := Option.ite_none_right_eq_some.mp hn
    cases hentry
    rw [restorable_restoreEntry] at hr
    cases hr
  | clearAll => cases h
  | reload => cases h

theorem sound_next {w : Watched} (h : w.Sound) (op : Op) : (w.next op).Sound := by
  by_cases hop : op = .clearAll
  · subst hop
    exact ⟨rfl, fun n hn => absurd hn List.not_mem_nil⟩
  · have hnotes : (w.next op).notes =
        match noted w.store op with | some n => (n :: w.notes).take HISTORY_CAP | none => w.notes := by
      unfold Watched.next
      cases op <;> first | exact absurd rfl hop | (cases noted w.store _ <;> rfl)
    have hhistory : (w.next op).store.history = logAfter w.store.history (noted w.store op) := history_step w.store hop
    cases hnoted : noted w.store op with
    | none =>
      rw [hnoted] at hnotes hhistory
      refine ⟨by rw [hhistory, hnotes]; exact h.entries, ?_⟩
      rw [hnotes]
      exact h.values
    | some n =>
      rw [hnoted] at hnotes hhistory
      constructor
      · rw [hhistory, hnotes, List.map_take, List.map_cons, ← h.entries]
        rfl
      · intro m hm key before hr
        rw [hnotes] at hm
        rcases List.mem_cons.mp (List.mem_of_mem_take hm) with rfl | hm
        · exact value_of_noted hnoted hr
        · exact h.values m hm key before hr

theorem sound_start : Watched.Sound ⟨start, []⟩ := ⟨rfl, fun _ hn => absurd hn List.not_mem_nil⟩

/-- **Every run.** -/
theorem sound_run {w : Watched} (h : w.Sound) (ops : List Op) : (run Watched.next w ops).Sound := by
  induction ops generalizing w with
  | nil => exact h
  | cons op ops ih => exact ih (sound_next h op)

/-! ## The law -/

/-- What undoing a change is: the section is what it was before it, and the others what they are. -/
structure Undone (s s' : Store) (key : Section) (was : JsValue) : Prop where
  restored : s'.state key = was
  others : ∀ key' ≠ key, s'.state key' = s.state key'

theorem accepted_of_sound {w : Watched} (h : w.Sound) (entryId : JsString) :
    w.store.accepted entryId = (w.accepted entryId).map fun (n, key, before) => (n.entry, key, before) := by
  unfold Store.accepted Watched.accepted
  rw [h.entries, List.find?_map]
  show ((w.notes.find? fun n => n.entry.id = entryId).map Noted.entry).bind _ = _
  cases w.notes.find? fun n => n.entry.id = entryId with
  | none => rfl
  | some n =>
    show (restorable n.entry).map _ = ((restorable n.entry).map _).map _
    cases restorable n.entry <;> rfl

/-- **The law of undoing.** Restoring undoes a change exactly if the section was plain before it. -/
theorem takenBack_iff (ops : List Op) (call : Call) (entryId : JsString) {n : Noted} {key : Section} {before : JsValue}
    (haccepted : (run Watched.next ⟨start, []⟩ ops).accepted entryId = some (n, key, before)) :
    Undone (run Watched.next ⟨start, []⟩ ops).store
      ((run Watched.next ⟨start, []⟩ ops).store.restore call entryId) key n.was ↔
      Plain n.was := by
  have hsound := sound_run sound_start ops
  generalize run Watched.next ⟨start, []⟩ ops = w at haccepted hsound ⊢
  have hstate : (w.store.restore call entryId).state = Function.update w.store.state key before := by
    unfold Store.restore
    rw [accepted_of_sound hsound, haccepted]
    show ((w.store.assign call key before).record call (restoreEntry call key n.entry)).state = _
    rw [state_record]
    rfl
  have hbefore : before = walk (jsonCopy n.was) := by
    obtain ⟨m, hm, hr⟩ := Option.bind_eq_some_iff.mp haccepted
    obtain ⟨⟨key', before'⟩, hr, heq⟩ := Option.map_eq_some_iff.mp hr
    cases heq
    exact hsound.values n (List.mem_of_find?_eq_some hm) key before hr
  rw [← walk_jsonCopy_eq_iff, ← hbefore]
  constructor
  · intro h
    have hrestored := h.restored
    rwa [hstate, Function.update_self] at hrestored
  · intro h
    refine ⟨?_, fun key' hkey => ?_⟩
    · rw [hstate, Function.update_self, h]
    · rw [hstate, Function.update_of_ne hkey]

def callOf (id : String) (t : Nat) : Call := { id := js id, t := .ofNat t, persisted := true, logged := true }

def plainly : Options := { action := [], label := [], record := true }

theorem undone_tickets :
    Undone (run Watched.next ⟨start, []⟩ [.set (callOf "h1" 1) .tickets (.arr [text "one"]) plainly]).store
    ((run Watched.next ⟨start, []⟩ [.set (callOf "h1" 1) .tickets (.arr [text "one"]) plainly]).store.restore
      (callOf "h2" 2) (js "h1"))
    .tickets (.arr []) ↔ Plain (.arr []) := by
  have haccepted : (run Watched.next ⟨start, []⟩ [.set (callOf "h1" 1) .tickets (.arr [text "one"]) plainly]).accepted
      (js "h1") =
        some (⟨start.changeEntry (callOf "h1" 1) .tickets (.arr [text "one"]) plainly, .arr []⟩, .tickets, .arr []) := rfl
  exact takenBack_iff [.set (callOf "h1" 1) .tickets (.arr [text "one"]) plainly] (callOf "h2" 2) (js "h1") haccepted

def pinOf (settings : JsValue) : JsValue := (settings.get (js "school")).get (js "pin")

/-- School mode gets a pin, and then the theme is changed. -/
def themeChanged : Watched := run Watched.next ⟨start, []⟩ [
  .patchSettings (callOf "h1" 1) (object [("school", object [("on", .bool true), ("pin", text "4821")])]) plainly,
  .patchSettings (callOf "h2" 2) (object [("theme", text "dark")]) plainly]

/-- Restoring the theme takes the pin away. -/
theorem pin_lost : ∃ n before, themeChanged.accepted (js "h2") = some (n, .settings, before) ∧ pinOf n.was = text "4821" ∧
    pinOf ((themeChanged.store.restore (callOf "h3" 3) (js "h2")).state .settings) = omitted ∧
    ¬ Undone themeChanged.store (themeChanged.store.restore (callOf "h3" 3) (js "h2")) .settings n.was := by
  have hsome : ((themeChanged.accepted (js "h2")).any fun (n, key, _) =>
      decide (key = .settings) && (pinOf n.was).isStr (js "4821")) = true := by
    decide +kernel
  have hafter : (pinOf ((themeChanged.store.restore (callOf "h3" 3) (js "h2")).state .settings)).isStr
    (js "[omitted]") = true := by
    decide +kernel
  rw [isStr_iff] at hafter
  cases haccepted : themeChanged.accepted (js "h2") with
  | none =>
    rw [haccepted] at hsome
    cases hsome
  | some a =>
    obtain ⟨n, key, before⟩ := a
    rw [haccepted, Option.any_some, Bool.and_eq_true, decide_eq_true_eq, isStr_iff] at hsome
    obtain ⟨rfl, hpin⟩ := hsome
    refine ⟨n, before, rfl, hpin, hafter, fun h => ?_⟩
    rw [h.restored, hpin] at hafter
    exact absurd (JsValue.str.inj hafter) (by decide)

/-! ## Undoing a restore -/

/-- The restore of `key` adds an entry that is accepted, and restoring it leaves the section as it was before the first restore. -/
structure Redoable (s : Store) (call : Call) (entryId : JsString) (key : Section) : Prop where
  appended : call.logged = true
  accepted : ((s.restore call entryId).accepted call.id).isSome = true
  undone : ∀ call', ((s.restore call entryId).restore call' call.id).state key = s.state key

/-- **No restore can be undone**: its own entry comes first under its id, and has no value in it. -/
theorem not_redoable {s : Store} {call : Call} {entryId : JsString} {e : Entry} {key : Section} {before : JsValue}
    (haccepted : s.accepted entryId = some (e, key, before)) : ¬ Redoable s call entryId key := by
  intro h
  have hhistory : (s.restore call entryId).history = (restoreEntry call key e :: s.history).take HISTORY_CAP := by
    unfold Store.restore
    rw [haccepted]
    show ((s.assign call key before).record call (restoreEntry call key e)).history = _
    rw [history_record, if_pos h.appended]
    rfl
  have hfind : (s.restore call entryId).history.find? (fun e => e.id = call.id) = some (restoreEntry call key e) := by
    have hcap : HISTORY_CAP = 399 + 1 := rfl
    rw [hhistory, hcap, List.take_succ_cons]
    exact List.find?_cons_of_pos (decide_eq_true rfl)
  have hnone : (s.restore call entryId).accepted call.id = none := by
    unfold Store.accepted
    rw [hfind, Option.bind_some, restorable_restoreEntry]
    rfl
  have hsome := h.accepted
  rw [hnone] at hsome
  cases hsome

/-- A visitor has a ticket, and takes it back. -/
def ticketed : Watched := run Watched.next ⟨start, []⟩ [.set (callOf "h1" 1) .tickets (.arr [text "one"]) plainly]

theorem ticket_not_redoable : ¬ Redoable ticketed.store (callOf "h2" 2) (js "h1") .tickets := by
  have haccepted : ticketed.store.accepted (js "h1") =
      some (start.changeEntry (callOf "h1" 1) .tickets (.arr [text "one"]) plainly, .tickets, .arr []) := rfl
  exact not_redoable haccepted

/-- Once taken back the ticket stays away, whatever becomes of the entry that says so. -/
theorem ticket_gone : (∃ e, ticketed.store.accepted (js "h1") = some (e, .tickets, .arr [])) ∧
    ticketed.store.state .tickets = .arr [text "one"] ∧
    (∀ call', ((ticketed.store.restore (callOf "h2" 2) (js "h1")).restore call' (js "h2")).state .tickets = .arr []) ∧
    ¬ Redoable ticketed.store (callOf "h2" 2) (js "h1") .tickets := by
  have hbefore : ticketed.store.state .tickets = .arr [text "one"] := rfl
  have hafter : ∀ call', ((ticketed.store.restore (callOf "h2" 2) (js "h1")).restore call' (js "h2")).state .tickets =
    .arr [] :=
    fun _ => rfl
  refine ⟨⟨_, rfl⟩, hbefore, hafter, fun h => ?_⟩
  have heq := h.undone (callOf "h3" 3)
  rw [hbefore] at heq
  cases (hafter (callOf "h3" 3)).symm.trans heq

end Site
end MaterialOpenWebui
