import MaterialOpenWebui.History.Runs

/-!
# `History.Undo` — restoring a setting from the history page (`app/js/pages/history.js`, `app/js/state.js`)

`patchSettings` changes settings and has the change recorded, with the values before and after. The history page has a button
for each entry, which restores the value: it appends what `restore` returns, and that is all. So the setting is what it was only
if it was so already.

The calls are made one after another: `History.RecordChange` has those that overlap.
-/

namespace MaterialOpenWebui
namespace History
open Js Run

/-! ## Settings -/

/-- `state.settings` and `state.history`. -/
structure Live where
  settings : List (JsString × JsValue)
  history : Option Log

/-- `state.settings[key]` -/
def Live.setting (s : Live) (key : JsString) : JsValue := (JsValue.obj s.settings).get key

/-- The entries of the log that the page shows. -/
def Live.log (s : Live) : Log := s.history.getD empty

variable (sha256 : ByteArray → Vector UInt8 32)

/-- The object that collects a value for each key: assigning `__proto__` adds no property. -/
def collected (value : JsString → JsValue) (keys : List JsString) : JsValue :=
  .obj (fromEntries ((keys.filter (· ≠ js "__proto__")).map fun key => (key, value key)))

def settingChange (s : Live) (patch : List (JsString × JsValue)) : Change where
  action := js "setting"
  target := some (JsValue.joinWith (js ", ") (patch.map Prod.fst))
  before := collected s.setting (patch.map Prod.fst)
  after := collected (JsValue.obj patch).get (patch.map Prod.fst)
  atTime := none
  label := none

/-- `patchSettings`, and the recording it starts. -/
def patchSettings (now : JsString) (s : Live) (patch : List (JsString × JsValue)) : Live where
  settings := fromEntries (s.settings ++ patch)
  history :=
    match record sha256 now s.log (settingChange s patch) with
    | .ok r => some r.log
    | .error _ => s.history

/-! ## The page -/

/-- The button of an entry. -/
def restoreThis (now : JsString) (s : Live) (e : Entry) : Live :=
  match restore sha256 now s.log e.seq none with
  | .ok result => { s with history := some result.log }
  | .error _ => s

/-! ## The law -/

def keysOf : JsValue → List JsString
  | .obj ps => ps.map Prod.fst
  | _ => []

/-- The settings that an entry names. -/
def named (e : Entry) : List JsString := keysOf e.before ++ keysOf e.after

/-- What undoing a change is: the settings it names are what they were before it, the others what they are, and one entry
more says so. -/
structure Undone (s s' : Live) (e : Entry) : Prop where
  restored : ∀ key ∈ named e, s'.setting key = e.before.get key
  others : ∀ key ∉ named e, s'.setting key = s.setting key
  appended : ∃ r n, s'.log.entries = (s.log.entries ++ [r]).drop n ∧ n ≤ s.log.entries.length ∧ r.action = js "restore" ∧
    r.label = (js "Restored the value from entry " ++ natText e.seq).take maxLabelLength

/-- What is recorded goes to the end; only what is older is dropped. -/
theorem record_appends (now : JsString) (log : Log) {c : Change} (hc : c.action ≠ []) :
    ∃ r, record sha256 now log c = .ok r ∧ r.entry = newEntry sha256 now log.entries c ∧
      r.log.entries = (log.entries ++ [r.entry]).drop r.dropped ∧ r.dropped ≤ log.entries.length := by
  by_cases hroom : log.entries.length < maxEntries
  · exact ⟨_, record_of_room sha256 hc hroom, rfl, rfl, Nat.zero_le _⟩
  · obtain ⟨dropped, hdropped⟩ : ∃ n, n = (log.entries ++ [newEntry sha256 now log.entries c]).length - maxEntries := ⟨_, rfl⟩
    have hfull : (log.entries ++ [newEntry sha256 now log.entries c]).length > maxEntries := by
      rw [List.length_append, List.length_singleton]
      omega
    have hkept : dropped ≤ log.entries.length := by
      -- at least one entry is kept
      have hpos : 0 < maxEntries := by decide
      rw [hdropped, List.length_append, List.length_singleton]
      omega
    have hrecord : record sha256 now log c = .ok ⟨⟨(log.entries ++ [newEntry sha256 now log.entries c]).drop dropped,
        some (log.truncated.getD 0 + dropped)⟩, newEntry sha256 now log.entries c, dropped⟩ := by
      simp only [record, if_neg hc, if_pos hfull, hdropped]
    exact ⟨_, hrecord, rfl, rfl, hkept⟩

/-- **The button.** The settings stay, and one entry is appended. -/
theorem restoreThis_spec (now : JsString) {s : Live} {e : Entry} (he : e ∈ s.log.entries) :
    (restoreThis sha256 now s e).settings = s.settings ∧
      ∃ r n, (restoreThis sha256 now s e).log.entries = (s.log.entries ++ [r]).drop n ∧ n ≤ s.log.entries.length ∧
        r.action = js "restore" ∧ r.label = (js "Restored the value from entry " ++ natText e.seq).take maxLabelLength := by
  have hsome : (s.log.entries.find? fun e' => e'.seq = e.seq).isSome = true := by
    rw [List.find?_isSome]
    exact ⟨e, he, decide_eq_true rfl⟩
  obtain ⟨target, hfind⟩ := Option.isSome_iff_exists.mp hsome
  have haction : js "restore" ≠ [] := by decide
  obtain ⟨r, hr, hentry, hlog, hdropped⟩ := record_appends sha256 now s.log (c :=
    { action := js "restore"
      target := some (target.action ++ (if target.target = [] then [] else js " · " ++ target.target))
      before := target.after
      after := target.before
      atTime := none
      label := some (js "Restored the value from entry " ++ natText e.seq) }) haction
  have hrestore : restore sha256 now s.log e.seq none =
      .ok { toRecorded := r, restored := target.before, source := target } := by
    rw [restore, hfind]
    simp only [hr]
    rfl
  have hthis : restoreThis sha256 now s e = { s with history := some r.log } := by
    rw [restoreThis, hrestore]
  rw [hthis]
  refine ⟨rfl, r.entry, r.dropped, hlog, hdropped, ?_, ?_⟩
  · rw [hentry]
    rfl
  · rw [hentry]
    rfl

/-- **The law of undoing.** Restoring undoes a change exactly if there is nothing to undo. -/
theorem undone_iff (now : JsString) {s : Live} {e : Entry} (he : e ∈ s.log.entries) :
    Undone s (restoreThis sha256 now s e) e ↔ ∀ key ∈ named e, s.setting key = e.before.get key := by
  obtain ⟨hsettings, happended⟩ := restoreThis_spec sha256 now he
  have hsame : ∀ key, (restoreThis sha256 now s e).setting key = s.setting key := by
    intro key
    rw [Live.setting, hsettings, Live.setting]
  constructor
  · intro h key hkey
    rw [← hsame]
    exact h.restored key hkey
  · intro h
    refine ⟨fun key hkey => ?_, fun key _ => hsame key, happended⟩
    rw [hsame, h key hkey]

/-- A fresh application whose theme has been changed. -/
def themed : Live :=
  patchSettings shortDigest midnight ⟨[(js "theme", .str (js "system"))], none⟩ [(js "theme", .str (js "dark"))]

def darkEntry : Entry := newEntry shortDigest midnight []
  (settingChange ⟨[(js "theme", .str (js "system"))], none⟩ [(js "theme", .str (js "dark"))])

theorem themed_log : themed.log.entries = [darkEntry] := rfl

theorem undone_iff_of_theme : Undone themed (restoreThis shortDigest midnight themed darkEntry) darkEntry ↔
    ∀ key ∈ named darkEntry, themed.setting key = darkEntry.before.get key :=
  undone_iff shortDigest midnight (by rw [themed_log]; exact List.mem_singleton_self _)

/-- The theme stays dark. -/
theorem not_undone_theme : ∃ e ∈ themed.log.entries, e.action = js "setting" ∧ js "theme" ∈ named e ∧
    (restoreThis shortDigest midnight themed e).setting (js "theme") = .str (js "dark") ∧
    e.before.get (js "theme") = .str (js "system") ∧ ¬ Undone themed (restoreThis shortDigest midnight themed e) e := by
  have hmem : darkEntry ∈ themed.log.entries := by
    rw [themed_log]
    exact List.mem_singleton_self _
  have hsettings := (restoreThis_spec shortDigest midnight hmem).1
  have hnow : (restoreThis shortDigest midnight themed darkEntry).setting (js "theme") = .str (js "dark") := by
    rw [Live.setting, hsettings]
    rfl
  have hbefore : darkEntry.before.get (js "theme") = .str (js "system") := rfl
  have hnamed : js "theme" ∈ named darkEntry := by decide
  refine ⟨darkEntry, hmem, rfl, hnamed, hnow, hbefore, fun h => ?_⟩
  have heq := h.restored _ hnamed
  rw [hnow, hbefore] at heq
  exact absurd (JsValue.str.inj heq) (by decide)

end History
end MaterialOpenWebui
