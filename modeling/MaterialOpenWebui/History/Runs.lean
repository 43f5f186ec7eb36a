import MaterialOpenWebui.History.Chain

/-!
# `History.Runs` — logs reached from the empty one

Any sequence of `record`, `restore`, `label` and `prune`, one after another; a call that throws leaves the
log it was given. A step **has room** when the log it appends to is below the cap, and in a run whose steps
all have room every log reached is one that `verify` accepts. The cap is where it ends: the first record on
a full log drops the entry the next one hangs from.
-/

namespace MaterialOpenWebui
namespace History
open Js HashChain Run

/-- One call of the module, with the time it is made at. -/
inductive Op where
  | record (now : JsString) (c : Change)
  | restore (now : JsString) (seq : Nat) (atTime : Option JsString)
  | label (now : JsString) (seq : Nat) (text : JsString) (atTime : Option JsString)
  | prune (now : JsString) (before : JsString) (keepLabelled : Bool) (atTime : Option JsString)

variable (sha256 : ByteArray → Vector UInt8 32) (number : JsString → JsNumber)

/-- The log a call returns. -/
def apply (log : Log) : Op → Except JsString Log
  | .record now c => (record sha256 now log c).map Recorded.log
  | .restore now seq t => (restore sha256 now log seq t).map (fun r => r.log)
  | .label now seq text t => (label sha256 now log seq text t).map Recorded.log
  | .prune now before keep t => (prune sha256 number now log before keep t).map Pruned.log

/-- A caller keeps the log it has when the call throws. -/
def step (log : Log) (op : Op) : Log :=
  match apply sha256 number log op with
  | .ok log' => log'
  | .error _ => log

/-- The log reached from `empty()`. -/
def reached (ops : List Op) : Log := run (step sha256 number) empty ops

/-- `verify` accepts the log, its numbers ascend, and the cap is kept. -/
structure Upright (log : Log) : Prop where
  verified : Accepted sha256 log.toJs
  increasing : (log.entries.map Entry.seq).Pairwise (· < ·)
  capped : log.entries.length ≤ maxEntries

theorem Sound.upright {log : Log} (h : Sound sha256 log) : Upright sha256 log :=
  ⟨(accepted_toJs sha256 log).mpr h.linked, h.increasing, h.capped⟩

/-! ## Steps that have room -/

/-- The call appends an entry to the log it is given; any other call throws. -/
def Appends (log : Log) : Op → Prop
  | .record _ c => c.action ≠ []
  | .restore _ seq _ => ∃ e ∈ log.entries, e.seq = seq
  | .label _ seq _ _ => ∃ e ∈ log.entries, e.seq = seq
  | .prune .. => False

/-- An appending call finds the log below the cap, and no number has reached `2^53`. -/
def HasRoom (log : Log) (op : Op) : Prop :=
  Countable log.entries ∧ (Appends log op → log.entries.length < maxEntries)

theorem map_ok {ε β γ : Type} {x : Except ε β} {f : β → γ} {c : γ} (h : x.map f = .ok c) :
    ∃ b, x = .ok b ∧ f b = c := by
  cases x with
  | error e => cases h
  | ok b => exact ⟨b, rfl, Except.ok.inj h⟩

/-- A record that succeeds names an action. -/
theorem record_action {now : JsString} {log : Log} {c : Change} {r : Recorded}
    (h : record sha256 now log c = .ok r) : c.action ≠ [] := by
  intro hc
  simp [record, hc] at h

theorem mem_of_find {es : List Entry} {seq : Nat} {e : Entry}
    (h : es.find? (fun e => e.seq = seq) = some e) : ∃ e ∈ es, e.seq = seq :=
  ⟨e, List.mem_of_find?_eq_some h, by simpa using List.find?_some h⟩

/-- A restore that succeeds is one `record`, about an entry that is there. -/
theorem restore_record {now : JsString} {log : Log} {seq : Nat} {t : Option JsString} {r : Restored}
    (h : restore sha256 now log seq t = .ok r) :
    (∃ e ∈ log.entries, e.seq = seq) ∧ ∃ c, record sha256 now log c = .ok r.toRecorded := by
  unfold restore at h
  split at h
  · cases h
  · rename_i target hfind
    obtain ⟨r', hr', h⟩ := bind_ok h
    cases h
    exact ⟨mem_of_find hfind, _, hr'⟩

/-- A labelling that succeeds is one `record`, about an entry that is there. -/
theorem label_record {now : JsString} {log : Log} {seq : Nat} {text : JsString} {t : Option JsString}
    {r : Recorded} (h : label sha256 now log seq text t = .ok r) :
    (∃ e ∈ log.entries, e.seq = seq) ∧ ∃ c, record sha256 now log c = .ok r := by
  unfold label at h
  split at h
  · cases h
  · rename_i target hfind
    exact ⟨mem_of_find hfind, _, h⟩

/-- **Step lemma.** A step that has room keeps a sound log sound. -/
theorem sound_step {log : Log} {op : Op} (h : Sound sha256 log) (hroom : HasRoom log op) :
    Sound sha256 (step sha256 number log op) := by
  obtain ⟨hcount, hroom⟩ := hroom
  unfold step
  split
  · rename_i log' hok
    cases op with
    | record now c =>
      obtain ⟨r, hr, rfl⟩ := map_ok hok
      exact h.record sha256 (hroom (record_action sha256 hr)) hcount hr
    | restore now seq t =>
      obtain ⟨r, hr, rfl⟩ := map_ok hok
      obtain ⟨hmem, c, hc⟩ := restore_record sha256 hr
      exact h.record sha256 (hroom hmem) hcount hc
    | label now seq text t =>
      obtain ⟨r, hr, rfl⟩ := map_ok hok
      obtain ⟨hmem, c, hc⟩ := label_record sha256 hr
      exact h.record sha256 (hroom hmem) hcount hc
    | prune now before keep t =>
      obtain ⟨r, hr, rfl⟩ := map_ok hok
      exact h.prune sha256 hcount hr
  · exact h

theorem sound_of_room {ops : List Op} (h : AllSteps HasRoom (step sha256 number) empty ops) :
    Sound sha256 (reached sha256 number ops) :=
  invariant (fun _ _ hI hok => sound_step sha256 number hI hok) (sound_empty sha256) h

/-- **Run lemma.** Every log reached by steps that all have room is upright. -/
theorem upright_of_room {ops : List Op} (h : AllSteps HasRoom (step sha256 number) empty ops) :
    Upright sha256 (reached sha256 number ops) :=
  (invariant (I := Sound sha256) (fun _ _ hI hok => sound_step sha256 number hI hok)
    (sound_empty sha256) h).upright sha256

/-- One change of a setting, as the settings page records it. -/
def themeChange : Change :=
  { action := js "setting", target := some (js "theme"), before := .str (js "light"),
    after := .str (js "dark"), atTime := none, label := none }

def midnight : JsString := js "2026-01-01T00:00:00.000Z"

/-- SHA-256 of the canonical text of the first entry, when that is `themeChange` at `midnight`. -/
def themeDigest : Vector UInt8 32 :=
  #v[113, 29, 251, 191, 82, 189, 126, 201, 201, 235, 60, 232, 54, 39, 77, 222,
    10, 21, 138, 42, 49, 108, 248, 255, 149, 145, 161, 132, 30, 42, 224, 34]

/-- SHA-256 on the three texts of `shortRun`, told apart by their lengths. -/
def shortDigest (bytes : ByteArray) : Vector UInt8 32 :=
  if bytes.size = 132 then themeDigest
  else if bytes.size = 211 then
    #v[191, 72, 221, 197, 167, 175, 94, 198, 111, 248, 196, 15, 237, 86, 226, 4,
      239, 191, 200, 111, 7, 165, 223, 55, 173, 33, 209, 246, 88, 228, 57, 101]
  else
    #v[131, 101, 134, 132, 62, 121, 133, 66, 39, 157, 111, 251, 156, 153, 44, 114,
      118, 120, 55, 110, 104, 37, 125, 154, 243, 217, 150, 17, 29, 131, 162, 49]

/-- A change, a label on it, and its restoration. -/
def shortRun : List Op :=
  [.record midnight themeChange, .label midnight 1 (js "before the demo") none,
    .restore midnight 1 none]

theorem shortRun_upright :
    Upright shortDigest (reached shortDigest (fun _ => .nan) shortRun) :=
  upright_of_room _ _
    ⟨⟨by unfold Countable; decide, fun _ => by decide⟩,
      ⟨by unfold Countable; decide, fun _ => by decide⟩,
      ⟨by unfold Countable; decide, fun _ => by decide⟩, trivial⟩

/-! ## A record on a full log -/

/-- On a full log the oldest entry is dropped and the rest keeps its parents. -/
theorem record_of_full {now : JsString} {log : Log} {c : Change} (hc : c.action ≠ [])
    (hfull : log.entries.length = maxEntries) : record sha256 now log c =
      .ok ⟨⟨(log.entries ++ [newEntry sha256 now log.entries c]).drop 1,
        some (log.truncated.getD 0 + 1)⟩, newEntry sha256 now log.entries c, 1⟩ := by
  have hlen : (log.entries ++ [newEntry sha256 now log.entries c]).length = maxEntries + 1 := by
    simp only [List.length_append, List.length_singleton, hfull]
  have hgt : maxEntries + 1 > maxEntries := by omega
  simp only [record, if_neg hc, hlen, if_pos hgt, Nat.add_sub_cancel_left]

/-- **The cap breaks the chain.** Whatever the digest, the walk refuses a sound full log after one more
    record: its first entry still names the dropped entry's hash. -/
theorem verify_full_record {now : JsString} {log : Log} {c : Change} {r : Recorded}
    (h : Sound sha256 log) (hc : c.action ≠ []) (hfull : log.entries.length = maxEntries)
    (hr : record sha256 now log c = .ok r) : ¬ Accepted sha256 r.log.toJs := by
  rw [record_of_full sha256 hc hfull] at hr
  cases hr
  have hne : log.entries ≠ [] := by
    intro hnil
    rw [hnil] at hfull
    exact absurd hfull (by decide)
  obtain ⟨e, es, hes⟩ := List.exists_cons_of_ne_nil hne
  have hall := linked_newEntry sha256 h.linked now c
  intro hv
  have hlink := (accepted_toJs sha256 ⟨_, _⟩).mp hv
  rw [hes] at hall hlink
  simp only [List.cons_append, Linked, List.drop_succ_cons, List.drop_zero] at hall hlink
  -- the remaining entries are linked from the dropped entry's hash, and a chain has one start
  have hstart : e.hash = [] := Linked.start_unique (by simp) hall.2.2 hlink
  exact hashOf_ne_nil sha256 e.toJs (hall.2.1.symm.trans hstart)

/-- `n ≤ 5000` records from the empty log all have room, and are all there. -/
theorem records_have_room {now : JsString} {c : Change} (hc : c.action ≠ []) :
    ∀ n, n ≤ maxEntries →
      AllSteps HasRoom (step sha256 number) empty (List.replicate n (.record now c)) ∧
      (reached sha256 number (List.replicate n (.record now c))).entries.length = n ∧
      ∀ e ∈ (reached sha256 number (List.replicate n (.record now c))).entries, e.seq ≤ n := by
  intro n
  induction n with
  | zero =>
    intro _
    exact ⟨trivial, rfl, by simp [reached, empty]⟩
  | succ n ih =>
    intro hn
    obtain ⟨hsteps, hlen, hseq⟩ := ih (by omega)
    have hroom : (reached sha256 number (List.replicate n (.record now c))).entries.length
        < maxEntries := by omega
    have hcap : maxEntries < 2 ^ 53 := by decide
    have hcount : Countable (reached sha256 number (List.replicate n (.record now c))).entries := by
      intro e he
      have := hseq e he
      omega
    have hstep : reached sha256 number (List.replicate (n + 1) (.record now c)) =
        ⟨(reached sha256 number (List.replicate n (.record now c))).entries ++
          [newEntry sha256 now (reached sha256 number (List.replicate n (.record now c))).entries c],
          some ((reached sha256 number (List.replicate n (.record now c))).truncated.getD 0)⟩ := by
      rw [reached, List.replicate_succ', run_append, run_cons, run_nil, ← reached]
      simp only [step, apply, record_of_room sha256 hc hroom, Except.map]
    refine ⟨?_, ?_, ?_⟩
    · rw [List.replicate_succ']
      exact allSteps_append.mpr ⟨hsteps, ⟨hcount, fun _ => hroom⟩, trivial⟩
    · rw [hstep]
      simp only [List.length_append, List.length_singleton, hlen]
    · rw [hstep]
      intro e he
      rcases List.mem_append.mp he with he | he
      · exact Nat.le_succ_of_le (hseq e he)
      · rw [List.mem_singleton.mp he, seq_newEntry]
        cases hlast : (reached sha256 number (List.replicate n (.record now c))).entries.getLast? with
        | none => simp
        | some z =>
          have hz := hseq z (List.mem_of_getLast? hlast)
          simp only [Option.map_some, Option.getD_some, succ]
          split_ifs <;> omega

/-- 5001 changes recorded one after another leave a log that `verify` refuses, for any digest. -/
theorem not_upright_after_5001 : ¬ ∃ (sha256 : ByteArray → Vector UInt8 32) (number : JsString → JsNumber),
    Upright sha256 (reached sha256 number (List.replicate 5001 (.record midnight themeChange))) := by
  rintro ⟨sha256, number, h⟩
  have haction : themeChange.action ≠ [] := by decide
  obtain ⟨hsteps, hlen, -⟩ := @records_have_room sha256 number midnight themeChange haction maxEntries
    (Nat.le_refl _)
  have hsound : Sound sha256 (reached sha256 number (List.replicate maxEntries (.record midnight themeChange))) :=
    invariant (fun _ _ hI hok => sound_step sha256 number hI hok) (sound_empty sha256) hsteps
  have hfull := verify_full_record sha256 hsound haction hlen
    (@record_of_full sha256 midnight _ themeChange haction hlen)
  have hlast : reached sha256 number (List.replicate 5001 (.record midnight themeChange)) =
      step sha256 number (reached sha256 number (List.replicate maxEntries (.record midnight themeChange)))
        (.record midnight themeChange) := by
    rw [reached, show (5001 : Nat) = maxEntries + 1 from rfl, List.replicate_succ', run_append,
      run_cons, run_nil, reached]
  rw [hlast, step, apply, record_of_full sha256 haction hlen] at h
  exact hfull h.verified

end History
end MaterialOpenWebui
