import MaterialOpenWebui.History.Log
import MaterialOpenWebui.Lib.Run

/-!
# `History.Chain` — what every operation on a log preserves

A log is **sound** when its entries are linked from the empty parent, their numbers ascend and there are at
most `maxEntries` of them. `accepted_toJs` ties the first part to the walk of `verify`. `record` on a sound
log with room keeps it sound (`Sound.record`), and `prune` re-seals what it keeps (`Sound.prune`).
-/

namespace MaterialOpenWebui
namespace History
open Js HashChain

variable (sha256 : ByteArray → Vector UInt8 32)

/-! ## Reading an entry back -/

theorem toJs_parent (e : Entry) : e.toJs.get (js "parent") = .str e.parent := rfl

theorem toJs_hash (e : Entry) : e.toJs.get (js "hash") = .str e.hash := rfl

theorem toJs_entries (log : Log) : log.toJs.get (js "entries") = .arr (log.entries.map Entry.toJs) := rfl

/-- `s || ''` is `s`. -/
theorem or_empty (s : JsString) : (JsValue.str s).or (.str []) = .str s := by
  cases s <;> rfl

/-- A hash is 64 code units, so never the empty string. -/
theorem hashOf_ne_nil (entry : JsValue) : hashOf sha256 entry ≠ [] := by
  intro h
  have hlen := congrArg List.length h
  simp [hashOf, List.length_flatMap, length_hexByte] at hlen

/-! ## The walk of `verify` is the chain predicate -/

theorem mismatch_ne_ok (e : JsValue) (s : JsString) (n : Nat) : mismatch e s ≠ .ok (.ok n) := by
  intro h
  unfold mismatch at h
  split at h <;> simp at h

/-- A walk that ends well reports the number it was given. -/
theorem verifyFrom_count {n m : Nat} {p : JsString} {es : List JsValue}
    (h : verifyFrom sha256 n p es = .ok (.ok m)) : m = n := by
  induction es generalizing p with
  | nil =>
    cases h
    rfl
  | cons e es ih =>
    unfold verifyFrom at h
    split_ifs at h
    · exact ih h
    · exact absurd h (mismatch_ne_ok e _ m)
    · exact absurd h (mismatch_ne_ok e _ m)

/-- **`verify` accepts exactly the linked lists.** -/
theorem verifyFrom_ok_iff (n : Nat) (p : JsString) (es : List JsValue) :
    verifyFrom sha256 n p es = .ok (.ok n) ↔ Linked (scheme sha256) (.str p) es := by
  induction es generalizing p with
  | nil => simp [verifyFrom, Linked]
  | cons e es ih =>
    unfold verifyFrom Linked
    by_cases hnull : e.isNullish = true
    · -- a property of `null` or `undefined`: the walk throws, and no string is its hash
      cases e <;> simp_all [JsValue.isNullish, scheme, JsValue.get]
    · rw [if_neg hnull]
      by_cases hp : ((e.get (js "parent")).or (.str [])).isStr p = true
      · rw [if_neg (not_not_intro hp)]
        by_cases hh : (e.get (js "hash")).isStr (hashOf sha256 e) = true
        · have hhash : (scheme sha256).hash e = .str (hashOf sha256 e) := JsValue.isStr_iff.mp hh
          rw [if_neg (not_not_intro hh), hhash]
          exact ⟨fun h => ⟨JsValue.isStr_iff.mp hp, rfl, (ih _).mp h⟩, fun h => (ih _).mpr h.2.2⟩
        · rw [if_pos hh]
          refine ⟨fun h => absurd h (mismatch_ne_ok _ _ n), ?_⟩
          rintro ⟨-, h, -⟩
          exact absurd (JsValue.isStr_iff.mpr h) hh
      · rw [if_pos hp]
        refine ⟨fun h => absurd h (mismatch_ne_ok _ _ n), ?_⟩
        rintro ⟨h, -, -⟩
        exact absurd (JsValue.isStr_iff.mpr h) hp

/-- The scheme of the typed entries. -/
def entryScheme : Scheme Entry JsString where
  parent := Entry.parent
  hash := Entry.hash
  digest := Entry.digest sha256

theorem linked_toJs (p : JsString) (es : List Entry) :
    Linked (scheme sha256) (.str p) (es.map Entry.toJs) ↔ Linked (entryScheme sha256) p es := by
  induction es generalizing p with
  | nil => simp [Linked]
  | cons e es ih =>
    simp only [List.map_cons, Linked]
    have hpar : (scheme sha256).parent e.toJs = .str e.parent := by
      simp only [scheme, toJs_parent, or_empty]
    have hhash : (scheme sha256).hash e.toJs = .str e.hash := toJs_hash e
    have hdig : (scheme sha256).digest e.toJs = .str (e.digest sha256) := rfl
    rw [hpar, hhash, hdig, ih]
    simp [entryScheme]

/-- The entries of a log, as `verify` finds them. -/
def entriesOf (log : JsValue) : List JsValue := (log.get (js "entries")).elemsOrNil

/-- `verify` reports the log to be in order. -/
def Accepted (log : JsValue) : Prop := ∃ n, verify sha256 log = .ok (.ok n)

theorem accepted_iff (log : JsValue) : Accepted sha256 log ↔
    Linked (scheme sha256) (.str []) (entriesOf log) := by
  rw [← verifyFrom_ok_iff sha256 (entriesOf log).length]
  constructor
  · rintro ⟨n, hn⟩
    have hcount := verifyFrom_count sha256 hn
    subst hcount
    exact hn
  · intro h
    exact ⟨_, h⟩

theorem accepted_toJs (log : Log) : Accepted sha256 log.toJs ↔
    Linked (entryScheme sha256) [] log.entries := by
  rw [accepted_iff, entriesOf, toJs_entries]
  exact linked_toJs sha256 [] log.entries

/-! ## One appended entry -/

@[simp] theorem sealEntry_seq (p : JsString) (e : Entry) : (sealEntry sha256 p e).seq = e.seq := rfl

/-- The hash of an entry does not cover the hash field, so sealing fixes its own digest. -/
theorem sealEntry_digest (p : JsString) (e : Entry) :
    (sealEntry sha256 p e).hash = Entry.digest sha256 (sealEntry sha256 p e) := rfl

theorem tip_entries (es : List Entry) :
    tip (entryScheme sha256) [] es = (es.getLast?.map Entry.hash).getD [] :=
  tip_eq_getLast? [] es

/-- Appending the entry `record` builds keeps the chain. -/
theorem linked_newEntry {es : List Entry} (h : Linked (entryScheme sha256) [] es) (now : JsString)
    (c : Change) : Linked (entryScheme sha256) [] (es ++ [newEntry sha256 now es c]) :=
  h.concat (tip_entries sha256 es).symm (sealEntry_digest sha256 _ _)

theorem seq_newEntry (now : JsString) (es : List Entry) (c : Change) :
    (newEntry sha256 now es c).seq = (es.getLast?.map (fun e => succ e.seq)).getD 1 := rfl

/-- Below `2^53` the new number exceeds every number already there. -/
theorem increasing_newEntry {es : List Entry} (h : (es.map Entry.seq).Pairwise (· < ·))
    (hb : ∀ e ∈ es, e.seq < 2 ^ 53) (now : JsString) (c : Change) :
    ((es ++ [newEntry sha256 now es c]).map Entry.seq).Pairwise (· < ·) := by
  rw [List.map_append, List.pairwise_append]
  refine ⟨h, by simp, ?_⟩
  intro a ha b hb'
  simp only [List.map_cons, List.map_nil, List.mem_singleton] at hb'
  subst hb'
  rw [seq_newEntry]
  rcases List.eq_nil_or_concat es with rfl | ⟨l, z, rfl⟩
  · simp at ha
  · rw [List.concat_eq_append] at *
    have hz : z.seq < 2 ^ 53 := hb z (by simp)
    simp only [List.getLast?_append, List.getLast?_singleton, Option.some_or, Option.map_some,
      Option.getD_some, succ, if_pos hz]
    rw [List.map_append, List.pairwise_append] at h
    rw [List.map_append, List.mem_append] at ha
    rcases ha with ha | ha
    · exact Nat.lt_succ_of_lt (h.2.2 a ha z.seq (by simp))
    · simp at ha
      omega

/-! ## Sound logs -/

/-- What the module promises of a log. -/
structure Sound (log : Log) : Prop where
  linked : Linked (entryScheme sha256) [] log.entries
  increasing : (log.entries.map Entry.seq).Pairwise (· < ·)
  capped : log.entries.length ≤ maxEntries

theorem sound_empty : Sound sha256 empty := ⟨trivial, .nil, by simp [empty]⟩

/-- The entry numbers are still below `2^53`, where adding one stops moving a double. -/
def Countable (es : List Entry) : Prop := ∀ e ∈ es, e.seq < 2 ^ 53

/-- `record` with room appends one entry. -/
theorem record_of_room {now : JsString} {log : Log} {c : Change} (hc : c.action ≠ [])
    (hroom : log.entries.length < maxEntries) : record sha256 now log c =
      .ok ⟨⟨log.entries ++ [newEntry sha256 now log.entries c], some (log.truncated.getD 0)⟩,
        newEntry sha256 now log.entries c, 0⟩ := by
  have hlen : ¬ (log.entries ++ [newEntry sha256 now log.entries c]).length > maxEntries := by
    simp only [List.length_append, List.length_singleton]
    omega
  simp only [record, if_neg hc, if_neg hlen]

theorem Sound.concat {log : Log} (h : Sound sha256 log) (hroom : log.entries.length < maxEntries)
    (hb : Countable log.entries) (now : JsString) (c : Change) (t : Option Nat) :
    Sound sha256 ⟨log.entries ++ [newEntry sha256 now log.entries c], t⟩ where
  linked := linked_newEntry sha256 h.linked now c
  increasing := increasing_newEntry sha256 h.increasing hb now c
  capped := by
    simp only [List.length_append, List.length_singleton]
    omega

/-- **Step lemma for `record`.** -/
theorem Sound.record {now : JsString} {log : Log} {c : Change} {r : Recorded} (h : Sound sha256 log)
    (hroom : log.entries.length < maxEntries) (hb : Countable log.entries)
    (hr : History.record sha256 now log c = .ok r) : Sound sha256 r.log := by
  by_cases hc : c.action = []
  · simp [History.record, hc] at hr
  · rw [record_of_room sha256 hc hroom] at hr
    cases hr
    exact h.concat sha256 hroom hb now c _

/-! ## Pruning -/

/-- The rebuilding loop of `prune` is the generic re-sealing. -/
theorem rebuild_eq_relink (p : JsString) (es : List Entry) :
    rebuild sha256 p es = relink (entryScheme sha256) (sealEntry sha256) p es := by
  induction es generalizing p with
  | nil => rfl
  | cons e es ih => simp [rebuild, relink, ih, entryScheme]

theorem linked_rebuild (p : JsString) (es : List Entry) :
    Linked (entryScheme sha256) p (rebuild sha256 p es) := by
  rw [rebuild_eq_relink]
  exact linked_relink (fun _ _ => rfl) (fun p e => sealEntry_digest sha256 p e) p es

theorem seq_rebuild (p : JsString) (es : List Entry) :
    (rebuild sha256 p es).map Entry.seq = es.map Entry.seq := by
  rw [rebuild_eq_relink]
  exact map_relink Entry.seq (sealEntry_seq sha256) p es

theorem length_rebuild (p : JsString) (es : List Entry) : (rebuild sha256 p es).length = es.length := by
  rw [rebuild_eq_relink, length_relink]

/-- Re-sealing any part of a sound log gives a sound log. -/
theorem Sound.rebuild {log : Log} (h : Sound sha256 log) {es : List Entry} (hs : es.Sublist log.entries)
    (t : Option Nat) : Sound sha256 ⟨History.rebuild sha256 [] es, t⟩ where
  linked := linked_rebuild sha256 [] es
  increasing := by
    rw [seq_rebuild]
    exact h.increasing.sublist (hs.map Entry.seq)
  capped := by
    rw [length_rebuild]
    exact Nat.le_trans hs.length_le h.capped

/-- What a successful `prune` can have done: nothing, or re-seal what it keeps and record that. -/
theorem prune_cases {number : JsString → JsNumber} {now before : JsString} {log : Log} {keep : Bool}
    {atTime : Option JsString} {r : Pruned}
    (hr : prune sha256 number now log before keep atTime = .ok r) :
    r.log = log ∨
    (kept number before keep log.entries).length < log.entries.length ∧
    ∃ c r', c.action ≠ [] ∧
      record sha256 now ⟨rebuild sha256 [] (kept number before keep log.entries),
        some (log.truncated.getD 0)⟩ c = .ok r' ∧ r.log = r'.log := by
  by_cases hbefore : before = []
  · simp [prune, hbefore] at hr
  · by_cases hremoved : log.entries.length - (kept number before keep log.entries).length = 0
    · simp only [prune, if_neg hbefore, if_pos hremoved] at hr
      cases hr
      exact Or.inl rfl
    · simp only [prune, if_neg hbefore, if_neg hremoved] at hr
      refine Or.inr ⟨by omega, ?_⟩
      obtain ⟨r', hr', hr⟩ := Run.bind_ok hr
      cases hr
      exact ⟨_, r', by simp only; decide, hr', rfl⟩

/-- The numbers that survive a re-sealing were there before. -/
theorem countable_rebuild {es es' : List Entry} (hs : es'.Sublist es) (hb : Countable es) :
    Countable (rebuild sha256 [] es') := by
  intro e he
  have hmem : e.seq ∈ (rebuild sha256 [] es').map Entry.seq := List.mem_map_of_mem he
  rw [seq_rebuild] at hmem
  obtain ⟨e', he', heq⟩ := List.mem_map.mp hmem
  rw [← heq]
  exact hb e' (hs.subset he')

/-- **Step lemma for `prune`.** It records only after removing something, so it always finds room. -/
theorem Sound.prune {number : JsString → JsNumber} {now before : JsString} {log : Log} {keep : Bool}
    {atTime : Option JsString} {r : Pruned} (h : Sound sha256 log) (hb : Countable log.entries)
    (hr : History.prune sha256 number now log before keep atTime = .ok r) : Sound sha256 r.log := by
  have hsub : (kept number before keep log.entries).Sublist log.entries := List.filter_sublist
  rcases prune_cases sha256 hr with heq | ⟨hlt, c, r', -, hr', heq⟩
  · rw [heq]
    exact h
  · rw [heq]
    have hroom : (History.rebuild sha256 [] (kept number before keep log.entries)).length
        < maxEntries := by
      rw [length_rebuild]
      exact Nat.lt_of_lt_of_le hlt h.capped
    exact (h.rebuild sha256 hsub _).record sha256 hroom (countable_rebuild sha256 hsub hb) hr'

end History
end MaterialOpenWebui
