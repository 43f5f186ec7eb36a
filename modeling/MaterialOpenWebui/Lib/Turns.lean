import Mathlib.Data.List.Basic
import Mathlib.Data.List.Nodup
import Mathlib.Data.List.Perm.Basic

/-!
# `Lib.Turns` — calls that are answered at once

A transcript is a list of messages, some of which call under a list of ids and some of which answer one id. It is `Paired`
if each message that calls is followed at once by exactly one answer to each of its ids, and no answer stands elsewhere.
-/

namespace Turns

variable {μ ι : Type}

/-! ## Answers -/

/-- The messages answer each of the ids exactly once, and nothing else. -/
def Answers (answer : μ → Option ι) (ids : List ι) (results : List μ) : Prop :=
  ∃ answered : List ι, results.map answer = answered.map some ∧ answered.Nodup ∧ ∀ i, i ∈ answered ↔ i ∈ ids

theorem answers_nil (answer : μ → Option ι) : Answers answer [] [] := ⟨[], rfl, List.nodup_nil, fun _ => Iff.rfl⟩

theorem Answers.eq_nil {answer : μ → Option ι} {results : List μ} (h : Answers answer [] results) : results = [] := by
  obtain ⟨answered, hmap, -, hmem⟩ := h
  cases answered with
  | nil => exact List.map_eq_nil_iff.mp hmap
  | cons i answered => exact absurd ((hmem i).mp List.mem_cons_self) List.not_mem_nil

/-- Answers to ids that are all different, in any order. -/
theorem answers_of_perm {answer : μ → Option ι} {ids answered : List ι} {results : List μ}
    (hmap : results.map answer = answered.map some) (hperm : answered.Perm ids) (hnodup : ids.Nodup) :
    Answers answer ids results :=
  ⟨answered, hmap, hperm.nodup_iff.mpr hnodup, fun _ => hperm.mem_iff⟩

/-! ## Transcripts -/

variable (calls : μ → List ι) (answer : μ → Option ι)

/-- Each call is answered at once, and nothing else is. -/
inductive Paired : List μ → Prop where
  | nil : Paired []
  | plain {m : μ} {ms : List μ} (hcalls : calls m = []) (hanswer : answer m = none) (h : Paired ms) : Paired (m :: ms)
  | turn {m : μ} {results ms : List μ} (hcalls : calls m ≠ []) (hanswer : answer m = none)
      (hresults : Answers answer (calls m) results) (h : Paired ms) : Paired (m :: (results ++ ms))

/-- What follows when ids are still to be answered: their answers come first. -/
def PairedFrom (ids : List ι) (ms : List μ) : Prop :=
  ∃ results rest, ms = results ++ rest ∧ Answers answer ids results ∧ Paired calls answer rest

variable {calls answer}

theorem PairedFrom.paired {ms : List μ} (h : PairedFrom calls answer [] ms) : Paired calls answer ms := by
  obtain ⟨results, rest, rfl, hanswers, hrest⟩ := h
  rw [hanswers.eq_nil]
  exact hrest

theorem Paired.from_nil {ms : List μ} (h : Paired calls answer ms) : PairedFrom calls answer [] ms :=
  ⟨[], ms, rfl, answers_nil answer, h⟩

/-- A message that answers nothing, before what its calls are owed. -/
theorem PairedFrom.cons {m : μ} {ms : List μ} (h : PairedFrom calls answer (calls m) ms) (hanswer : answer m = none) :
    Paired calls answer (m :: ms) := by
  by_cases hcalls : calls m = []
  · rw [hcalls] at h
    exact .plain hcalls hanswer h.paired
  · obtain ⟨results, rest, rfl, hanswers, hrest⟩ := h
    exact .turn hcalls hanswer hanswers hrest

/-- Messages that neither call nor answer, before a transcript. -/
theorem Paired.append {ms : List μ} (h : Paired calls answer ms) (pre : List μ)
    (hpre : ∀ m ∈ pre, calls m = [] ∧ answer m = none) : Paired calls answer (pre ++ ms) := by
  induction pre with
  | nil => exact h
  | cons m pre ih =>
    obtain ⟨hcalls, hanswer⟩ := hpre m List.mem_cons_self
    exact .plain hcalls hanswer (ih fun m hm => hpre m (List.mem_cons_of_mem _ hm))

/-! ## Reading a transcript -/

/-- Exactly these ids, each once. -/
def Once (answered ids : List ι) : Prop := answered.Nodup ∧ ∀ i, i ∈ answered ↔ i ∈ ids

theorem once_nil_iff {answered : List ι} : Once answered [] ↔ answered = [] := by
  constructor
  · intro h
    exact List.eq_nil_iff_forall_not_mem.mpr fun i hi => absurd ((h.2 i).mp hi) List.not_mem_nil
  · rintro rfl
    exact ⟨List.nodup_nil, fun _ => Iff.rfl⟩

variable (answer) in
/-- The ids that are answered before anything else is said. -/
def answeredFirst : List μ → List ι
  | [] => []
  | m :: ms =>
    match answer m with
    | some i => i :: answeredFirst ms
    | none => []

variable (answer) in
/-- What follows these answers. -/
def afterAnswers : List μ → List μ
  | [] => []
  | m :: ms =>
    match answer m with
    | some _ => afterAnswers ms
    | none => m :: ms

theorem answeredFirst_cons_none {m : μ} (h : answer m = none) (ms : List μ) : answeredFirst answer (m :: ms) = [] := by
  rw [answeredFirst, h]

theorem afterAnswers_cons_none {m : μ} (h : answer m = none) (ms : List μ) : afterAnswers answer (m :: ms) = m :: ms := by
  rw [afterAnswers, h]

theorem answeredFirst_append {results : List μ} {answered : List ι} (h : results.map answer = answered.map some)
    (ms : List μ) : answeredFirst answer (results ++ ms) = answered ++ answeredFirst answer ms := by
  induction results generalizing answered with
  | nil =>
    rw [List.map_eq_nil_iff.mp h.symm]
    rfl
  | cons m results ih =>
    cases answered with
    | nil => cases h
    | cons i answered =>
      obtain ⟨hm, hrest⟩ := List.cons.inj h
      rw [List.cons_append, answeredFirst, hm, ih hrest]
      rfl

theorem afterAnswers_append {results : List μ} {answered : List ι} (h : results.map answer = answered.map some)
    (ms : List μ) : afterAnswers answer (results ++ ms) = afterAnswers answer ms := by
  induction results generalizing answered with
  | nil => rfl
  | cons m results ih =>
    cases answered with
    | nil => cases h
    | cons i answered =>
      obtain ⟨hm, hrest⟩ := List.cons.inj h
      rw [List.cons_append, afterAnswers, hm, ih hrest]

/-- A transcript is its first answers and the rest. -/
theorem exists_answers (answer : μ → Option ι) (ms : List μ) : ∃ results,
    ms = results ++ afterAnswers answer ms ∧ results.map answer = (answeredFirst answer ms).map some := by
  induction ms with
  | nil => exact ⟨[], rfl, rfl⟩
  | cons m ms ih =>
    cases hm : answer m with
    | none => exact ⟨[], (afterAnswers_cons_none hm ms).symm, by rw [answeredFirst_cons_none hm]; rfl⟩
    | some i =>
      obtain ⟨results, hms, hmap⟩ := ih
      refine ⟨m :: results, ?_, ?_⟩
      · rw [afterAnswers, hm, List.cons_append, ← hms]
      · rw [answeredFirst, hm, List.map_cons, hm, hmap]
        rfl

/-- A paired transcript does not begin with an answer. -/
theorem Paired.starts {ms : List μ} (h : Paired calls answer ms) :
    answeredFirst answer ms = [] ∧ afterAnswers answer ms = ms := by
  cases h with
  | nil => exact ⟨rfl, rfl⟩
  | plain _ hanswer _ => exact ⟨answeredFirst_cons_none hanswer _, afterAnswers_cons_none hanswer _⟩
  | turn _ hanswer _ _ => exact ⟨answeredFirst_cons_none hanswer _, afterAnswers_cons_none hanswer _⟩

theorem paired_iff {ms : List μ} :
    Paired calls answer ms ↔ answeredFirst answer ms = [] ∧ Paired calls answer (afterAnswers answer ms) := by
  constructor
  · intro h
    obtain ⟨hfirst, hrest⟩ := h.starts
    exact ⟨hfirst, hrest.symm ▸ h⟩
  · rintro ⟨hfirst, hrest⟩
    obtain ⟨results, hms, hmap⟩ := exists_answers answer ms
    rw [hfirst] at hmap
    rw [hms, List.map_eq_nil_iff.mp hmap]
    exact hrest

/-- **A message that calls is followed by exactly its answers.** -/
theorem paired_cons_iff {m : μ} (hanswer : answer m = none) (ms : List μ) :
    Paired calls answer (m :: ms) ↔
      Once (answeredFirst answer ms) (calls m) ∧ Paired calls answer (afterAnswers answer ms) := by
  constructor
  · intro h
    cases h with
    | plain hcalls _ h =>
      rw [hcalls, once_nil_iff]
      exact paired_iff.mp h
    | turn hcalls _ hresults h =>
      obtain ⟨answered, hmap, hnodup, hmem⟩ := hresults
      obtain ⟨hfirst, hrest⟩ := h.starts
      rw [answeredFirst_append hmap, hfirst, List.append_nil, afterAnswers_append hmap, hrest]
      exact ⟨⟨hnodup, hmem⟩, h⟩
  · rintro ⟨⟨hnodup, hmem⟩, hrest⟩
    obtain ⟨results, hms, hmap⟩ := exists_answers answer ms
    have hfrom : PairedFrom calls answer (calls m) ms := ⟨results, _, hms, ⟨_, hmap, hnodup, hmem⟩, hrest⟩
    exact hfrom.cons hanswer

/-! ## Stretches -/

/-- A stretch of what a transcript is written from: perhaps a message with calls, then answers, then perhaps a message
    that closes the stretch. -/
structure Stretch (ι : Type) where
  speaks : Bool
  calls : List ι
  answered : List ι
  closes : Bool

/-- The ids answered from here on, until a message stands between. -/
def answeredNext : List (Stretch ι) → List ι
  | [] => []
  | s :: ss => if s.speaks then [] else s.answered ++ if s.closes then [] else answeredNext ss

/-- The ids answered after the message of a stretch, until another message stands between. -/
def Stretch.answeredBefore (s : Stretch ι) (ss : List (Stretch ι)) : List ι :=
  s.answered ++ if s.closes then [] else answeredNext ss

/-- Every call is answered before anything else is said, and nothing is answered after a message that closes. -/
def Settled : List (Stretch ι) → Prop
  | [] => True
  | s :: ss => (s.speaks = true → Once (s.answeredBefore ss) s.calls) ∧
      (s.closes = true → answeredNext ss = []) ∧ Settled ss

variable (calls answer) in
/-- The messages of a stretch. -/
structure Written (s : Stretch ι) (ms : List μ) : Prop where
  split : ∃ said results closing, ms = said ++ (results ++ closing) ∧
    (s.speaks = false ∧ said = [] ∨ s.speaks = true ∧ ∃ m, said = [m] ∧ answer m = none ∧ calls m = s.calls) ∧
    results.map answer = s.answered.map some ∧
    (s.closes = false ∧ closing = [] ∨ s.closes = true ∧ ∃ m, closing = [m] ∧ answer m = none ∧ calls m = [])

/-- What is read of the answers and the closing message of a stretch. -/
theorem answeredFirst_closing {s : Stretch ι} {results closing rest : List μ} {ss : List (Stretch ι)}
    (hresults : results.map answer = s.answered.map some)
    (hclosing : s.closes = false ∧ closing = [] ∨ s.closes = true ∧ ∃ m, closing = [m] ∧ answer m = none ∧ calls m = [])
    (hrest : answeredFirst answer rest = answeredNext ss) :
    answeredFirst answer (results ++ (closing ++ rest)) = s.answeredBefore ss := by
  rw [answeredFirst_append hresults, Stretch.answeredBefore]
  rcases hclosing with ⟨hcloses, rfl⟩ | ⟨hcloses, m, rfl, hanswer, -⟩
  · rw [hcloses, List.nil_append, hrest]
    rfl
  · rw [hcloses, List.singleton_append, answeredFirst_cons_none hanswer]
    rfl

theorem answeredFirst_written {ss : List (Stretch ι)} {mss : List (List μ)}
    (h : List.Forall₂ (Written calls answer) ss mss) : answeredFirst answer mss.flatten = answeredNext ss := by
  induction h with
  | nil => rfl
  | @cons s ms ss mss hwritten _ ih =>
    obtain ⟨said, results, closing, rfl, hsaid, hresults, hclosing⟩ := hwritten.split
    rw [List.flatten_cons, List.append_assoc, List.append_assoc, answeredNext]
    rcases hsaid with ⟨hspeaks, rfl⟩ | ⟨hspeaks, m, rfl, hanswer, -⟩
    · rw [hspeaks, List.nil_append, answeredFirst_closing hresults hclosing ih]
      rfl
    · rw [hspeaks, List.singleton_append, answeredFirst_cons_none hanswer]
      rfl

/-- After the answers of a stretch, the rest is paired if it is after the closing message. -/
theorem paired_closing_iff {s : Stretch ι} {results closing rest : List μ} {ss : List (Stretch ι)}
    (hresults : results.map answer = s.answered.map some)
    (hclosing : s.closes = false ∧ closing = [] ∨ s.closes = true ∧ ∃ m, closing = [m] ∧ answer m = none ∧ calls m = [])
    (hfirst : answeredFirst answer rest = answeredNext ss)
    (hrest : Paired calls answer (afterAnswers answer rest) ↔ Settled ss) :
    Paired calls answer (afterAnswers answer (results ++ (closing ++ rest))) ↔
      (s.closes = true → answeredNext ss = []) ∧ Settled ss := by
  rw [afterAnswers_append hresults]
  rcases hclosing with ⟨hcloses, rfl⟩ | ⟨hcloses, m, rfl, hanswer, hcalls⟩
  · rw [hcloses, List.nil_append, hrest]
    exact ⟨fun h => ⟨fun hfalse => absurd hfalse Bool.false_ne_true, h⟩, fun h => h.2⟩
  · rw [hcloses, List.singleton_append, afterAnswers_cons_none hanswer, paired_cons_iff hanswer, hcalls, once_nil_iff,
      hfirst, hrest]
    exact ⟨fun h => ⟨fun _ => h.1, h.2⟩, fun h => ⟨h.1 rfl, h.2⟩⟩

theorem paired_afterAnswers_iff {ss : List (Stretch ι)} {mss : List (List μ)}
    (h : List.Forall₂ (Written calls answer) ss mss) :
    Paired calls answer (afterAnswers answer mss.flatten) ↔ Settled ss := by
  induction h with
  | nil => exact ⟨fun _ => trivial, fun _ => .nil⟩
  | @cons s ms ss mss hwritten hrest ih =>
    obtain ⟨said, results, closing, rfl, hsaid, hresults, hclosing⟩ := hwritten.split
    have hfirst := answeredFirst_written hrest
    have hafter := paired_closing_iff hresults hclosing hfirst ih
    rw [List.flatten_cons, List.append_assoc, List.append_assoc, Settled]
    rcases hsaid with ⟨hspeaks, rfl⟩ | ⟨hspeaks, m, rfl, hanswer, hcalls⟩
    · rw [List.nil_append, hafter, hspeaks]
      exact ⟨fun h => ⟨fun hfalse => absurd hfalse Bool.false_ne_true, h⟩, fun h => h.2⟩
    · rw [List.singleton_append, afterAnswers_cons_none hanswer, paired_cons_iff hanswer, hafter, hcalls, hspeaks,
        answeredFirst_closing hresults hclosing hfirst]
      exact ⟨fun h => ⟨fun _ => h.1, h.2⟩, fun h => ⟨h.1 rfl, h.2⟩⟩

/-- **A transcript is paired if and only if its stretches are settled.** -/
theorem paired_iff_settled {ss : List (Stretch ι)} {mss : List (List μ)}
    (h : List.Forall₂ (Written calls answer) ss mss) :
    Paired calls answer mss.flatten ↔ answeredNext ss = [] ∧ Settled ss := by
  rw [paired_iff, answeredFirst_written h, paired_afterAnswers_iff h]

end Turns
