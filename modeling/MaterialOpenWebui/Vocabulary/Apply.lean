import MaterialOpenWebui.Lib.Together
import MaterialOpenWebui.Vocabulary.Model
import Mathlib.Data.List.Permutation
import Mathlib.Data.List.Perm.Basic

/-!
# `Vocabulary.Apply` — term after term (`app/js/core/vocabulary.js`)

`apply` replaces one term after another in what the terms before it have left. So a term is also found in what was put in, and of
two terms of one length that overlap the one that is listed first has its way. Where neither happens every term is replaced at
the places where it stands in the text, the longest alias and the leftmost place first, in whatever order the terms are listed.
-/

namespace MaterialOpenWebui
namespace Vocabulary
open Js JsValue Rewrite

/-! ## The text -/

def Term.sub (term : Term) : JsString × JsString := (term.alias_, term.replacement)

def subs (terms : List Term) : List (JsString × JsString) := terms.map Term.sub

theorem splitFrom_ne_nil (sep : JsString) (n : Nat) (s : JsString) : splitFrom sep n s ≠ [] := by
  induction s generalizing n with
  | nil => cases n <;> exact List.cons_ne_nil _ _
  | cons c s ih =>
    cases n with
    | succ n => exact ih n
    | zero =>
      rw [splitFrom]
      split
      · exact List.cons_ne_nil _ _
      · intro h
        have hlength := congrArg List.length h
        rw [List.length_modifyHead] at hlength
        exact ih 0 (List.eq_nil_of_length_eq_zero hlength)

theorem joinWith_cons {sep s : JsString} {ss : List JsString} (h : ss ≠ []) :
    joinWith sep (s :: ss) = s ++ sep ++ joinWith sep ss := by
  obtain ⟨t, ts, rfl⟩ := List.exists_cons_of_ne_nil h
  rfl

/-- Splitting at an alias and joining with the replacement is rewriting. -/
theorem join_splitFrom (old new : JsString) (n : Nat) (s : JsString) :
    joinWith new (splitFrom old n s) = rewrite (literal old new) n s := by
  induction s generalizing n with
  | nil => cases n <;> rfl
  | cons c s ih =>
    cases n with
    | succ n => exact ih n
    | zero =>
      rw [splitFrom, rewrite, literal]
      by_cases hhead : old <+: c :: s
      · rw [if_pos hhead, if_pos hhead, joinWith_cons (splitFrom_ne_nil _ _ _), ih]
        rfl
      · rw [if_neg hhead, if_neg hhead]
        obtain ⟨part, parts, hparts⟩ := List.exists_cons_of_ne_nil (splitFrom_ne_nil old 0 s)
        have hrest := ih 0
        rw [hparts] at hrest
        show joinWith new ((splitFrom old 0 s).modifyHead (c :: ·)) = c :: rewrite (literal old new) 0 s
        rw [hparts, ← hrest]
        cases parts <;> rfl

theorem replaceTerm_eq {term : Term} (hne : term.alias_ ≠ []) (out : JsString) :
    replaceTerm out term = rewrite (literal term.sub.1 term.sub.2) 0 out := by
  rw [replaceTerm, if_neg hne, splitOn, join_splitFrom]
  rfl

theorem apply_eq {vocabulary : Payload} (hne : ∀ term ∈ vocabulary.terms, term.alias_ ≠ []) (text : JsString) :
    apply text (some vocabulary) = rewriteAll ((subs vocabulary.terms).map fun sub => literal sub.1 sub.2) text := by
  obtain ⟨version, terms⟩ := vocabulary
  show terms.foldl replaceTerm text = _
  induction terms generalizing text with
  | nil => rfl
  | cons term terms ih =>
    have ⟨hterm, hterms⟩ := List.forall_mem_cons.mp hne
    show terms.foldl replaceTerm (replaceTerm text term) = rewriteAll _ (rewrite (literal term.sub.1 term.sub.2) 0 text)
    rw [replaceTerm_eq hterm]
    exact ih _ hterms

/-! ## The order -/

/-- The lengths that an alias can have, the greatest first. -/
def lengths : List Nat := (List.range (maxKeyLength + 1)).reverse

theorem mem_lengths {n : Nat} : n ∈ lengths ↔ n ≤ maxKeyLength := by
  rw [lengths, List.mem_reverse, List.mem_range, Nat.lt_succ_iff]

theorem lengths_descend : lengths.Pairwise (· > ·) := List.pairwise_reverse.mpr List.pairwise_lt_range

def ByLength (ss : List (JsString × JsString)) : Prop :=
  StableSort.Ascending (fun sub : JsString × JsString => OrderDual.toDual sub.1.length) ss

theorem byLength_order (terms : List Term) : ByLength (subs (order terms)) := by
  refine List.pairwise_map.mpr ?_
  exact StableSort.ascending_sortOn longest terms

/-- What is in order is listed length by length. -/
theorem passes_of_byLength {ss : List (JsString × JsString)} (h : ByLength ss)
    (hkeys : ∀ sub ∈ ss, sub.1.length ≤ maxKeyLength) :
    passes ss lengths = ss := by
  have hks : (lengths.map OrderDual.toDual).Pairwise (· < ·) := List.pairwise_map.mpr lengths_descend
  have hmem : ∀ sub ∈ ss, OrderDual.toDual sub.1.length ∈ lengths.map OrderDual.toDual := fun sub hsub =>
    List.mem_map_of_mem (mem_lengths.mpr (hkeys sub hsub))
  have hflat := h.eq_flatMap hks hmem
  rw [List.flatMap_map] at hflat
  exact hflat.symm

theorem byLength_passes (ss : List (JsString × JsString)) : ByLength (passes ss lengths) := by
  have hlength : ∀ {n : Nat} {sub : JsString × JsString}, sub ∈ ofLength n ss → sub.1.length = n := fun hsub =>
    of_decide_eq_true (List.mem_filter.mp hsub).2
  refine List.pairwise_flatMap.mpr ⟨fun n _ => ?_, lengths_descend.imp fun hlt p hp q hq => ?_⟩
  · refine List.Pairwise.imp_of_mem (fun hp hq _ => ?_) (List.pairwise_of_forall (fun _ _ => trivial : ∀ _ _, True))
    exact le_of_eq (congrArg OrderDual.toDual ((hlength hp).trans (hlength hq).symm))
  · show q.1.length ≤ p.1.length
    rw [hlength hp, hlength hq]
    exact Nat.le_of_lt hlt

/-- Length by length each literal text is listed once. -/
theorem perm_passes {ss : List (JsString × JsString)} (hkeys : ∀ sub ∈ ss, sub.1.length ≤ maxKeyLength) :
    (passes ss lengths).Perm ss := by
  have hperm := StableSort.perm_sortOn (fun sub : JsString × JsString => OrderDual.toDual sub.1.length) ss
  have hsorted := passes_of_byLength (StableSort.ascending_sortOn _ ss) fun sub hsub => hkeys sub (hperm.mem_iff.mp hsub)
  refine List.Perm.trans ?_ hperm
  rw [← hsorted]
  exact List.Perm.flatMap_left lengths fun n _ => hperm.symm.filter _

/-! ## What should be rewritten -/

/-- The places at which terms stand in a text: the longest first, and of a length from left to right. -/
def maximal (terms : List Term) (text : JsString) : List (Nat × (JsString × JsString)) :=
  places 0 (stage (subs terms) lengths (text.map .inl))

/-- What the loop of `apply` replaces: each time the term, and where the characters stood in the text; those that were put in
stood nowhere. -/
def rewritten (terms : List Term) (text : JsString) : List ((JsString × JsString) × List (Option Nat)) :=
  events (subs terms) (cellsOf text)

/-- The terms are replaced all at once: just where they stand in the text, and the same in whatever order they are listed. -/
structure Simultaneous (vocabulary : Payload) (text : JsString) : Prop where
  once : ∀ parsed byteLength listed, validate parsed byteLength = .ok listed → listed.terms.Perm vocabulary.terms →
    (rewritten listed.terms text).Perm ((maximal vocabulary.terms text).map event)
  same : ∀ parsed byteLength listed, validate parsed byteLength = .ok listed → listed.terms.Perm vocabulary.terms →
    apply text (some listed) = apply text (some vocabulary)

theorem subs_ne {terms : List Term} (h : ∀ term ∈ terms, term.alias_ ≠ []) : ∀ sub ∈ subs terms, sub.1 ≠ [] :=
  List.forall_mem_map.mpr h

theorem subs_keys {terms : List Term} (h : ∀ term ∈ terms, term.alias_.length ≤ maxKeyLength) :
    ∀ sub ∈ subs terms, sub.1.length ≤ maxKeyLength := List.forall_mem_map.mpr h

theorem exclusive_subs {terms : List Term} (h : Valid terms) (n : Nat) : Exclusive (ofLength n (subs terms)) := by
  refine exclusive_ofLength (subs_ne h.nonempty) ?_ n
  rw [subs, List.map_map]
  exact h.distinct

/-- **What should be rewritten:** every place at which a term stands, but where one that outranks it is rewritten across it. -/
theorem mem_maximal_iff {terms : List Term} (h : Valid terms) {text : JsString} {i : Nat} {p : JsString × JsString} :
    (i, p) ∈ maximal terms text ↔
      p ∈ subs terms ∧ p.1 <+: text.drop i ∧ ∀ e ∈ maximal terms text, Outranks e (i, p) → Beside e (i, p) := by
  have hne : ∀ sub ∈ subs terms, sub.1 ≠ [] := subs_ne h.nonempty
  have hown : original (text.map .inl) = text := original_own text
  constructor
  · intro hmem
    refine ⟨?_, ?_, fun e he houtranks => (beside_of_mem he hmem).resolve_left ?_⟩
    · rcases mem_subs_of_stage hne hmem with hbefore | hsub
      · rw [places_own] at hbefore
        cases hbefore
      · exact hsub
    · have hoccurs := occurs_of_mem hmem
      rwa [original_stage hne, hown] at hoccurs
    · rintro rfl
      exact houtranks.elim (Nat.lt_irrefl _) fun hleft => Nat.lt_irrefl _ hleft.2
  · rintro ⟨hsub, hoccurs, hfree⟩
    have hlength : p.1.length ∈ lengths := mem_lengths.mpr (subs_keys h.keys p hsub)
    refine mem_stage hne (exclusive_subs h) lengths_descend hsub hlength ?_ (Nat.zero_le i) ?_ ?_ hfree
    · intro sub hmem
      obtain ⟨c, -, hc⟩ := List.mem_map.mp hmem
      cases hc
    · rw [places_own]
      exact List.forall_mem_nil _
    · rw [hown]
      exact hoccurs

/-! ## When it is -/

/-- In whatever order the terms are listed, none is found where something was put in, and none begins within the place where
another of its length is replaced. -/
structure Undisturbed (terms : List Term) (text : JsString) : Prop where
  untouched : ∀ listed : List Term, listed.Perm terms →
    LocalAll ((subs (order listed)).map fun sub => literal sub.1 sub.2) (text.map .own)
  clear : ClearAll (subs terms) lengths (text.map .inl)

theorem cells_own_eq (text : JsString) : cells 0 (text.map .inl) = cellsOf text := cells_own 0 text

theorem filled_own (text : JsString) : Filled (text.map Sum.inl : List (Slot UInt16)) := by
  intro sub hsub
  obtain ⟨c, -, hc⟩ := List.mem_map.mp hsub
  cases hc

theorem event_inj {e e' : Nat × (JsString × JsString)} (hne : e.2.1 ≠ []) (h : event e = event e') : e = e' := by
  obtain ⟨i, sub⟩ := e
  obtain ⟨j, sub'⟩ := e'
  obtain ⟨hsub, hplaces⟩ := Prod.mk.inj h
  obtain rfl : sub = sub' := hsub
  obtain ⟨c, old, hold⟩ := List.exists_cons_of_ne_nil hne
  have hold : sub.1 = c :: old := hold
  simp only [hold, List.length_cons, List.range'_succ, List.map_cons, List.cons.injEq, Option.some.injEq] at hplaces
  rw [hplaces.1]

/-- The terms that give these literal texts. -/
def termsOfSubs (ss : List (JsString × JsString)) : List Term := ss.map fun sub => ⟨sub.1, sub.2⟩

theorem subs_termsOfSubs (ss : List (JsString × JsString)) : subs (termsOfSubs ss) = ss := by
  rw [subs, termsOfSubs, List.map_map]
  exact List.map_id ss

theorem termsOfSubs_subs (terms : List Term) : termsOfSubs (subs terms) = terms := by
  rw [subs, termsOfSubs, List.map_map]
  exact List.map_id terms

theorem order_of_byLength {terms : List Term} (h : ByLength (subs terms)) : order terms = terms := by
  rw [ByLength, StableSort.Ascending, subs, List.pairwise_map] at h
  exact order_of_ascending h

/-- What the terms in order leave, where no term is found in what was put in. -/
theorem rewritten_perm {terms : List Term} (hne : ∀ term ∈ terms, term.alias_ ≠ []) {text : JsString}
    (h : LocalAll ((subs terms).map fun sub => literal sub.1 sub.2) (text.map .own)) :
    ((places 0 (pickAll (subs terms) (text.map .inl))).map event).Perm (rewritten terms text) := by
  rw [← tokens_own] at h
  have hperm := events_perm (k := 0) (subs_ne hne) h
  rw [places_own, cells_own_eq, List.map_nil, List.append_nil] at hperm
  exact hperm

theorem apply_pickAll {vocabulary : Payload} (hne : ∀ term ∈ vocabulary.terms, term.alias_ ≠ []) {text : JsString}
    (h : LocalAll ((subs vocabulary.terms).map fun sub => literal sub.1 sub.2) (text.map .own)) :
    apply text (some vocabulary) = Rewrite.text (tokens (pickAll (subs vocabulary.terms) (text.map .inl))) := by
  rw [← tokens_own] at h
  rw [apply_eq hne, ← rewriteAll_pickAll (subs_ne hne) h, tokens_own, text_own]

/-- **When the terms are replaced all at once:** exactly if, in whatever order they are listed, none is found in or across what
was put in, and none begins within the place where another of its length is replaced. -/
theorem simultaneous_iff {parsed : JsValue} {byteLength : Option Nat} {vocabulary : Payload}
    (h : validate parsed byteLength = .ok vocabulary) (text : JsString) :
    Simultaneous vocabulary text ↔ Undisturbed vocabulary.terms text := by
  obtain ⟨hvalid, hordered⟩ := valid_of_validate h
  have hx := exclusive_subs hvalid
  constructor
  · intro hsim
    have hdocument : ∀ listed : List Term, listed.Perm vocabulary.terms →
        (rewritten (order listed) text).Perm ((maximal vocabulary.terms text).map event) := fun listed hperm =>
      hsim.once _ _ _ (validate_document (hvalid.perm hperm)) ((perm_order listed).trans hperm)
    have huntouched : ∀ listed : List Term, listed.Perm vocabulary.terms →
        LocalAll ((subs (order listed)).map fun sub => literal sub.1 sub.2) (text.map .own) := by
      intro listed hperm
      have hne := (hvalid.perm ((perm_order listed).trans hperm)).nonempty
      rw [← tokens_own]
      refine localAll_of_events (k := 0) (subs_ne hne) (filled_own text) fun e he => ?_
      rw [cells_own_eq] at he
      obtain ⟨place, -, rfl⟩ := List.mem_map.mp ((hdocument listed hperm).mem_iff.mp he)
      exact ⟨place.1, rfl⟩
    refine ⟨huntouched, clearAll_of_places (k := 0) (subs_ne hvalid.nonempty) hx fun ss hss e he => ?_⟩
    -- a file that lists the terms as they are taken
    have hkeys : ∀ sub ∈ ss, sub.1.length ≤ maxKeyLength := fun sub hsub =>
      subs_keys hvalid.keys sub (hss.mem_iff.mp hsub)
    have hperm : (termsOfSubs (passes ss lengths)).Perm vocabulary.terms := by
      have hmap := ((perm_passes hkeys).trans hss).map fun sub => (⟨sub.1, sub.2⟩ : Term)
      rwa [show List.map _ (subs vocabulary.terms) = vocabulary.terms from termsOfSubs_subs vocabulary.terms] at hmap
    have horder : order (termsOfSubs (passes ss lengths)) = termsOfSubs (passes ss lengths) := by
      refine order_of_byLength ?_
      rw [subs_termsOfSubs]
      exact byLength_passes ss
    have hlocal := huntouched _ hperm
    have hlist := hdocument _ hperm
    rw [horder] at hlocal hlist
    have hne := (hvalid.perm hperm).nonempty
    have hplaces := (rewritten_perm hne hlocal).trans hlist
    rw [subs_termsOfSubs] at hplaces
    obtain ⟨place, hplace, heq⟩ := List.mem_map.mp (hplaces.mem_iff.mp (List.mem_map_of_mem he))
    have hnonempty : e.2.1 ≠ [] := by
      have hmem : e.2 = place.2 := (congrArg Prod.fst heq).symm
      rw [hmem]
      exact subs_ne hvalid.nonempty _ ((mem_maximal_iff hvalid).mp hplace).1
    rw [event_inj hnonempty heq.symm]
    exact hplace
  · intro hundisturbed
    have hlisted : ∀ parsed byteLength listed, validate parsed byteLength = .ok listed → listed.terms.Perm vocabulary.terms →
        LocalAll ((subs listed.terms).map fun sub => literal sub.1 sub.2) (text.map .own) ∧
          (∀ term ∈ listed.terms, term.alias_ ≠ []) ∧
          pickAll (subs listed.terms) (text.map .inl) = stage (subs vocabulary.terms) lengths (text.map .inl) := by
      intro parsed byteLength listed haccepted hperm
      obtain ⟨hvalid', hordered'⟩ := valid_of_validate haccepted
      have hbyLength := byLength_order listed.terms
      have hlocal := hundisturbed.untouched listed.terms hperm
      rw [hordered'] at hbyLength hlocal
      refine ⟨hlocal, hvalid'.nonempty, ?_⟩
      rw [← pickAll_passes hx (hperm.map Term.sub) hundisturbed.clear]
      exact congrArg (pickAll · _) (passes_of_byLength hbyLength (subs_keys hvalid'.keys)).symm
    have hself := hlisted _ _ _ h (.refl _)
    constructor
    · intro parsed byteLength listed haccepted hperm
      obtain ⟨hlocal, hne, hpick⟩ := hlisted parsed byteLength listed haccepted hperm
      have hrewritten := rewritten_perm hne hlocal
      rw [hpick] at hrewritten
      exact hrewritten.symm
    · intro parsed byteLength listed haccepted hperm
      obtain ⟨hlocal, hne, hpick⟩ := hlisted parsed byteLength listed haccepted hperm
      rw [apply_pickAll hne hlocal, apply_pickAll hself.2.1 hself.1, hpick, hself.2.2]

/-- The terms of the example in the source. -/
def exampleTerms : List Term := [⟨js "daemon", js "background service"⟩, ⟨js "pull", js "download"⟩]

theorem undisturbed_example : Undisturbed exampleTerms (js "pull the daemon") := by
  have hall : ∀ listed ∈ exampleTerms.permutations',
      LocalAll ((subs (order listed)).map fun sub => literal sub.1 sub.2) ((js "pull the daemon").map .own) := by
    decide +kernel
  exact ⟨fun listed hperm => hall listed (List.mem_permutations'.mpr hperm), by decide +kernel⟩

theorem valid_example : Valid exampleTerms :=
  ⟨by decide, by decide, by decide, by decide, by decide⟩

theorem simultaneous_example :
    Simultaneous ⟨.num (.ofNat 1), order exampleTerms⟩ (js "pull the daemon") := by
  refine (simultaneous_iff (validate_document valid_example) _).mpr ?_
  rw [show order exampleTerms = exampleTerms by decide]
  exact undisturbed_example

/-- What the first term puts in has the second one in it. -/
def burdens : List Term := [⟨js "pull", js "download"⟩, ⟨js "load", js "burden"⟩]

theorem valid_burdens : Valid burdens :=
  ⟨by decide, by decide, by decide, by decide, by decide⟩

/-- What was put in is rewritten again, in the one order and not in the other. -/
theorem downburden :
    validate (document burdens) none = .ok ⟨.num (.ofNat 1), burdens⟩ ∧
      apply (js "pull") (some ⟨.num (.ofNat 1), burdens⟩) = js "downburden" ∧
      apply (js "pull") (some ⟨.num (.ofNat 1), burdens.reverse⟩) = js "download" ∧
      ¬ Simultaneous ⟨.num (.ofNat 1), burdens⟩ (js "pull") := by
  have hvalidate := validate_document valid_burdens
  have hreverse := validate_document (valid_burdens.perm (List.reverse_perm burdens))
  rw [show order burdens = burdens by decide] at hvalidate
  rw [show order burdens.reverse = burdens.reverse by decide] at hreverse
  have hone : apply (js "pull") (some ⟨.num (.ofNat 1), burdens⟩) = js "downburden" := by decide
  have hother : apply (js "pull") (some ⟨.num (.ofNat 1), burdens.reverse⟩) = js "download" := by decide
  refine ⟨hvalidate, hone, hother, fun h => ?_⟩
  have hsame := h.same _ _ _ hreverse (List.reverse_perm burdens)
  rw [hone, hother] at hsame
  exact absurd hsame (by decide)

end Vocabulary
end MaterialOpenWebui
