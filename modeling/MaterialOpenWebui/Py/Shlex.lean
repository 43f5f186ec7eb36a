import MaterialOpenWebui.Py.Text
import MaterialOpenWebui.Lib.Cut
import Mathlib.Data.List.TakeWhile

/-!
# `Py.Shlex` — `shlex.split`, and `str.split` and `str.strip` beside it

`shlex.split` (POSIX mode) reads a text character by character. Quotes of both kinds and the backslash guard what follows; what
is guarded loses its special meaning and stays in the word. White space that is not guarded ends words.

The two kinds of white space differ: four characters separate words for `shlex`, Python knows some more.
-/

namespace Py

def apostrophe : CodePoint := ⟨39, by decide⟩

def quotation : CodePoint := ⟨34, by decide⟩

def backslash : CodePoint := ⟨92, by decide⟩

namespace Shlex
open Cut

/-! ## Modes -/

/-- The state of the reader: outside, in quotes of one kind, or after a backslash (outside or in double quotes). -/
inductive Mode where
  | plain
  | single
  | double
  | escape (inDouble : Bool)
  deriving DecidableEq

def next : Mode → CodePoint → Mode
  | .plain, c =>
    if c = backslash then .escape false
    else if c = apostrophe then .single
    else if c = quotation then .double
    else .plain
  | .single, c => if c = apostrophe then .plain else .single
  | .double, c => if c = quotation then .plain else if c = backslash then .escape true else .double
  | .escape inDouble, _ => if inDouble then .double else .plain

/-- `shlex.whitespace`. -/
def blank (c : CodePoint) : Bool := c.val = 32 || c.val = 9 || c.val = 13 || c.val = 10

/-- What a character adds to its word. In double quotes a backslash guards itself and the quote only. -/
def emitted : Mode → CodePoint → Str
  | .plain, c => if c = backslash ∨ c = apostrophe ∨ c = quotation then [] else [c]
  | .single, c => if c = apostrophe then [] else [c]
  | .double, c => if c = quotation ∨ c = backslash then [] else [c]
  | .escape inDouble, c => if inDouble = true ∧ c ≠ backslash ∧ c ≠ quotation then [backslash, c] else [c]

/-! ## Words -/

/-- The words of a text, given the word that has begun; `none` where quotes or a backslash are left open. -/
def lex : Mode → Option Str → Str → Option (List Str)
  | mode, token, [] => if mode = .plain then some token.toList else none
  | mode, token, c :: s =>
    if mode = .plain ∧ blank c = true then (lex .plain none s).map (token.toList ++ ·)
    else lex (next mode c) (some (token.getD [] ++ emitted mode c)) s

def shlex_split (s : Str) : Option (List Str) := lex .plain none s

/-- All that words are made of. -/
def content : Mode → Str → Str
  | _, [] => []
  | mode, c :: s => (if mode = .plain ∧ blank c = true then [] else emitted mode c) ++ content (next mode c) s

theorem ne_of_isSpace {c d : CodePoint} (hc : c.isSpace = true) (hd : d.isSpace = false) : c ≠ d := by
  rintro rfl
  exact Bool.false_ne_true (hd.symm.trans hc)

theorem next_blank {c : CodePoint} (h : c.isSpace = true) : next .plain c = .plain := by
  have hbackslash := ne_of_isSpace (d := backslash) h rfl
  have hapostrophe := ne_of_isSpace (d := apostrophe) h rfl
  have hquotation := ne_of_isSpace (d := quotation) h rfl
  rw [next, if_neg hbackslash, if_neg hapostrophe, if_neg hquotation]

theorem isSpace_of_blank {c : CodePoint} (h : blank c = true) : c.isSpace = true := by
  simp only [blank, Bool.or_eq_true, decide_eq_true_eq] at h
  rcases h with ((h | h) | h) | h <;> rw [CodePoint.isSpace, h] <;> rfl

theorem lex_isSome (mode : Mode) (token : Option Str) (s : Str) :
    (lex mode token s).isSome = true ↔ run next mode s = .plain := by
  induction s generalizing mode token with
  | nil =>
    rw [lex]
    show _ ↔ mode = .plain
    by_cases h : mode = .plain <;> simp [h]
  | cons c s ih =>
    rw [lex]
    show _ ↔ run next (next mode c) s = .plain
    split
    · rename_i h
      rw [h.1, next_blank (isSpace_of_blank h.2), Option.isSome_map, ih]
    · exact ih _ _

/-- Of what the words are made. -/
theorem flatten_lex {mode : Mode} {token : Option Str} {s : Str} {words : List Str} (h : lex mode token s = some words) :
    words.flatten = token.getD [] ++ content mode s := by
  induction s generalizing mode token words with
  | nil =>
    rw [lex] at h
    split at h
    · cases h
      cases token <;> simp [content]
    · cases h
  | cons c s ih =>
    rw [lex] at h
    rw [content]
    split at h
    · rename_i hblank
      obtain ⟨rest, hrest, rfl⟩ := Option.map_eq_some_iff.mp h
      rw [if_pos hblank, hblank.1, next_blank (isSpace_of_blank hblank.2), List.flatten_append, ih hrest]
      cases token <;> simp
    · rename_i hblank
      rw [if_neg hblank, ih h]
      simp

/-- A word that has begun is a word. -/
theorem lex_ne_nil {mode : Mode} {token : Str} {s : Str} {words : List Str} (h : lex mode (some token) s = some words) :
    words ≠ [] := by
  induction s generalizing mode token with
  | nil =>
    rw [lex] at h
    split at h
    · cases h
      exact List.cons_ne_nil _ _
    · cases h
  | cons c s ih =>
    rw [lex] at h
    split at h
    · obtain ⟨rest, -, rfl⟩ := Option.map_eq_some_iff.mp h
      exact List.cons_ne_nil _ _
    · exact ih h

theorem content_append (mode : Mode) (s t : Str) : content mode (s ++ t) = content mode s ++ content (run next mode s) t := by
  induction s generalizing mode with
  | nil => rfl
  | cons c s ih =>
    rw [List.cons_append, content, content, ih, List.append_assoc]
    rfl

/-! ## White space around -/

theorem run_space {s : Str} (h : ∀ c ∈ s, c.isSpace = true) : run next .plain s = .plain := by
  induction s with
  | nil => rfl
  | cons c s ih =>
    have ⟨hc, hs⟩ := List.forall_mem_cons.mp h
    show run next (next .plain c) s = .plain
    rw [next_blank hc, ih hs]

/-- White space that `shlex` does not know makes words. -/
theorem content_space {s : Str} (h : ∀ c ∈ s, c.isSpace = true) : content .plain s = s.filter fun c => !blank c := by
  induction s with
  | nil => rfl
  | cons c s ih =>
    have ⟨hc, hs⟩ := List.forall_mem_cons.mp h
    rw [content, next_blank hc, ih hs, List.filter_cons]
    cases hblank : blank c with
    | true => rfl
    | false =>
      rw [if_neg fun h => Bool.false_ne_true h.2, emitted,
        if_neg fun h => h.elim (ne_of_isSpace hc rfl) fun h => h.elim (ne_of_isSpace hc rfl) (ne_of_isSpace hc rfl)]
      rfl

theorem lex_blank_append {front : Str} (h : ∀ c ∈ front, blank c = true) (s : Str) :
    lex .plain none (front ++ s) = lex .plain none s := by
  induction front with
  | nil => rfl
  | cons c front ih =>
    have ⟨hc, hfront⟩ := List.forall_mem_cons.mp h
    rw [List.cons_append, lex, if_pos ⟨rfl, hc⟩, ih hfront]
    cases lex .plain none s <;> rfl

theorem lex_append_blank {back : Str} (h : ∀ c ∈ back, blank c = true) (mode : Mode) (token : Option Str) {s : Str}
    (hs : run next mode s = .plain) : lex mode token (s ++ back) = lex mode token s := by
  induction s generalizing mode token with
  | nil =>
    obtain rfl : mode = .plain := hs
    cases back with
    | nil => rfl
    | cons c back =>
      have ⟨hc, hback⟩ := List.forall_mem_cons.mp h
      have hnone := lex_blank_append hback []
      rw [List.append_nil] at hnone
      have hfirst : lex .plain token (c :: back) = (lex .plain none back).map (token.toList ++ ·) := by
        rw [lex, if_pos ⟨rfl, hc⟩]
      rw [List.nil_append, hfirst, hnone]
      cases token <;> rfl
  | cons c s ih =>
    rw [List.cons_append, lex, lex]
    split
    · rename_i hblank
      have hplain : run next .plain s = .plain := by
        have hs' : run next (next mode c) s = .plain := hs
        rwa [hblank.1, next_blank (isSpace_of_blank hblank.2)] at hs'
      rw [ih _ _ hplain]
    · exact ih _ _ hs

/-- There are no words only in blanks. -/
theorem shlex_split_nil_iff {s : Str} : shlex_split s = some [] ↔ ∀ c ∈ s, blank c = true := by
  constructor
  · intro h
    rw [shlex_split] at h
    induction s with
    | nil => exact fun c hc => nomatch hc
    | cons c s ih =>
      rw [lex] at h
      split at h
      · rename_i hblank
        obtain ⟨rest, hrest, hnil⟩ := Option.map_eq_some_iff.mp h
        obtain rfl : rest = [] := hnil
        exact List.forall_mem_cons.mpr ⟨hblank.2, ih hrest⟩
      · exact absurd rfl (lex_ne_nil h)
  · intro h
    have hnone := lex_blank_append h []
    rwa [List.append_nil] at hnone

end Shlex

/-! ## Python's own -/

/-- `s.split()`. -/
def split (s : Str) : List Str := (s.splitOnP CodePoint.isSpace).filter fun word => word ≠ []

theorem flatten_splitOnP (s : Str) : (s.splitOnP CodePoint.isSpace).flatten = s.filter fun c => !c.isSpace := by
  induction s with
  | nil => rfl
  | cons c s ih =>
    rw [List.splitOnP_cons_eq_if_modifyHead, List.filter_cons, ← ih]
    obtain ⟨word, rest, hsplit⟩ := List.exists_cons_of_ne_nil (List.splitOnP_ne_nil CodePoint.isSpace s)
    cases c.isSpace <;> simp [hsplit]

/-- The words have all but the white space. -/
theorem flatten_split (s : Str) : (split s).flatten = s.filter fun c => !c.isSpace := by
  rw [← flatten_splitOnP, split]
  generalize s.splitOnP CodePoint.isSpace = words
  induction words with
  | nil => rfl
  | cons word words ih =>
    rw [List.filter_cons, List.flatten_cons]
    cases word with
    | nil => exact ih
    | cons c word => exact congrArg ((c :: word) ++ ·) ih

/-- What `strip` takes off in front. -/
def leading (s : Str) : Str := s.takeWhile CodePoint.isSpace

/-- What `strip` takes off at the end. -/
def trailing (s : Str) : Str := ((s.dropWhile CodePoint.isSpace).reverse.takeWhile CodePoint.isSpace).reverse

theorem strip_spec (s : Str) : leading s ++ (strip s ++ trailing s) = s := by
  rw [strip, trailing, ← List.reverse_append, List.takeWhile_append_dropWhile, List.reverse_reverse, leading,
    List.takeWhile_append_dropWhile]

theorem isSpace_leading {s : Str} : ∀ c ∈ leading s, c.isSpace = true := fun _ hc => List.mem_takeWhile_imp hc

theorem isSpace_trailing {s : Str} : ∀ c ∈ trailing s, c.isSpace = true :=
  fun _ hc => List.mem_takeWhile_imp (List.mem_reverse.mp hc)

/-- What is left does not end with white space. -/
theorem strip_eq_nil {s : Str} (h : ∀ c ∈ strip s, c.isSpace = true) : strip s = [] := by
  have hlast := List.head?_dropWhile_not CodePoint.isSpace (s.dropWhile CodePoint.isSpace).reverse
  rw [strip] at h ⊢
  cases hrest : (s.dropWhile CodePoint.isSpace).reverse.dropWhile CodePoint.isSpace with
  | nil => rfl
  | cons c rest =>
    rw [hrest] at h hlast
    exact absurd ((h c (by simp)).symm.trans hlast) Bool.true_eq_false.mp

end Py
