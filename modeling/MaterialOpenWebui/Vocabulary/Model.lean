import MaterialOpenWebui.Js.Json
import MaterialOpenWebui.Js.Object
import MaterialOpenWebui.Lib.Rewrite
import MaterialOpenWebui.Lib.Run
import MaterialOpenWebui.Lib.StableSort
import Mathlib.Data.List.Nodup
import Mathlib.Order.OrderDual

/-!
# `Vocabulary.Model` — the personal vocabulary (`app/js/core/vocabulary.js`)

A file lists terms and what is to stand for them. `validate` accepts it whole or names the bound that was crossed, and sorts the
terms, the longest alias first. `apply` replaces them in a text, one term after another.
-/

namespace MaterialOpenWebui
namespace Vocabulary
open Js JsValue

/-! ## The bounds -/

def maxBytes : Nat := 2 * 1024 * 1024
def supportedVersions : List Nat := [1]
def maxTerms : Nat := 5000
def maxDepth : Nat := 6
def maxKeyLength : Nat := 120
def maxValueLength : Nat := 400

/-- `(n / 1024 / 1024).toFixed(2)` -/
def megabytes (n : Nat) : JsString :=
  let hundredths := (n * 100 + 524288) / 1048576
  natText (hundredths / 100) ++ js "." ++ natText (hundredths / 10 % 10) ++ natText (hundredths % 10)

/-- `n.toLocaleString('en-US')` -/
def toLocaleString (n : Nat) : JsString :=
  if n < 1000 then natText n
  else toLocaleString (n / 1000) ++ js "," ++ natText (n / 100 % 10) ++ natText (n / 10 % 10) ++ natText (n % 10)

mutual

/-- How deep a value nests; what is too deep is not looked into. -/
def depthOf (depth : Nat) : JsValue → Nat
  | .arr vs => if maxDepth < depth then depth else deepest depth depth vs
  | .obj ps => if maxDepth < depth then depth else deepestValue depth depth ps
  | _ => depth

def deepest (depth max : Nat) : List JsValue → Nat
  | [] => max
  | v :: vs => deepest depth (Nat.max max (depthOf (depth + 1) v)) vs

def deepestValue (depth max : Nat) : List (JsString × JsValue) → Nat
  | [] => max
  | p :: ps => deepestValue depth (Nat.max max (depthOf (depth + 1) p.2)) ps

end

/-! ## Terms -/

structure Term where
  alias_ : JsString
  replacement : JsString
deriving DecidableEq

/-- `typeof v === 'object' && v !== null && !Array.isArray(v)` -/
def isPlain : JsValue → Bool
  | .obj _ => true
  | _ => false

/-- An entry, by itself. -/
def readEntry (i : Nat) (t : JsValue) : Except JsString Term :=
  let where_ := js "Entry " ++ natText (i + 1)
  if ¬ isPlain t then .error (where_ ++ js " is not an object.")
  else
    match orElse (t.get (js "alias")) (t.get (js "term")) with
    | .str alias_ =>
      if alias_ = [] then .error (where_ ++ js " has no \"alias\" (or \"term\") string.")
      else
        match orElse (t.get (js "replacement")) (t.get (js "value")) with
        | .str replacement =>
          if maxKeyLength < alias_.length then
            .error (where_ ++ js " has an alias of " ++ natText alias_.length ++ js " characters, over the limit of " ++
              natText maxKeyLength ++ js ".")
          else if maxValueLength < replacement.length then
            .error (where_ ++ js " has a replacement of " ++ natText replacement.length ++
              js " characters, over the limit of " ++ natText maxValueLength ++ js ".")
          else .ok { alias_, replacement }
        | _ =>
          .error (where_ ++ js " (\"" ++ alias_.take 24 ++
            js "\") has a non-string replacement. Replacements must be strings.")
    | _ => .error (where_ ++ js " has no \"alias\" (or \"term\") string.")

/-- The entries from the `i`-th on, with the aliases that have been seen. -/
def readEntries : Nat → List JsString → List JsValue → Except JsString (List Term)
  | _, _, [] => .ok []
  | i, seen, t :: ts => do
    let term ← readEntry i t
    if term.alias_ ∈ seen then
      .error (js "The alias \"" ++ term.alias_.take 32 ++
        js "\" appears more than once, so which replacement wins is ambiguous.")
    else do
      let terms ← readEntries (i + 1) (term.alias_ :: seen) ts
      return term :: terms

/-- By the length of the alias, the longest first. -/
def longest (term : Term) : Natᵒᵈ := OrderDual.toDual term.alias_.length

/-- `clean.sort((a, b) => b.alias.length - a.alias.length)` -/
def order (terms : List Term) : List Term := StableSort.sortOn longest terms

/-! ## The file -/

/-- A vocabulary that was accepted. -/
structure Payload where
  version : JsValue
  terms : List Term

/-- `LIMITS.supportedVersions.includes(v)` -/
def isSupported : JsValue → Bool
  | .num n => supportedVersions.any fun m => JsNumber.ofNat m == n
  | _ => false

/-- `LIMITS.supportedVersions.join(' or ')` -/
def versionsText : JsString := joinWith (js " or ") (supportedVersions.map natText)

/-- `'version' in parsed` -/
def hasVersion : JsValue → Bool
  | .obj ps => (ps.lookup (js "version")).isSome
  | _ => false

/-- `parsed.terms ?? parsed.vocabulary ?? parsed.entries` -/
def termsOf (parsed : JsValue) : JsValue :=
  orElse (orElse (parsed.get (js "terms")) (parsed.get (js "vocabulary"))) (parsed.get (js "entries"))

def validate (parsed : JsValue) (byteLength : Option Nat) : Except JsString Payload :=
  if byteLength.any fun n => maxBytes < n then
    .error (js "The file is " ++ megabytes (byteLength.getD 0) ++ js " MB, over the " ++ natText (maxBytes / 1024 / 1024) ++
      js " MB limit.")
  else if ¬ isPlain parsed then .error (js "The top level must be a JSON object.")
  else if ¬ hasVersion parsed then
    .error (js "There is no \"version\" field, so there is no way to know which schema this is.")
  else if ¬ isSupported (parsed.get (js "version")) then
    .error (js "Schema version " ++ ((stringify (parsed.get (js "version"))).map ofChars).getD (js "undefined") ++
      js " is not supported. This build reads version " ++ versionsText ++ js ".")
  else
    match termsOf parsed with
    | .arr terms =>
      if maxTerms < terms.length then
        .error (js "The file has " ++ toLocaleString terms.length ++ js " terms, over the limit of " ++
          toLocaleString maxTerms ++ js ".")
      else if maxDepth < depthOf 0 parsed then
        .error (js "The file nests " ++ natText (depthOf 0 parsed) ++ js " levels deep, over the limit of " ++
          natText maxDepth ++ js ".")
      else do
        let clean ← readEntries 0 [] terms
        return { version := parsed.get (js "version"), terms := order clean }
    | _ => .error (js "There is no \"terms\" array.")

/-! ## The text -/

/-- The parts of a text between separators, when the first `n` characters are behind one. -/
def splitFrom (sep : JsString) : Nat → JsString → List JsString
  | _, [] => [[]]
  | n + 1, _ :: s => splitFrom sep n s
  | 0, c :: s =>
    if sep <+: c :: s then [] :: splitFrom sep (sep.length - 1) s else (splitFrom sep 0 s).modifyHead (c :: ·)

/-- `s.split(sep)`, for a separator that is not empty. -/
def splitOn (sep s : JsString) : List JsString := splitFrom sep 0 s

/-- `if (alias) out = out.split(alias).join(replacement)` -/
def replaceTerm (out : JsString) (term : Term) : JsString :=
  if term.alias_ = [] then out else joinWith term.replacement (splitOn term.alias_ out)

def apply (text : JsString) : Option Payload → JsString
  | none => text
  | some vocabulary => vocabulary.terms.foldl replaceTerm text

/-! ## What is accepted -/

/-- Terms that an accepted file may list. -/
structure Valid (terms : List Term) : Prop where
  count : terms.length ≤ maxTerms
  nonempty : ∀ term ∈ terms, term.alias_ ≠ []
  keys : ∀ term ∈ terms, term.alias_.length ≤ maxKeyLength
  values : ∀ term ∈ terms, term.replacement.length ≤ maxValueLength
  distinct : (terms.map Term.alias_).Nodup

theorem Valid.perm {terms terms' : List Term} (h : Valid terms) (hperm : terms'.Perm terms) : Valid terms' where
  count := hperm.length_eq ▸ h.count
  nonempty := fun term hterm => h.nonempty term (hperm.mem_iff.mp hterm)
  keys := fun term hterm => h.keys term (hperm.mem_iff.mp hterm)
  values := fun term hterm => h.values term (hperm.mem_iff.mp hterm)
  distinct := (hperm.map Term.alias_).nodup_iff.mpr h.distinct

theorem perm_order (terms : List Term) : (order terms).Perm terms := StableSort.perm_sortOn longest terms

/-- What is in order stays as it is. -/
theorem order_of_ascending {terms : List Term} (h : StableSort.Ascending longest terms) : order terms = terms :=
  List.Pairwise.insertionSort_eq h

theorem order_order (terms : List Term) : order (order terms) = order terms :=
  order_of_ascending (StableSort.ascending_sortOn longest terms)

theorem readEntry_ok {i : Nat} {t : JsValue} {term : Term} (h : readEntry i t = .ok term) :
    term.alias_ ≠ [] ∧ term.alias_.length ≤ maxKeyLength ∧ term.replacement.length ≤ maxValueLength := by
  unfold readEntry at h
  split at h
  · cases h
  · split at h
    · split at h
      · cases h
      · rename_i hne
        split at h
        · split at h
          · cases h
          · rename_i hkey
            split at h
            · cases h
            · rename_i hvalue
              cases h
              exact ⟨hne, Nat.le_of_not_lt hkey, Nat.le_of_not_lt hvalue⟩
        · cases h
    · cases h

theorem readEntries_ok {i : Nat} {seen : List JsString} {ts : List JsValue} {terms : List Term}
    (h : readEntries i seen ts = .ok terms) : terms.length = ts.length ∧
      (∀ term ∈ terms, term.alias_ ≠ [] ∧ term.alias_.length ≤ maxKeyLength ∧ term.replacement.length ≤ maxValueLength) ∧
      (terms.map Term.alias_).Nodup ∧ ∀ term ∈ terms, term.alias_ ∉ seen := by
  induction ts generalizing i seen terms with
  | nil =>
    cases h
    exact ⟨rfl, List.forall_mem_nil _, List.nodup_nil, List.forall_mem_nil _⟩
  | cons t ts ih =>
    obtain ⟨term, hterm, h⟩ := Run.bind_ok h
    by_cases hseen : term.alias_ ∈ seen
    · rw [if_pos hseen] at h
      cases h
    · rw [if_neg hseen] at h
      obtain ⟨rest, hrest, h⟩ := Run.bind_ok h
      cases h
      obtain ⟨hlength, hbounds, hnodup, hnew⟩ := ih hrest
      refine ⟨congrArg (· + 1) hlength, List.forall_mem_cons.mpr ⟨readEntry_ok hterm, hbounds⟩, ?_, ?_⟩
      · refine List.nodup_cons.mpr ⟨fun hmem => ?_, hnodup⟩
        obtain ⟨other, hother, heq⟩ := List.mem_map.mp hmem
        exact hnew other hother (heq ▸ List.mem_cons_self)
      · exact List.forall_mem_cons.mpr ⟨hseen, fun other hother hmem => hnew other hother (List.mem_cons_of_mem _ hmem)⟩

/-- **What is accepted** is within every bound, and in order. -/
theorem valid_of_validate {parsed : JsValue} {byteLength : Option Nat} {vocabulary : Payload}
    (h : validate parsed byteLength = .ok vocabulary) : Valid vocabulary.terms ∧
      order vocabulary.terms = vocabulary.terms := by
  unfold validate at h
  split at h
  · cases h
  · split at h
    · cases h
    · split at h
      · cases h
      · split at h
        · cases h
        · split at h
          · split at h
            · cases h
            · rename_i hcount
              split at h
              · cases h
              · obtain ⟨clean, hclean, h⟩ := Run.bind_ok h
                cases h
                obtain ⟨hlength, hbounds, hnodup, -⟩ := readEntries_ok hclean
                have hvalid : Valid clean :=
                  ⟨hlength ▸ Nat.le_of_not_lt hcount, fun term hterm => (hbounds term hterm).1,
                    fun term hterm => (hbounds term hterm).2.1, fun term hterm => (hbounds term hterm).2.2, hnodup⟩
                exact ⟨hvalid.perm (perm_order clean), order_order clean⟩
          · cases h

/-! ## A file that lists given terms -/

def entry (term : Term) : JsValue :=
  .obj [(js "alias", .str term.alias_), (js "replacement", .str term.replacement)]

def document (terms : List Term) : JsValue :=
  .obj [(js "version", .num (.ofNat 1)), (js "terms", .arr (terms.map entry))]

theorem readEntry_entry {i : Nat} {term : Term} (hne : term.alias_ ≠ []) (hkey : term.alias_.length ≤ maxKeyLength)
    (hvalue : term.replacement.length ≤ maxValueLength) : readEntry i (entry term) = .ok term := by
  have halias : orElse ((entry term).get (js "alias")) ((entry term).get (js "term")) = .str term.alias_ := rfl
  have hreplacement : orElse ((entry term).get (js "replacement")) ((entry term).get (js "value")) =
    .str term.replacement := rfl
  rw [readEntry, if_neg (by simp [entry, isPlain]), halias, hreplacement]
  show (if term.alias_ = [] then _ else if _ then _ else if _ then _ else _) = _
  rw [if_neg hne, if_neg (Nat.not_lt.mpr hkey), if_neg (Nat.not_lt.mpr hvalue)]

theorem readEntries_entries {i : Nat} {seen : List JsString} {terms : List Term} (h : Valid terms)
    (hnew : ∀ term ∈ terms, term.alias_ ∉ seen) : readEntries i seen (terms.map entry) = .ok terms := by
  induction terms generalizing i seen with
  | nil => rfl
  | cons term terms ih =>
    have ⟨hhead, hrest⟩ := List.forall_mem_cons.mp hnew
    have ⟨hother, hnodup⟩ := List.nodup_cons.mp h.distinct
    have hvalid : Valid terms :=
      ⟨Nat.le_of_succ_le h.count, fun t ht => h.nonempty t (List.mem_cons_of_mem _ ht),
        fun t ht => h.keys t (List.mem_cons_of_mem _ ht), fun t ht => h.values t (List.mem_cons_of_mem _ ht), hnodup⟩
    have hterms : readEntries (i + 1) (term.alias_ :: seen) (terms.map entry) = .ok terms := by
      refine ih hvalid fun t ht hmem => ?_
      rcases List.mem_cons.mp hmem with heq | hmem
      · exact hother (heq ▸ List.mem_map_of_mem ht)
      · exact hrest t ht hmem
    have hterm := readEntry_entry (i := i) (h.nonempty term List.mem_cons_self) (h.keys term List.mem_cons_self)
      (h.values term List.mem_cons_self)
    rw [List.map_cons, readEntries, hterm]
    show (if term.alias_ ∈ seen then _ else _) = _
    rw [if_neg hhead, hterms]
    rfl

theorem deepest_entries (max : Nat) (terms : List Term) (hmax : max ≤ 3) : deepest 1 max (terms.map entry) ≤ 3 := by
  induction terms generalizing max with
  | nil => exact hmax
  | cons term terms ih => exact ih _ (Nat.max_le.mpr ⟨hmax, Nat.le_refl 3⟩)

theorem depthOf_document (terms : List Term) : depthOf 0 (document terms) ≤ maxDepth := by
  have hterms : depthOf 1 (.arr (terms.map entry)) ≤ 3 := deepest_entries 1 terms (by decide)
  show Nat.max 1 (depthOf 1 (.arr (terms.map entry))) ≤ 6
  exact Nat.max_le.mpr ⟨by decide, hterms.trans (by decide)⟩

/-- **Any terms within the bounds** are accepted, in whatever order they are listed. -/
theorem validate_document {terms : List Term} (h : Valid terms) :
    validate (document terms) none = .ok { version := .num (.ofNat 1), terms := order terms } := by
  have hcount : ¬ maxTerms < (terms.map entry).length := by
    rw [List.length_map]
    exact Nat.not_lt.mpr h.count
  have hdepth : ¬ maxDepth < depthOf 0 (document terms) := Nat.not_lt.mpr (depthOf_document terms)
  have hentries := readEntries_entries (i := 0) h fun term _ => @List.not_mem_nil _ term.alias_
  have hlist : termsOf (document terms) = .arr (terms.map entry) := rfl
  have hversion : (document terms).get (js "version") = .num (.ofNat 1) := rfl
  rw [validate, if_neg (by simp), if_neg (by simp [document, isPlain]), if_neg fun h => h rfl, hversion,
    if_neg (by decide), hlist]
  show (if maxTerms < (terms.map entry).length then _ else if maxDepth < depthOf 0 (document terms) then _ else _) = _
  rw [if_neg hcount, if_neg hdepth, hentries]
  rfl

end Vocabulary
end MaterialOpenWebui
