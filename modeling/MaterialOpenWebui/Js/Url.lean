import MaterialOpenWebui.Js.Uri
import MaterialOpenWebui.Lib.Pieces
import Mathlib.Data.List.TakeWhile

/-!
# `Js.Url` — addresses

What `new URL` makes of an address whose scheme it does not know and whose host has nothing special: the path with its dots followed,
and the query. Then `URLSearchParams`: names and values, as text and back.
-/

namespace Js

/-! ## Addresses -/

def slash : UInt16 := 0x2f
def queryMark : UInt16 := 0x3f
def fragmentMark : UInt16 := 0x23

/-- What a query must not have. -/
def inQuerySet (c : Char) : Bool := c.toNat ≤ 0x20 || 0x7e < c.toNat || [0x22, 0x23, 0x3c, 0x3e].contains c.toNat

/-- What a path must not have. -/
def inPathSet (c : Char) : Bool := inQuerySet c || [0x3f, 0x5e, 0x60, 0x7b, 0x7d].contains c.toNat

def escapeSet (set : Char → Bool) (s : JsString) : JsString :=
  (scalars s).flatMap fun c => if set c then (String.utf8EncodeChar c).flatMap percentByte else units c

/-- The text that is parsed: without controls and spaces at its ends, and without the ends of lines and tabs in it. -/
def urlText (s : JsString) : JsString :=
  (((s.dropWhile (· ≤ 0x20)).reverse.dropWhile (· ≤ 0x20)).reverse).filter
    fun u => !([0x09, 0x0a, 0x0d] : JsString).contains u

def singleDots : List JsString := [js ".", js "%2e", js "%2E"]

def doubleDots : List JsString := singleDots.flatMap fun a => singleDots.map (a ++ ·)

/-- The path after these segments. Dots at its end leave an empty segment. -/
def segments : List JsString → List JsString → List JsString
  | path, [] => path
  | path, s :: rest =>
    if s ∈ doubleDots then segments (path.dropLast ++ if rest = [] then [[]] else []) rest
    else if s ∈ singleDots then segments (path ++ if rest = [] then [[]] else []) rest
    else segments (path ++ [s]) rest

structure Url where
  pathname : JsString
  query : JsString
deriving DecidableEq

/-- The address of which this comes after the host; it begins with a slash. -/
def afterHost (text : JsString) : Url :=
  let text := text.takeWhile (· ≠ fragmentMark)
  let path := escapeSet inPathSet (text.takeWhile (· ≠ queryMark))
  ⟨(segments [] ((path.drop 1).splitOn slash)).flatMap (slash :: ·),
    escapeSet inQuerySet ((text.dropWhile (· ≠ queryMark)).drop 1)⟩

/-! ## Parameters -/

def ampersand : UInt16 := 0x26
def equals : UInt16 := 0x3d

/-- `params.toString()` -/
def formText (params : List (JsString × JsString)) : JsString :=
  [ampersand].intercalate (params.map fun p => formValue p.1 ++ equals :: formValue p.2)

/-- `url.searchParams` -/
def searchParams (query : JsString) : List (JsString × JsString) :=
  ((query.splitOn ampersand).filter (· ≠ [])).map fun part =>
    (readForm (part.takeWhile (· ≠ equals)), readForm ((part.dropWhile (· ≠ equals)).drop 1))

/-- `params.get(name)` -/
def getParam (params : List (JsString × JsString)) (name : JsString) : Option JsString := params.lookup name

theorem splitPair {sep : UInt16} {name : JsString} (h : sep ∉ name) (value : JsString) :
    (name ++ sep :: value).takeWhile (· ≠ sep) = name ∧ ((name ++ sep :: value).dropWhile (· ≠ sep)).drop 1 = value := by
  have hall : ∀ u ∈ name, decide (u ≠ sep) = true := fun u hu => decide_eq_true fun heq => h (heq ▸ hu)
  have hsep : decide (sep ≠ sep) = false := decide_eq_false (not_not.mpr rfl)
  constructor
  · rw [List.takeWhile_append_of_pos hall, List.takeWhile_cons, hsep]
    exact List.append_nil name
  · rw [List.dropWhile_append_of_pos hall, List.dropWhile_cons, hsep]
    rfl

/-- No separator is written in a name or a value. -/
theorem not_mem_formValue {u : UInt16} (hform : isFormUnit u = false) (hpercent : u ≠ percent)
    (hplus : u ≠ 0x2b) (s : JsString) :
    u ∉ formValue s := by
  intro hu
  rcases mem_formValue hu with h | h | h
  · exact absurd (h.symm.trans hform) Bool.noConfusion
  · exact hpercent h
  · exact hplus h

/-- **Round trip.** The parameters are read as they were, with U+FFFD for surrogates that stand alone. -/
theorem searchParams_formText (params : List (JsString × JsString)) :
    searchParams (formText params) = params.map fun p => (toWellFormed p.1, toWellFormed p.2) := by
  by_cases hnil : params = []
  · rw [hnil]
    decide
  have hsep : ∀ part ∈ params.map (fun p => formValue p.1 ++ equals :: formValue p.2), ampersand ∉ part := by
    intro part hpart
    obtain ⟨p, -, rfl⟩ := List.mem_map.mp hpart
    rw [List.mem_append, List.mem_cons, not_or, not_or]
    exact ⟨not_mem_formValue (by decide) (by decide) (by decide) _, by decide,
      not_mem_formValue (by decide) (by decide) (by decide) _⟩
  rw [searchParams, formText, List.splitOn_intercalate ampersand hsep (by simpa using hnil),
    List.filter_eq_self.mpr, List.map_map]
  · apply List.map_congr_left
    intro p _
    obtain ⟨hname, hvalue⟩ :=
      splitPair (not_mem_formValue (u := equals) (by decide) (by decide) (by decide) p.1) (formValue p.2)
    show (readForm ((formValue p.1 ++ equals :: formValue p.2).takeWhile _),
      readForm (((formValue p.1 ++ equals :: formValue p.2).dropWhile _).drop 1)) = _
    rw [hname, hvalue, readForm_formValue, readForm_formValue]
  · intro part hpart
    obtain ⟨p, -, rfl⟩ := List.mem_map.mp hpart
    simp

/-! ## What is left as it is -/

theorem escapeSet_plain {set : Char → Bool} {s : JsString} (h : ∀ u ∈ s, IsPlain u ∧ set (Char.ofNat u.toNat) = false) :
    escapeSet set s = s := by
  induction s with
  | nil => rfl
  | cons u s ih =>
    obtain ⟨hu, hset⟩ := h u List.mem_cons_self
    have ih := ih fun v hv => h v (List.mem_cons_of_mem u hv)
    rw [escapeSet] at ih ⊢
    rw [scalars_plain hu, List.flatMap_cons, hset, if_neg Bool.false_ne_true, units_bmp hu.1 hu.2, ih]
    rfl

/-- What a component or a form is written with. -/
def isCoded (u : UInt16) : Bool := isUnreserved u || isFormUnit u || (js "%+&=").contains u

/-- A unit that nothing in an address is done with. -/
structure Inert (u : UInt16) : Prop where
  plain : IsPlain u
  inPath : inPathSet (Char.ofNat u.toNat) = false
  inQuery : inQuerySet (Char.ofNat u.toNat) = false
  ne_slash : u ≠ slash
  ne_queryMark : u ≠ queryMark
  ne_fragmentMark : u ≠ fragmentMark
  visible : 0x20 < u ∧ isSpace u = false

theorem inert_of_coded {u : UInt16} (h : isCoded u = true) : Inert u := by
  have halnum : isAlnum u = true → u.toNat < 0x80 := by
    intro hu
    simp only [isAlnum, Bool.or_eq_true, Bool.and_eq_true, decide_eq_true_eq, UInt16.le_iff_toNat_le] at hu
    rcases hu with (⟨-, hu⟩ | ⟨-, hu⟩) | ⟨-, hu⟩ <;> exact Nat.lt_of_le_of_lt hu (by decide)
  have hmem : ∀ {s : JsString}, (∀ v ∈ s, v.toNat < 0x80) → s.contains u = true → u.toNat < 0x80 :=
    fun hs hu => hs u (List.contains_iff_mem.mp hu)
  have hlt : u.toNat < 0x80 := by
    unfold isCoded isUnreserved isFormUnit at h
    simp only [Bool.or_eq_true] at h
    rcases h with ((h | h) | (h | h)) | h
    · exact halnum h
    · exact hmem (by decide) h
    · exact halnum h
    · exact hmem (by decide) h
    · exact hmem (by decide) h
  -- the rest is a table of ASCII
  have hall : ∀ n < 0x80, isCoded (.ofNat n) = true → IsPlain (.ofNat n) ∧
    inPathSet (Char.ofNat (UInt16.ofNat n).toNat) = false ∧
      inQuerySet (Char.ofNat (UInt16.ofNat n).toNat) = false ∧ UInt16.ofNat n ≠ slash ∧ UInt16.ofNat n ≠ queryMark ∧
      UInt16.ofNat n ≠ fragmentMark ∧ 0x20 < UInt16.ofNat n ∧ isSpace (.ofNat n) = false := by decide +kernel
  have hu := hall u.toNat hlt
  rw [ofNat_toNat_unit] at hu
  obtain ⟨hplain, hpath, hquery, hslash, hmark, hfragment, hvisible⟩ := hu h
  exact ⟨hplain, hpath, hquery, hslash, hmark, hfragment, hvisible⟩

theorem coded_component {s coded : JsString} (h : encodeURIComponent s = some coded) {u : UInt16}
    (hu : u ∈ coded) : isCoded u = true := by
  rcases mem_component h hu with hu | rfl
  · rw [isCoded, hu, Bool.true_or, Bool.true_or]
  · rfl

theorem coded_formText {params : List (JsString × JsString)} {u : UInt16} (hu : u ∈ formText params) : isCoded u = true := by
  have hvalue : ∀ {s : JsString}, u ∈ formValue s → isCoded u = true := by
    intro s hs
    rcases mem_formValue hs with hs | rfl | rfl
    · rw [isCoded, hs, Bool.or_true, Bool.true_or]
    · rfl
    · rfl
  unfold formText at hu
  rcases Pieces.mem_intercalate hu with rfl | ⟨part, hpart, hu⟩
  · rfl
  obtain ⟨p, -, rfl⟩ := List.mem_map.mp hpart
  rcases List.mem_append.mp hu with hu | hu
  · exact hvalue hu
  rcases List.mem_cons.mp hu with rfl | hu
  · rfl
  · exact hvalue hu

theorem urlText_of_visible {s : JsString} (h : ∀ u ∈ s, 0x20 < u) : urlText s = s := by
  have hends : ∀ u ∈ s, decide (u ≤ 0x20) = false := fun u hu => decide_eq_false (UInt16.not_le.mpr (h u hu))
  rw [urlText, dropWhile_of_forall hends, dropWhile_of_forall fun u hu => hends u
    (List.mem_reverse.mp hu), List.reverse_reverse]
  apply List.filter_eq_self.mpr
  intro u hu
  have hne : ∀ v ∈ ([0x09, 0x0a, 0x0d] : JsString), v ≤ 0x20 := by decide
  rw [Bool.not_eq_true', ← Bool.not_eq_true, List.contains_iff_mem]
  exact fun hmem => UInt16.not_le.mpr (h u hu) (hne u hmem)

/-- A path of one segment, and a query: only dots are changed. -/
theorem afterHost_coded {label query : JsString} (hlabel : ∀ u ∈ label, isCoded u = true)
    (hquery : ∀ u ∈ query, isCoded u = true) :
    afterHost (slash :: (label ++ queryMark :: query)) =
      ⟨slash :: if label ∈ doubleDots ∨ label ∈ singleDots then [] else label, query⟩ := by
  have hhash : (slash :: (label ++ queryMark :: query)).takeWhile (· ≠ fragmentMark) = slash ::
    (label ++ queryMark :: query) := by
    rw [List.takeWhile_eq_self_iff]
    intro u hu
    apply decide_eq_true
    rcases List.mem_cons.mp hu with rfl | hu
    · decide
    rcases List.mem_append.mp hu with hu | hu
    · exact (inert_of_coded (hlabel u hu)).ne_fragmentMark
    rcases List.mem_cons.mp hu with rfl | hu
    · decide
    · exact (inert_of_coded (hquery u hu)).ne_fragmentMark
  have hmark : ∀ u ∈ slash :: label, decide (u ≠ queryMark) = true := by
    intro u hu
    apply decide_eq_true
    rcases List.mem_cons.mp hu with rfl | hu
    · decide
    · exact (inert_of_coded (hlabel u hu)).ne_queryMark
  have hpath : (slash :: (label ++ queryMark :: query)).takeWhile (· ≠ queryMark) = slash :: label := by
    rw [← List.cons_append, List.takeWhile_append_of_pos hmark, List.takeWhile_cons_of_neg (by decide), List.append_nil]
  have hrest : (slash :: (label ++ queryMark :: query)).dropWhile (· ≠ queryMark) = queryMark :: query := by
    rw [← List.cons_append, List.dropWhile_append_of_pos hmark, List.dropWhile_cons_of_neg (by decide)]
  have hone : label.splitOn slash = [label] :=
    List.splitOn_eq_singleton fun hu => (inert_of_coded (hlabel slash hu)).ne_slash rfl
  have hslash : IsPlain slash ∧ inPathSet (Char.ofNat slash.toNat) = false := by decide
  unfold afterHost
  simp only [hhash, hpath, hrest, List.drop_succ_cons, List.drop_zero]
  rw [escapeSet_plain (List.forall_mem_cons.mpr ⟨hslash,
    fun u hu => ⟨(inert_of_coded (hlabel u hu)).plain, (inert_of_coded (hlabel u hu)).inPath⟩⟩),
    escapeSet_plain fun u hu => ⟨(inert_of_coded (hquery u hu)).plain, (inert_of_coded (hquery u hu)).inQuery⟩]
  show (⟨(segments [] (label.splitOn slash)).flatMap _, query⟩ : Url) = _
  rw [hone, segments]
  by_cases hdouble : label ∈ doubleDots
  · rw [if_pos hdouble, if_pos rfl, if_pos (Or.inl hdouble)]
    rfl
  by_cases hsingle : label ∈ singleDots
  · rw [if_neg hdouble, if_pos hsingle, if_pos rfl, if_pos (Or.inr hsingle)]
    rfl
  · rw [if_neg hdouble, if_neg hsingle, if_neg (not_or.mpr ⟨hdouble, hsingle⟩)]
    show (⟨(slash :: label) ++ [], query⟩ : Url) = _
    rw [List.append_nil]

/-- Dots are dots in a component. -/
theorem dots_component {s coded : JsString} (h : encodeURIComponent s = some coded) :
    coded ∈ doubleDots ∨ coded ∈ singleDots ↔ s = js "." ∨ s = js ".." := by
  constructor
  · intro hdots
    have hread : ∀ dots ∈ doubleDots ++ singleDots, decodeURIComponent dots = some (js ".") ∨
      decodeURIComponent dots = some (js "..") := by
      decide
    have hs := hread coded (List.mem_append.mpr hdots)
    rw [decode_component h, Option.some_inj, Option.some_inj] at hs
    exact hs
  · have hself : encodeURIComponent (js ".") = some (js ".") ∧ encodeURIComponent (js "..") = some (js "..") := by decide
    rintro (rfl | rfl)
    · cases h.symm.trans hself.1
      decide
    · cases h.symm.trans hself.2
      decide

end Js
