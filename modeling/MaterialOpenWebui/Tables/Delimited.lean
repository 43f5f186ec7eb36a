import MaterialOpenWebui.Js.Decoder
import MaterialOpenWebui.Js.Json
import MaterialOpenWebui.Js.Object
import MaterialOpenWebui.Lib.Quoted

/-!
# `Tables.Delimited` — exports with delimiters (`docs/assets/js/formats.js`)

Rows are written as lines of fields, below a line with the names of the columns. A field that a spreadsheet would take for a
formula gets an apostrophe before it; one with a delimiter, a quote or a line break is put in quotes. The reader that the writer
is checked against reads character by character.

What a value finds under a name that is not its own is given, functions as their texts.
-/

namespace MaterialOpenWebui
namespace Tables
open Js JsValue Quoted

/-! ## The writer -/

/-- The own enumerable properties of a value. -/
def ownProps : JsValue → List (JsString × JsValue)
  | .obj ps => ps
  | .arr vs => vs.zipIdx.map fun p => (natText p.2, p.1)
  | .str s => s.zipIdx.map fun p => (natText p.2, .str [p.1])
  | _ => []

theorem keys_arr (vs : List JsValue) : (ownProps (.arr vs)).map Prod.fst = (List.range vs.length).map natText := by
  show (vs.zipIdx.map fun p => (natText p.2, p.1)).map Prod.fst = _
  rw [List.map_map, List.range_eq_range', ← List.zipIdx_map_snd 0 vs, List.map_map]
  rfl

/-- A value names its properties once, if it does so as an object. -/
theorem nodup_keys {v : JsValue} (h : ∀ ps, v = .obj ps → (ps.map Prod.fst).Nodup) : ((ownProps v).map Prod.fst).Nodup := by
  cases v with
  | obj ps => exact h ps rfl
  | arr vs =>
    rw [keys_arr]
    exact List.nodup_range.map natText_injective
  | str s =>
    show ((s.zipIdx.map fun p => (natText p.2, JsValue.str [p.1])).map Prod.fst).Nodup
    rw [List.map_map]
    have hindices : s.zipIdx.map (Prod.fst ∘ fun p => (natText p.2, JsValue.str [p.1])) =
      (List.range s.length).map natText := by
      rw [List.range_eq_range', ← List.zipIdx_map_snd 0 s, List.map_map]
      rfl
    rw [hindices]
    exact List.nodup_range.map natText_injective
  | _ => exact List.nodup_nil

/-- `Object.entries(row || {})` -/
def entriesOf (row : JsValue) : List (JsString × JsValue) := if row.truthy then ownProps row else []

/-- `Object.keys(row || {})`. -/
def keysOf (row : JsValue) : List JsString := if row.truthy then (ownProps row).map Prod.fst else []

/-- `.replace(/u/g, text)` -/
def replaceUnit (u : UInt16) (text : String) (s : JsString) : JsString := s.flatMap fun v => if v = u then js text else [v]

/-- The union of every key across the rows, in first-seen order. -/
def columns (rows : List JsValue) : List JsString :=
  rows.foldl (fun seen row => (keysOf row).foldl (fun seen key => if key ∈ seen then seen else seen ++ [key]) seen) []

def scalar : JsValue → JsString
  | .undefined => []
  | .null => []
  | .arr vs => ofChars ((stringify (.arr vs)).getD [])
  | .obj ps => ofChars ((stringify (.obj ps)).getD [])
  | v => v.toStr.getD []

def quote : UInt16 := 0x22

def CR : UInt16 := 0x0d

def LF : UInt16 := 0x0a

/-- `/^[=+\-@\t\r]/` -/
def isFormula : JsString → Bool
  | [] => false
  | u :: _ => u ∈ js "=+-@" ++ [0x09, CR]

/-- The leading-formula guard. -/
def guarded (text : JsString) : JsString := if isFormula text then js "'" ++ text else text

def mustQuote (delimiter : UInt16) (text : JsString) : Bool :=
  delimiter ∈ text || quote ∈ text || LF ∈ text || CR ∈ text

def delimitedField (value : JsValue) (delimiter : UInt16) : JsString :=
  let text := guarded (scalar value)
  field quote (mustQuote delimiter text) text

variable (inherited : JsValue → JsString → JsValue)

/-- `row ? row[c] : ''` -/
def cellOf (row : JsValue) (c : JsString) : JsValue :=
  if row.truthy then ((ownProps row).lookup c).getD (inherited row c) else .str []

def CRLF : JsString := [CR, LF]

def delimited (rows : List JsValue) (delimiter : UInt16) : JsString :=
  let cols := columns rows
  let lines := joinWith [delimiter] (cols.map fun c => delimitedField (.str c) delimiter) ::
    rows.map fun row => joinWith [delimiter] (cols.map fun c => delimitedField (cellOf inherited row c) delimiter)
  joinWith CRLF lines ++ CRLF

/-! ## The reader -/

/-- The rows that are complete, and the row and the field that have begun. -/
structure Reader where
  rows : List (List JsString)
  row : List JsString
  field : JsString

def Reader.put (s : Reader) (ch : UInt16) : Reader := { s with field := s.field ++ [ch] }

def Reader.endField (s : Reader) : Reader := { s with row := s.row ++ [s.field], field := [] }

def Reader.endRow (s : Reader) : Reader := ⟨s.rows ++ [s.row ++ [s.field]], [], []⟩

/-- The loop; `skip` where `i += 2` has gone beyond the next character. -/
def readDelimited (delimiter : UInt16) : Bool → Bool → Reader → JsString → Reader
  | _, _, s, [] => s
  | true, quoted, s, _ :: rest => readDelimited delimiter false quoted s rest
  | false, true, s, ch :: rest =>
    if ch = quote then
      if rest.head? = some quote then readDelimited delimiter true true (s.put quote) rest
      else readDelimited delimiter false false s rest
    else readDelimited delimiter false true (s.put ch) rest
  | false, false, s, ch :: rest =>
    if ch = quote then readDelimited delimiter false true s rest
    else if ch = delimiter then readDelimited delimiter false false s.endField rest
    else if ch = CR ∧ rest.head? = some LF then readDelimited delimiter true false s.endRow rest
    else if ch = LF ∨ ch = CR then readDelimited delimiter false false s.endRow rest
    else readDelimited delimiter false false (s.put ch) rest

/-- The rows, with one that has begun. -/
def Reader.allRows (s : Reader) : List (List JsString) :=
  if s.field ≠ [] ∨ s.row ≠ [] then s.rows ++ [s.row ++ [s.field]] else s.rows

def parseDelimited (text : JsString) (delimiter : UInt16) : List (List (JsString × JsString)) :=
  match (readDelimited delimiter false false ⟨[], [], []⟩ text).allRows with
  | [] => []
  | header :: rows => rows.map fun r => fromEntries (header.zipIdx.map fun h => (h.1, (r[h.2]?).getD []))

/-! ## Round trip -/

/-- The delimiters of the two formats. -/
def IsDelimiter (delimiter : UInt16) : Prop := delimiter = 0x2c ∨ delimiter = 0x09

section
variable {delimiter : UInt16} (hdelimiter : IsDelimiter delimiter)
include hdelimiter

theorem IsDelimiter.ne : delimiter ≠ quote ∧ delimiter ≠ CR ∧ delimiter ≠ LF := by
  rcases hdelimiter with rfl | rfl <;> decide

omit hdelimiter in
theorem reads_readDelimited : Reads (readDelimited delimiter false) Reader.put quote
    (fun c => c = delimiter ∨ c = quote ∨ c = LF ∨ c = CR) where
  opening s rest := by rw [readDelimited, if_pos rfl]
  doubled s rest := by
    rw [readDelimited, if_pos rfl, List.head?_cons, if_pos rfl]
    rfl
  closing s rest hrest := by rw [readDelimited, if_pos rfl, if_neg hrest]
  inside s c rest hc := by rw [readDelimited, if_neg hc]
  plain s c rest hc := by
    simp only [not_or] at hc
    obtain ⟨hd, hq, hl, hr⟩ := hc
    rw [readDelimited, if_neg hq, if_neg hd, if_neg (fun h => hr h.1), if_neg (fun h => h.elim hl hr)]

omit hdelimiter in
/-- One field of the writer, and what follows it. -/
theorem read_field (value : JsValue) (s : Reader) {rest : JsString} (hrest : rest.head? ≠ some quote) :
    readDelimited delimiter false false s (delimitedField value delimiter ++ rest) =
      readDelimited delimiter false false { s with field := s.field ++ guarded (scalar value) } rest := by
  have hmust : mustQuote delimiter (guarded (scalar value)) = false →
      ∀ c ∈ guarded (scalar value), ¬ (c = delimiter ∨ c = quote ∨ c = LF ∨ c = CR) := by
    intro h c hc
    simp only [mustQuote, Bool.or_eq_false_iff, decide_eq_false_iff_not] at h
    rintro (rfl | rfl | rfl | rfl)
    · exact h.1.1.1 hc
    · exact h.1.1.2 hc
    · exact h.1.2 hc
    · exact h.2 hc
  have hput : ∀ (t : JsString) (s : Reader), t.foldl Reader.put s = { s with field := s.field ++ t } := by
    intro t
    induction t with
    | nil =>
      intro s
      rw [List.append_nil]
      rfl
    | cons c t ih =>
      intro s
      rw [List.foldl_cons, ih]
      show Reader.mk s.rows s.row (s.field ++ [c] ++ t) = _
      rw [List.append_assoc, List.singleton_append]
  rw [delimitedField, reads_readDelimited.field hmust s hrest, hput]

theorem read_delimiter (s : Reader) (rest : JsString) :
    readDelimited delimiter false false s (delimiter :: rest) = readDelimited delimiter false false s.endField rest := by
  rw [readDelimited, if_neg hdelimiter.ne.1, if_pos rfl]

theorem read_crlf (s : Reader) (rest : JsString) :
    readDelimited delimiter false false s (CRLF ++ rest) = readDelimited delimiter false false s.endRow rest := by
  show readDelimited delimiter false false s (CR :: LF :: rest) = _
  rw [readDelimited, if_neg (by decide), if_neg (fun h => hdelimiter.ne.2.1 h.symm), if_pos ⟨rfl, rfl⟩]
  rfl

/-- One line. -/
theorem read_line {values : List JsValue} (hne : values ≠ []) (rows : List (List JsString)) (row : List JsString)
    (rest : JsString) :
    readDelimited delimiter false false ⟨rows, row, []⟩
        (joinWith [delimiter] (values.map fun v => delimitedField v delimiter) ++ (CRLF ++ rest)) =
      readDelimited delimiter false false ⟨rows ++ [row ++ values.map fun v => guarded (scalar v)], [], []⟩ rest := by
  induction values generalizing row with
  | nil => exact absurd rfl hne
  | cons v values ih =>
    cases values with
    | nil =>
      show readDelimited delimiter false false _ (delimitedField v delimiter ++ (CRLF ++ rest)) = _
      rw [read_field v _ (by show some CR ≠ some quote; decide), read_crlf hdelimiter]
      rfl
    | cons v' values =>
      show readDelimited delimiter false false _ (delimitedField v delimiter ++ [delimiter] ++
        joinWith [delimiter] _ ++ _) = _
      rw [List.append_assoc, List.append_assoc, read_field v]
      · rw [List.singleton_append, read_delimiter hdelimiter]
        refine (ih (List.cons_ne_nil _ _) (row ++ [guarded (scalar v)])).trans ?_
        rw [List.append_assoc, List.singleton_append]
        rfl
      · intro h
        exact hdelimiter.ne.1 (Option.some.inj h)

/-- Lines of fields, each with its break. -/
theorem read_lines {lines : List (List JsValue)} (hne : ∀ values ∈ lines, values ≠ []) (rows : List (List JsString)) :
    readDelimited delimiter false false ⟨rows, [], []⟩
        (lines.flatMap fun values => joinWith [delimiter] (values.map fun v => delimitedField v delimiter) ++ CRLF) =
      ⟨rows ++ lines.map fun values => values.map fun v => guarded (scalar v), [], []⟩ := by
  induction lines generalizing rows with
  | nil => exact congrArg (Reader.mk · [] []) (List.append_nil rows).symm
  | cons values lines ih =>
    rw [List.flatMap_cons, List.append_assoc, read_line hdelimiter (hne values List.mem_cons_self),
      ih (fun values h => hne values (List.mem_cons_of_mem _ h)), List.append_assoc]
    rfl

end

theorem wellFormed_joinWith_iff {sep : JsString} (hsep : sep ≠ []) (hall : ∀ u ∈ sep, IsPlain u) {ls : List JsString} :
    WellFormed (joinWith sep ls) ↔ ∀ l ∈ ls, WellFormed l := by
  induction ls with
  | nil => exact iff_of_true rfl (List.forall_mem_nil _)
  | cons l ls ih =>
    cases ls with
    | nil => exact List.forall_mem_singleton.symm
    | cons l' ls =>
      rw [List.forall_mem_cons, ← ih, joinWith, List.append_assoc]
      exact wellFormed_markup hsep hall

theorem joinWith_flatMap (sep : JsString) {lines : List JsString} (h : lines ≠ []) :
    joinWith sep lines ++ sep = lines.flatMap (· ++ sep) := by
  induction lines with
  | nil => exact absurd rfl h
  | cons line lines ih =>
    cases lines with
    | nil => exact (List.append_nil _).symm
    | cons line' lines =>
      rw [joinWith, List.append_assoc, ih (List.cons_ne_nil _ _)]
      rfl

/-- The values of the columns, below their names. -/
def cellsOf (rows : List JsValue) : List (List JsValue) :=
  (columns rows).map .str :: rows.map fun row => (columns rows).map (cellOf inherited row)

theorem delimited_eq (rows : List JsValue) (delimiter : UInt16) :
    delimited inherited rows delimiter = (cellsOf inherited rows).flatMap fun values =>
      joinWith [delimiter] (values.map fun v => delimitedField v delimiter) ++ CRLF := by
  have hlines : joinWith [delimiter] ((columns rows).map fun c => delimitedField (.str c) delimiter) ::
      (rows.map fun row => joinWith [delimiter] ((columns rows).map fun c => delimitedField
        (cellOf inherited row c) delimiter)) =
        (cellsOf inherited rows).map fun values => joinWith [delimiter] (values.map fun v => delimitedField v delimiter) := by
    simp [cellsOf, Function.comp_def]
  show joinWith CRLF (_ :: _) ++ CRLF = _
  rw [hlines, joinWith_flatMap _ (by simp [cellsOf]), List.flatMap_map]

/-- A record that has every column is read with each. -/
theorem zip_columns (cols : List JsString) (name cell : JsString → JsString) :
    ((cols.map name).zipIdx.map fun h => (h.1, (((cols.map cell)[h.2]?).getD []))) =
      cols.map fun c => (name c, cell c) := by
  apply List.ext_getElem?
  intro n
  rw [List.getElem?_map, List.getElem?_zipIdx, List.getElem?_map, List.getElem?_map]
  cases h : cols[n]? with
  | none => rfl
  | some c => simp [h]

/-- The row as its columns, in the order of an object. -/
def projected (rows : List JsValue) (row : JsValue) : List (JsString × JsString) :=
  ownOrder ((columns rows).map fun c => (guarded c, guarded (scalar (cellOf inherited row c))))

/-- **Round trip.** The rows are read back, projected to their columns, each cell with the text of its value, guarded. -/
theorem parseDelimited_delimited {delimiter : UInt16} (hdelimiter : delimiter = 0x2c ∨ delimiter = 0x09) {rows : List JsValue}
    (hcolumns : columns rows ≠ []) (hdistinct : ((columns rows).map guarded).Nodup) :
    parseDelimited (delimited inherited rows delimiter) delimiter = rows.map (projected inherited rows) := by
  have hne : ∀ values ∈ cellsOf inherited rows, values ≠ [] := by
    intro values hvalues
    obtain rfl | ⟨row, -, rfl⟩ : values = (columns rows).map .str ∨
        ∃ row ∈ rows, (columns rows).map (cellOf inherited row) = values :=
      (List.mem_cons.mp hvalues).imp id List.mem_map.mp
    · exact fun h => hcolumns (List.map_eq_nil_iff.mp h)
    · exact fun h => hcolumns (List.map_eq_nil_iff.mp h)
  have hread := read_lines hdelimiter hne []
  rw [← delimited_eq] at hread
  rw [parseDelimited, hread]
  show List.map _ (List.map _ (List.map _ rows)) = _
  rw [List.map_map, List.map_map]
  refine List.map_congr_left fun row _ => ?_
  show fromEntries ((((columns rows).map JsValue.str).map fun v => guarded (scalar v)).zipIdx.map fun h =>
    (h.1, ((((columns rows).map (cellOf inherited row)).map fun v => guarded (scalar v))[h.2]?).getD [])) = _
  rw [List.map_map, List.map_map, zip_columns, fromEntries_of_nodup]
  · rfl
  · rw [List.map_map]
    exact hdistinct

theorem parseDelimited_delimited_of_formula :
    let rows : List JsValue :=
      [.obj [(js "a,b", .str (js "=1\r\n\"x\"")), (js "+n", .null)], .obj [(js "+n", .arr [.bool true])]]
    columns rows ≠ [] ∧ ((columns rows).map guarded).Nodup ∧
      parseDelimited (delimited (fun _ => ofPrototype) rows 0x2c) 0x2c = rows.map (projected (fun _ => ofPrototype) rows) :=
  have hcolumns := by decide
  have hdistinct := by decide
  ⟨hcolumns, hdistinct, parseDelimited_delimited _ (.inl rfl) hcolumns hdistinct⟩

end Tables
end MaterialOpenWebui
