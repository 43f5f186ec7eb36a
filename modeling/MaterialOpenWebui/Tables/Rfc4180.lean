import MaterialOpenWebui.Tables.Convert

/-!
# `Tables.Rfc4180` — what the converter keeps of a CSV file

A CSV file as RFC 4180 has it: a header, records of as many cells, and any cell in quotes, as long as those with a comma, a quote
or a line break are. The converter says that it destroys nothing, and it reads quotes; but it has cut the text at every line
break before.
-/

namespace MaterialOpenWebui
namespace Tables
open Js JsValue Quoted

/-! ## The file -/

/-- A table as the grammar has it; of each cell, the text and whether it stands in quotes. -/
structure CsvTable where
  header : List (JsString × Bool)
  rows : List (List (JsString × Bool))
  header_ne : header ≠ []
  names : ∀ cell ∈ header, cell.1 ≠ []
  distinct : (header.map Prod.fst).Nodup
  width : ∀ row ∈ rows, row.length = header.length
  grammar : ∀ row ∈ header :: rows, ∀ cell ∈ row, mustQuote comma cell.1 = true → cell.2 = true

def lineOf (cells : List (JsString × Bool)) : JsString := joinWith [comma] (cells.map cellText)

/-- The text of the file, with a line break at its end or without. -/
def CsvTable.text (t : CsvTable) (final : Bool) : JsString :=
  joinWith CRLF ((t.header :: t.rows).map lineOf) ++ if final then CRLF else []

/-- What a record says. -/
def CsvTable.object (t : CsvTable) (row : List (JsString × Bool)) : List (JsString × JsString) :=
  ownOrder ((t.header.map Prod.fst).zip (row.map Prod.fst))

/-! ## Its lines -/

theorem readable_of_grammar {cell : JsString × Bool} (h : mustQuote comma cell.1 = true → cell.2 = true) : Readable cell := by
  intro hcell
  have hmust : mustQuote comma cell.1 = false := by
    rw [← Bool.not_eq_true]
    intro hmust
    exact absurd (h hmust) (by rw [hcell]; exact Bool.false_ne_true)
  simp only [mustQuote, Bool.or_eq_false_iff, decide_eq_false_iff_not] at hmust
  exact ⟨hmust.1.1.1, hmust.1.1.2⟩

theorem CsvTable.parseLine_lineOf (t : CsvTable) {row : List (JsString × Bool)} (hrow : row ∈ t.header :: t.rows) :
    parseLine (lineOf row) = row.map Prod.fst := by
  refine parseLine_joined _ ?_ fun cell hcell => readable_of_grammar (t.grammar row hrow cell hcell)
  rcases List.mem_cons.mp hrow with rfl | hrow
  · exact t.header_ne
  · intro hnil
    have hwidth := t.width row hrow
    rw [hnil] at hwidth
    exact t.header_ne (List.length_eq_zero_iff.mp hwidth.symm)

theorem noLf_lineOf {row : List (JsString × Bool)} (h : ∀ cell ∈ row, LF ∉ cell.1) : LF ∉ lineOf row := by
  intro hmem
  rcases mem_joinWith hmem with hmem | ⟨text, htext, hmem⟩
  · exact absurd hmem (by decide)
  · obtain ⟨cell, hcell, rfl⟩ := List.mem_map.mp htext
    exact (mem_of_mem_field hmem).elim (by decide) (h cell hcell)

theorem wellFormed_lineOf {row : List (JsString × Bool)} (h : ∀ cell ∈ row, WellFormed cell.1) : WellFormed (lineOf row) := by
  refine wellFormed_joinWith (by decide) fun text htext => ?_
  obtain ⟨cell, hcell, rfl⟩ := List.mem_map.mp htext
  exact wellFormed_cellText (h cell hcell)

theorem lineOf_ne_nil {cell : JsString × Bool} (h : cell.1 ≠ []) (row : List (JsString × Bool)) :
    lineOf (cell :: row) ≠ [] := by
  have hcell : cellText cell ≠ [] := by
    rw [cellText, field]
    split
    · exact List.cons_ne_nil _ _
    · exact h
  intro hnil
  cases row with
  | nil => exact hcell hnil
  | cons cell' row => exact hcell (List.append_eq_nil_iff.mp (List.append_eq_nil_iff.mp hnil).1).1

/-- Lines that have no break are cut where they were put together. -/
theorem splitLines_lines {ls : List JsString} (hne : ls ≠ []) (h : ∀ l ∈ ls, LF ∉ l) (final : Bool) :
    splitLines [] (joinWith CRLF ls ++ if final then CRLF else []) = ls ++ if final then [[]] else [] := by
  induction ls with
  | nil => exact absurd rfl hne
  | cons l ls ih =>
    cases ls with
    | nil =>
      cases final with
      | true => exact splitLines_crlf (h l List.mem_cons_self) []
      | false => exact (congrArg _ (List.append_nil l)).trans (splitLines_last (h l List.mem_cons_self) [])
    | cons l' ls =>
      show splitLines [] (l ++ CRLF ++ joinWith CRLF (l' :: ls) ++ _) = _
      rw [List.append_assoc, List.append_assoc, splitLines_crlf (h l List.mem_cons_self),
        ih (List.cons_ne_nil _ _) fun l hl => h l (List.mem_cons_of_mem _ hl)]
      rfl

theorem linesOf_lines {ls : List JsString} (hne : ls ≠ []) (h : ∀ l ∈ ls, LF ∉ l) (final : Bool) :
    linesOf (joinWith CRLF ls ++ if final then CRLF else []) = ls.filter fun l => l ≠ [] := by
  rw [linesOf, splitLines_lines hne h, List.filter_append]
  cases final <;> exact List.append_nil _

/-- The text with its mark dropped, if it has one: all is in the first line. -/
theorem dropBom_lines {l : JsString} (hl : l ≠ []) (ls : List JsString) (rest : JsString) :
    dropBom (joinWith CRLF (l :: ls) ++ rest) = joinWith CRLF (dropBom l :: ls) ++ rest := by
  have hcons : ∃ back, ∀ s : JsString, joinWith CRLF (s :: ls) ++ rest = s ++ back := by
    cases ls with
    | nil => exact ⟨rest, fun s => rfl⟩
    | cons l' ls => exact ⟨CRLF ++ joinWith CRLF (l' :: ls) ++ rest, fun s => by simp [joinWith]⟩
  obtain ⟨back, hback⟩ := hcons
  rw [hback, hback, dropBom_append hl]

/-! ## The law -/

namespace CsvTable
variable (t : CsvTable)

/-- What the converter needs of a file: no name in the header has a line feed; and if there are records, no cell has one or a
surrogate that stands alone, no mark would be dropped from the first name, and no record is an empty line. -/
structure Kept : Prop where
  names : ∀ cell ∈ t.header, LF ∉ cell.1
  cells : t.rows ≠ [] → ∀ row ∈ t.header :: t.rows, ∀ cell ∈ row, LineText cell.1
  mark : t.rows ≠ [] → (lineOf t.header).head? ≠ some 0xfeff
  lines : ∀ row ∈ t.rows, lineOf row ≠ []

theorem header_line_ne : lineOf t.header ≠ [] := by
  obtain ⟨cell, cells, hheader⟩ := List.exists_cons_of_ne_nil t.header_ne
  rw [hheader]
  exact lineOf_ne_nil (t.names cell (hheader ▸ List.mem_cons_self)) cells

variable {t}

theorem wellFormed_text (h : ∀ row ∈ t.header :: t.rows, ∀ cell ∈ row, LineText cell.1) (final : Bool) :
    WellFormed (t.text final) := by
  refine WellFormed.append (wellFormed_joinWith (by decide) fun l hl => ?_) (by cases final <;> decide)
  obtain ⟨row, hrow, rfl⟩ := List.mem_map.mp hl
  exact wellFormed_lineOf fun cell hcell => (h row hrow cell hcell).wellFormed

/-- The lines that are read, where the cells are kept. -/
theorem linesOf_text (h : ∀ row ∈ t.header :: t.rows, ∀ cell ∈ row, LineText cell.1) (final : Bool) :
    linesOf (textDecoder (blob (t.text final))) =
      (dropBom (lineOf t.header) :: t.rows.map lineOf).filter fun l => l ≠ [] := by
  rw [textDecoder_blob (wellFormed_text h final), text, List.map_cons, dropBom_lines t.header_line_ne]
  refine linesOf_lines (List.cons_ne_nil _ _) ?_ final
  intro l hl hlf
  rcases List.mem_cons.mp hl with rfl | hl
  · exact noLf_lineOf (fun cell hcell => (h t.header List.mem_cons_self cell hcell).noLf) (mem_of_mem_dropBom hlf)
  · obtain ⟨row, hrow, rfl⟩ := List.mem_map.mp hl
    exact noLf_lineOf (fun cell hcell => (h row (List.mem_cons_of_mem _ hrow) cell hcell).noLf) hlf

theorem recordsOf_text (h : t.Kept) (hrows : t.rows ≠ []) (final : Bool) :
    recordsOf (textDecoder (blob (t.text final))) = t.rows.map t.object := by
  have hmark : dropBom (lineOf t.header) = lineOf t.header := by
    have hhead := h.mark hrows
    cases hline : lineOf t.header with
    | nil => rfl
    | cons u line =>
      rw [hline] at hhead
      exact if_neg fun hu => hhead (congrArg some hu)
  have hfilter : (lineOf t.header :: t.rows.map lineOf).filter (fun l => l ≠ []) = lineOf t.header :: t.rows.map lineOf := by
    refine List.filter_eq_self.mpr fun l hl => decide_eq_true ?_
    rcases List.mem_cons.mp hl with rfl | hl
    · exact t.header_line_ne
    · obtain ⟨row, hrow, rfl⟩ := List.mem_map.mp hl
      exact h.lines row hrow
  rw [recordsOf, linesOf_text (h.cells hrows), hmark, hfilter]
  show (t.rows.map lineOf).map (recordOf (parseLine (lineOf t.header))) = _
  rw [t.parseLine_lineOf List.mem_cons_self, List.map_map]
  refine List.map_congr_left fun row hrow => ?_
  refine recordOf_eq ?_ t.distinct ?_ (t.parseLine_lineOf (List.mem_cons_of_mem _ hrow))
  · intro k hk
    obtain ⟨cell, hcell, rfl⟩ := List.mem_map.mp hk
    exact t.names cell hcell
  · rw [List.length_map, List.length_map, t.width row hrow]

/-- A header alone makes no record, if it has no line feed. -/
theorem recordsOf_header (h : ∀ cell ∈ t.header, LF ∉ cell.1) (hrows : t.rows = []) (final : Bool) :
    recordsOf (textDecoder (blob (t.text final))) = [] := by
  have hline : LF ∉ toWellFormed (lineOf t.header) := fun hlf => noLf_lineOf h (mem_of_mem_toWellFormed (by decide) hlf)
  have hne : toWellFormed (lineOf t.header) ≠ [] := by
    intro hnil
    have hlength := length_toWellFormed (lineOf t.header)
    rw [hnil] at hlength
    exact t.header_line_ne (List.length_eq_zero_iff.mp hlength.symm)
  have htext : toWellFormed (t.text final) = joinWith CRLF [toWellFormed (lineOf t.header)] ++
    if final then CRLF else [] := by
    rw [text, hrows]
    cases final with
    | false =>
      show toWellFormed (lineOf t.header ++ []) = toWellFormed (lineOf t.header) ++ []
      rw [List.append_nil, List.append_nil]
    | true => exact toWellFormed_append (by decide) (lineOf t.header) [LF]
  have hlf : ∀ l ∈ [dropBom (toWellFormed (lineOf t.header))], LF ∉ l := by
    intro l hl
    rw [List.mem_singleton.mp hl]
    exact fun hmem => hline (mem_of_mem_dropBom hmem)
  have hlength : (recordsOf (textDecoder (blob (t.text final)))).length = 0 := by
    rw [length_recordsOf, textDecoder, blob, decode_utf8, htext, dropBom_lines hne, linesOf_lines (List.cons_ne_nil _ _) hlf]
    have hle := List.length_filter_le (fun l => decide (l ≠ [])) [dropBom (toWellFormed (lineOf t.header))]
    rw [List.length_singleton] at hle
    omega
  exact List.length_eq_zero_iff.mp hlength

/-- A name with a line feed makes a record of what follows it. -/
theorem recordsOf_ne_nil {cell : JsString × Bool} (hcell : cell ∈ t.header) (hlf : LF ∈ cell.1) (final : Bool) :
    recordsOf (textDecoder (blob (t.text final))) ≠ [] := by
  have hquoted : cell.2 = true := by
    refine t.grammar t.header List.mem_cons_self cell hcell ?_
    simp [mustQuote, hlf]
  -- the line feed is between the two quotes of the cell
  obtain ⟨a, b, hdouble⟩ := List.append_of_mem (mem_double (q := quote).mpr hlf)
  have hcellText : cellText cell = quote :: a ++ LF :: (b ++ [quote]) := by
    rw [cellText, hquoted]
    show quote :: (double quote cell.1 ++ [quote]) = _
    rw [hdouble, List.append_assoc]
    rfl
  obtain ⟨front, back, htext⟩ : cellText cell <:+: t.text final := by
    have hline : cellText cell <:+: lineOf t.header := infix_joinWith (List.mem_map_of_mem hcell)
    exact hline.trans ((infix_joinWith List.mem_cons_self).trans (List.infix_append' [] _ _))
  have hsplit : t.text final = (front ++ quote :: a) ++ LF :: (b ++ quote :: back) := by
    rw [← htext, hcellText]
    simp
  have hquote : IsPlain quote := by decide
  have hfront : quote ∈ toWellFormed (front ++ quote :: a) :=
    mem_toWellFormed hquote (List.mem_append_right _ List.mem_cons_self)
  have hback : quote ∈ toWellFormed (b ++ quote :: back) :=
    mem_toWellFormed hquote (List.mem_append_right _ List.mem_cons_self)
  have hdecoded : textDecoder (blob (t.text final)) =
      dropBom (toWellFormed (front ++ quote :: a)) ++ LF :: toWellFormed (b ++ quote :: back) := by
    rw [textDecoder, blob, decode_utf8, hsplit, toWellFormed_append (by decide)]
    exact dropBom_append (List.ne_nil_of_mem hfront) _
  have htwo := two_le_linesOf (u := quote) (by decide) (by decide) (mem_dropBom (by decide) hfront) hback
  intro hnil
  have hlength := length_recordsOf (textDecoder (blob (t.text final)))
  rw [hnil, hdecoded] at hlength
  rw [List.length_nil] at hlength
  omega

/-- Every cell of a file whose records are read is the text of a line. -/
theorem lineText_of_records (hrows : t.rows ≠ []) {text : JsString} (hwell : WellFormed text)
    (h : recordsOf text = t.rows.map t.object) : ∀ row ∈ t.header :: t.rows, ∀ cell ∈ row, LineText cell.1 := by
  have hobjects : t.rows.map t.object =
      (t.rows.map (List.map Prod.fst)).map fun row => ownOrder ((t.header.map Prod.fst).zip row) := by
    rw [List.map_map]
    rfl
  have hwidth : ∀ row ∈ t.rows.map (List.map Prod.fst), row.length = (t.header.map Prod.fst).length := by
    intro texts htexts
    obtain ⟨row, hrow, rfl⟩ := List.mem_map.mp htexts
    rw [List.length_map, List.length_map, t.width row hrow]
  obtain ⟨hkeys, hcells⟩ :=
    lineText_of_recordsOf (fun hnil => hrows (List.map_eq_nil_iff.mp hnil)) hwidth hwell (h.trans hobjects)
  intro row hrow cell hcell
  rcases List.mem_cons.mp hrow with rfl | hrow
  · exact hkeys cell.1 (List.mem_map_of_mem hcell)
  · exact hcells _ (List.mem_map_of_mem hrow) cell.1 (List.mem_map_of_mem hcell)

/-- A mark that is dropped is missed: no record has the first name. -/
theorem mark_ne (hrows : t.rows ≠ []) {lines : List JsString}
    (h : lines.map (recordOf (parseLine (dropBom (lineOf t.header)))) = t.rows.map t.object) :
    (lineOf t.header).head? ≠ some 0xfeff := by
  intro hhead
  obtain ⟨⟨name, enclosed⟩, cells, hheader⟩ := List.exists_cons_of_ne_nil t.header_ne
  have hname : name ≠ [] := t.names (name, enclosed) (hheader ▸ List.mem_cons_self)
  obtain ⟨back, hback⟩ : ∃ back, ∀ cell, lineOf (cell :: cells) = cellText cell ++ back := by
    cases cells with
    | nil => exact ⟨[], fun cell => (List.append_nil _).symm⟩
    | cons cell' cells => exact ⟨[comma] ++ lineOf (cell' :: cells), fun cell => List.append_assoc _ _ _⟩
  obtain ⟨u, name, rfl⟩ := List.exists_cons_of_ne_nil hname
  rw [hheader, hback] at hhead
  cases enclosed with
  | true => exact absurd (Option.some.inj hhead) (by decide)
  | false =>
    obtain rfl : u = 0xfeff := Option.some.inj hhead
    have hline : dropBom (lineOf t.header) = lineOf ((name, false) :: cells) := by
      rw [hheader, hback, hback]
      rfl
    have hreadable : ∀ cell ∈ (name, false) :: cells, Readable cell := by
      have hall : ∀ cell ∈ t.header, Readable cell :=
        fun cell hcell => readable_of_grammar (t.grammar t.header List.mem_cons_self cell hcell)
      rw [hheader] at hall
      intro cell hcell
      rcases List.mem_cons.mp hcell with rfl | hcell
      · have hfirst := hall _ List.mem_cons_self rfl
        exact fun _ => ⟨fun hmem => hfirst.1 (List.mem_cons_of_mem _ hmem),
          fun hmem => hfirst.2 (List.mem_cons_of_mem _ hmem)⟩
      · exact hall cell (List.mem_cons_of_mem _ hcell)
    have hkeys : parseLine (dropBom (lineOf t.header)) = name :: cells.map Prod.fst := by
      rw [hline]
      exact parseLine_joined _ (List.cons_ne_nil _ _) hreadable
    obtain ⟨row, rows, hcons⟩ := List.exists_cons_of_ne_nil hrows
    have hwidth := t.width row (hcons ▸ List.mem_cons_self)
    rw [hheader] at hwidth
    obtain ⟨cell, row, rfl⟩ := List.exists_cons_of_ne_nil (List.ne_nil_of_length_eq_add_one hwidth)
    have hobject : t.object (cell :: row) ∈ lines.map (recordOf (parseLine (dropBom (lineOf t.header)))) := by
      rw [h, hcons]
      exact List.mem_cons_self
    obtain ⟨line, -, hrecord⟩ := List.mem_map.mp hobject
    have hfirst : ((0xfeff :: name, cell.1) : JsString × JsString) ∈ t.object (cell :: row) := by
      rw [object, hheader]
      exact mem_ownOrder.mpr List.mem_cons_self
    rw [← hrecord, hkeys] at hfirst
    have hdistinct := t.distinct
    rw [hheader, List.map_cons, List.nodup_cons] at hdistinct
    rcases mem_keys_of_recordOf hfirst with hmem | ⟨n, hcolumn⟩
    · rcases List.mem_cons.mp hmem with heq | hmem
      · exact absurd (congrArg List.length heq) (Nat.succ_ne_self _)
      · exact hdistinct.1 hmem
    · have hrange := mem_columnName (n := n) (u := 0xfeff) (hcolumn ▸ List.mem_cons_self)
      exact absurd hrange.2 (by decide)

/-- **The law.** The objects of a CSV file are those of its records just if the file is kept. -/
theorem csv2json_iff (t : CsvTable) (final : Bool) :
    parseJson (csv2json (blob (t.text final))) = some (.arr ((t.rows.map t.object).map textObject)) ↔ t.Kept := by
  rw [parse_csv2json_eq_iff]
  by_cases hrows : t.rows = []
  · rw [hrows]
    refine ⟨fun h => ⟨?_, fun hne => absurd hrows hne, fun hne => absurd hrows hne, ?_⟩,
      fun h => recordsOf_header h.names hrows final⟩
    · exact fun cell hcell hlf => recordsOf_ne_nil hcell hlf final h
    · rw [hrows]
      exact List.forall_mem_nil _
  · refine ⟨fun h => ?_, fun h => recordsOf_text h hrows final⟩
    have hwell : WellFormed (textDecoder (blob (t.text final))) := by
      rw [textDecoder, blob, decode_utf8]
      exact (wellFormed_toWellFormed _).dropBom
    have hcells := lineText_of_records hrows hwell h
    have hlength := congrArg List.length h
    rw [length_recordsOf, List.length_map, linesOf_text hcells] at hlength
    have hpos := List.length_pos_of_ne_nil hrows
    -- as many records as lines after the first: none was empty
    have hfilter : (dropBom (lineOf t.header) :: t.rows.map lineOf).filter (fun l => l ≠ []) =
        dropBom (lineOf t.header) :: t.rows.map lineOf := by
      refine List.filter_sublist.eq_of_length ?_
      rw [List.length_cons, List.length_map]
      omega
    have hrecords : (t.rows.map lineOf).map (recordOf (parseLine (dropBom (lineOf t.header)))) = t.rows.map t.object := by
      rw [recordsOf, linesOf_text hcells, hfilter] at h
      exact h
    refine ⟨fun cell hcell => (hcells t.header List.mem_cons_self cell hcell).noLf, fun _ => hcells,
      fun _ => mark_ne hrows hrecords, ?_⟩
    intro row hrow
    have hline := List.filter_eq_self.mp hfilter (lineOf row) (List.mem_cons_of_mem _ (List.mem_map_of_mem hrow))
    exact of_decide_eq_true hline

/-- One record, whose cell has two lines. -/
def twoLines : CsvTable where
  header := [(js "a", false)]
  rows := [[(js "x\ny", true)]]
  header_ne := by decide
  names := by decide
  distinct := by decide
  width := by decide
  grammar := by decide

/-- It becomes two records. -/
theorem csv2json_twoLines :
    parseJson (csv2json (blob (twoLines.text true))) =
        some (.arr ([[(js "a", js "x")], [(js "a", js "y")]].map textObject)) ∧
      parseJson (csv2json (blob (twoLines.text true))) ≠
        some (.arr ((twoLines.rows.map twoLines.object).map textObject)) := by
  have hwell : WellFormed (twoLines.text true) := by decide
  rw [Ne, parse_csv2json_eq_iff, parse_csv2json_eq_iff, textDecoder_blob hwell]
  constructor
  · decide
  · decide

end CsvTable

end Tables
end MaterialOpenWebui
