import MaterialOpenWebui.Tables.Toml

/-!
# `Tables.TomlExport` — what a reader finds in an export as TOML (`docs/assets/js/formats.js`)

A reader takes the export line by line. A cell whose key comes back comes back as it was, so that the keys alone tell whether all
of the export does.
-/

namespace MaterialOpenWebui
namespace Tables
open Js JsValue Scan

/-! ## Lines -/

theorem shielded_joinWith {sep : JsString} (hsep : Shielded sep) {ls : List JsString} (h : ∀ l ∈ ls, Shielded l) :
    Shielded (joinWith sep ls) := by
  induction ls with
  | nil => exact shielded_of_notMem List.not_mem_nil
  | cons l ls ih =>
    cases ls with
    | nil => exact h l List.mem_cons_self
    | cons l' ls => exact ((h l List.mem_cons_self).append hsep).append (ih fun m hm => h m (List.mem_cons_of_mem l hm))

theorem mem_tomlElems {vs : List JsValue} {t : JsString} (h : t ∈ tomlElems vs) : ∃ v ∈ vs, tomlValue v = t := by
  induction vs with
  | nil => exact absurd h List.not_mem_nil
  | cons v vs ih =>
    rcases List.mem_cons.mp h with rfl | h
    · exact ⟨v, List.mem_cons_self, rfl⟩
    · obtain ⟨w, hw, rfl⟩ := ih h
      exact ⟨w, List.mem_cons_of_mem v hw, rfl⟩

/-- Before a value has a backslash, it has a quote. -/
theorem shielded_tomlValue (v : JsValue) : Shielded (tomlValue v) := by
  have hstring : ∀ s, Shielded (tomlString s) := fun s => by
    rw [tomlString_eq]
    exact shielded_cons (.inl rfl) _
  have hplain : ∀ s : JsString, (∀ u ∈ s, isTokenUnit u = true) → Shielded s := fun s hs =>
    shielded_of_notMem fun h => by cases hs backslash h
  induction v with
  | undefined => exact shielded_cons (.inl rfl) _
  | null => exact shielded_cons (.inl rfl) _
  | bool b => cases b <;> exact hplain _ (by decide)
  | num k =>
    cases k with
    | nan => exact shielded_cons (.inl rfl) _
    | infinity neg => exact shielded_cons (.inl rfl) _
    | finite d => exact hplain _ fun u hu => isTokenUnit_toText hu
  | str s => exact hstring s
  | arr vs ih =>
    have helems : Shielded (joinWith (js ", ") (tomlElems vs)) := by
      refine shielded_joinWith (shielded_of_notMem (by decide)) fun t ht => ?_
      obtain ⟨v, hv, rfl⟩ := mem_tomlElems ht
      exact ih v hv
    exact ((shielded_of_notMem (by decide)).append helems).append (shielded_of_notMem (by decide))
  | obj ps => exact hstring _

/-- Where a line ends. -/
inductive Ended : JsString → Prop where
  | document : Ended []
  | line (s : JsString) : Ended (LF :: s)

variable {rest : JsString}

theorem Ended.stop (h : Ended rest) : Stop rest := by
  cases h with
  | document => exact fun u hu => by cases hu
  | line s => exact stop_cons (by decide) s

theorem Ended.shielded (h : Ended rest) : Shielded rest := by
  cases h with
  | document => exact shielded_of_notMem List.not_mem_nil
  | line s => exact shielded_cons (.inr rfl) s

theorem Ended.lineEnd (h : Ended rest) : lineEnd rest = some rest := by
  cases h <;> rfl

theorem readLine_blank (h : Ended rest) : readLine rest = some (none, rest) := by
  unfold readLine
  rw [h.lineEnd]

theorem readLine_header (h : Ended rest) : readLine (js "[[" ++ js "record" ++ js "]]" ++ rest) = some
    (some (.header (js "record")), rest) := by
  cases h <;> rfl

theorem isBare_spec {u : UInt16} (h : isBare u = true) : isTomlUnit u = true ∧ u ≠ backslash := by
  constructor
  · have hbounds : 0x20 ≤ u.toNat ∧ u.toNat ≠ 0x7f := by
      simp only [isBare, Bool.or_eq_true, Bool.and_eq_true, decide_eq_true_eq, beq_iff_eq,
        UInt16.le_iff_toNat_le, ← UInt16.toNat_inj,
        UInt16.reduceToNat] at h
      omega
    have hlow : 0x20 ≤ u := UInt16.le_iff_toNat_le.mpr hbounds.1
    have hne : u ≠ 0x7f := fun h => hbounds.2 (by rw [h]; rfl)
    simp [isTomlUnit, hlow, hne]
  · rintro rfl
    cases h

/-- A cell that comes back as it was. -/
def CellOk (cell : JsString × JsValue) : Prop := KeyUnits cell.1 ∧ TextsOk (textsOf cell.2)

/-- An entry, once its key has been read. -/
theorem readEntry_of_key {s key : JsString} {v : JsValue} (hrest : Ended rest)
    (hkey : readKey s = some (key, js " = " ++ (tomlValue v ++ rest))) :
    readEntry s = if TextsOk (textsOf v) then some (.entry key (tomlOf v), rest) else none := by
  have hblank : skipBlank (0x20 :: (tomlValue v ++ rest)) = tomlValue v ++ rest := skipBlank_tomlValue v rest
  have hlength : (tomlValue v).length ≤ (0x20 :: (tomlValue v ++ rest)).length := by
    rw [List.length_cons, List.length_append]
    omega
  unfold readEntry
  rw [hkey, Option.bind_some]
  show (readValue (0x20 :: (tomlValue v ++ rest)).length (skipBlank (0x20 :: (tomlValue v ++ rest)))).bind _ = _
  rw [hblank, readValue_tomlValue v _ rest hlength hrest.stop]
  split
  · rw [Option.bind_some, hrest.lineEnd]
    rfl
  · rfl

/-- A key that stands bare. -/
theorem readKey_bare {key : JsString} (hne : key ≠ []) (hbare : key.all isBare = true) (more : JsString) :
    readKey (key ++ js " = " ++ more) = some (key, js " = " ++ more) := by
  have hall : ∀ u ∈ key, isBare u = true := List.all_eq_true.mp hbare
  have htake : (key ++ (js " = " ++ more)).takeWhile isBare = key := by
    rw [List.takeWhile_append_of_pos hall]
    exact List.append_nil key
  have hdrop : (key ++ (js " = " ++ more)).dropWhile isBare = js " = " ++ more := by
    rw [List.dropWhile_append_of_pos hall]
    rfl
  have hhead : (key ++ (js " = " ++ more)).head? ≠ some quote := by
    cases key with
    | nil => exact absurd rfl hne
    | cons u key =>
      intro h
      have hu := hall u List.mem_cons_self
      rw [Option.some.inj h] at hu
      cases hu
  unfold readKey
  rw [List.append_assoc, if_neg hhead, htake, if_neg hne, hdrop]

/-- The text of a cell is no blank line and no header. -/
theorem readLine_entry (cell : JsString × JsValue) : readLine (tomlCell cell ++ rest) =
    (readEntry (tomlCell cell ++ rest)).map fun p => (some p.1, p.2) := by
  have hhead : ∃ u t, tomlCell cell ++ rest = u :: t ∧ (u = quote ∨ isBare u = true) := by
    unfold tomlCell tomlKey
    split
    · rename_i h
      obtain ⟨u, t, ht⟩ := List.exists_cons_of_ne_nil h.1
      have hu : isBare u = true := List.all_eq_true.mp h.2 u (ht ▸ List.mem_cons_self)
      exact ⟨u, _, by rw [ht]; rfl, .inr hu⟩
    · exact ⟨quote, _, rfl, .inl rfl⟩
  obtain ⟨u, t, htext, hu⟩ := hhead
  have hne : u ≠ 0x20 ∧ u ≠ 0x09 ∧ u ≠ 0x23 ∧ u ≠ LF ∧ u ≠ CR ∧ u ≠ 0x5b := by
    refine ⟨?_, ?_, ?_, ?_, ?_, ?_⟩
    all_goals
      rintro rfl
      rcases hu with hu | hu
      · exact absurd hu (by decide)
      · cases hu
  obtain ⟨hspace, htab, hhash, hlf, hcr, hbracket⟩ := hne
  have hblank : skipBlank (u :: t) = u :: t := by
    unfold skipBlank
    rw [List.dropWhile_cons, if_neg (by simp [hspace, htab])]
  have hend : lineEnd (u :: t) = none := by
    unfold lineEnd
    simp [hblank, hhash, hlf, hcr]
  have hheader : ¬ js "[[" <+: u :: t := by
    rintro ⟨w, hw⟩
    exact hbracket (List.cons.inj hw).1.symm
  unfold readLine
  rw [htext, hend]
  simp only [hblank, if_neg hheader]

theorem readKey_quote (s : JsString) : readKey (quote :: s) = readBasic .plain s := by
  unfold readKey
  exact if_pos rfl

theorem tomlCell_bare {cell : JsString × JsValue} (h : cell.1 ≠ [] ∧ cell.1.all isBare = true) :
    tomlCell cell ++ rest = cell.1 ++ js " = " ++ (tomlValue cell.2 ++ rest) := by
  unfold tomlCell tomlKey
  rw [if_pos h, List.append_assoc]

theorem tomlCell_quoted {cell : JsString × JsValue} (h : ¬ (cell.1 ≠ [] ∧ cell.1.all isBare = true)) :
    tomlCell cell ++ rest = quote :: (replaceUnit quote "\\\"" cell.1 ++ quote ::
      (js " = " ++ (tomlValue cell.2 ++ rest))) := by
  unfold tomlCell tomlKey
  rw [if_neg h]
  simp only [List.append_assoc]
  rfl

/-- **A key** comes back, as itself and to its end. -/
theorem readKey_cell {cell : JsString × JsValue} (hkey : KeyUnits cell.1) :
    readKey (tomlCell cell ++ rest) = some (cell.1, js " = " ++ (tomlValue cell.2 ++ rest)) := by
  by_cases h : cell.1 ≠ [] ∧ cell.1.all isBare = true
  · rw [tomlCell_bare h]
    exact readKey_bare h.1 h.2 _
  · rw [tomlCell_quoted h, readKey_quote]
    exact readBasic_key hkey _

theorem keyUnits_of_readKey {cell : JsString × JsValue} (hrest : Ended rest) {more : JsString}
    (h : readKey (tomlCell cell ++ rest) = some (cell.1, more)) : KeyUnits cell.1 := by
  by_cases hbare : cell.1 ≠ [] ∧ cell.1.all isBare = true
  · exact fun u hu => isBare_spec (List.all_eq_true.mp hbare.2 u hu)
  · rw [tomlCell_quoted hbare, readKey_quote] at h
    have hshielded : Shielded (js " = " ++ (tomlValue cell.2 ++ rest)) :=
      (shielded_of_notMem (by decide)).append ((shielded_tomlValue cell.2).append hrest.shielded)
    exact keyUnits_of_readBasic hshielded h

/-- An entry has the key that was read. -/
theorem readKey_of_readEntry {s key more : JsString} {t : Toml} (h : readEntry s = some (.entry key t, more)) :
    ∃ after, readKey s = some (key, after) := by
  unfold readEntry at h
  obtain ⟨q, hq, h⟩ := Option.bind_eq_some_iff.mp h
  split at h
  · cases h
  · split at h
    · obtain ⟨w, -, h⟩ := Option.bind_eq_some_iff.mp h
      obtain ⟨x, -, h⟩ := Option.map_eq_some_iff.mp h
      cases h
      exact ⟨q.2, hq⟩
    · cases h

theorem readLine_cell {cell : JsString × JsValue} (hcell : CellOk cell) (hrest : Ended rest) :
    readLine (tomlCell cell ++ rest) = some (some (.entry cell.1 (tomlOf cell.2)), rest) := by
  rw [readLine_entry, readEntry_of_key hrest (readKey_cell hcell.1), if_pos hcell.2]
  rfl

/-- **A cell that comes back** under its key is one that comes back as it was. -/
theorem cellOk_of_readLine {cell : JsString × JsValue} (hrest : Ended rest) {more : JsString} {t : Toml}
    (h : readLine (tomlCell cell ++ rest) = some (some (.entry cell.1 t), more)) : CellOk cell := by
  rw [readLine_entry] at h
  obtain ⟨p, hp, heq⟩ := Option.map_eq_some_iff.mp h
  obtain ⟨line, after⟩ := p
  cases heq
  obtain ⟨q, hq⟩ := readKey_of_readEntry hp
  have hkey := keyUnits_of_readKey hrest hq
  rw [readEntry_of_key hrest (readKey_cell hkey)] at hp
  split at hp
  · rename_i htexts
    exact ⟨hkey, htexts⟩
  · cases hp

/-- A line of the export. -/
inductive Piece where
  | header
  | cell (c : JsString × JsValue)
  | blank

def Piece.text : Piece → JsString
  | .header => js "[[" ++ js "record" ++ js "]]"
  | .cell c => tomlCell c
  | .blank => []

/-- What it says. -/
def Piece.line : Piece → Option Line
  | .header => some (.header (js "record"))
  | .cell c => some (.entry c.1 (tomlOf c.2))
  | .blank => none

def Piece.Ok : Piece → Prop
  | .cell c => CellOk c
  | _ => True

def Line.key : Line → Option JsString
  | .header _ => none
  | .entry key _ => some key

theorem Piece.readLine {p : Piece} (hp : p.Ok) (hrest : Ended rest) : readLine (p.text ++ rest) = some (p.line, rest) := by
  cases p with
  | header => exact readLine_header hrest
  | cell c => exact readLine_cell hp hrest
  | blank => exact readLine_blank hrest

/-- The text of some lines is that of the first, up to its end. -/
theorem ended_pieces (p : Piece) (ps : List Piece) : ∃ rest, Ended rest ∧ joinWith [LF]
    ((p :: ps).map Piece.text) = p.text ++ rest ∧
    (ps = [] ∧ rest = [] ∨ ps ≠ [] ∧ rest = LF :: joinWith [LF] (ps.map Piece.text)) := by
  cases ps with
  | nil => exact ⟨[], .document, (List.append_nil _).symm, .inl ⟨rfl, rfl⟩⟩
  | cons q ps => exact ⟨_, .line _, List.append_assoc _ _ _, .inr ⟨List.cons_ne_nil q ps, rfl⟩⟩

/-- **Lines that come back** are read one after the other. -/
theorem readLines_pieces {ps : List Piece} (hps : ∀ p ∈ ps, p.Ok) (n : Nat) (hn : ps.length ≤ n + 1) :
    readLines (n + 1) (joinWith [LF] (ps.map Piece.text)) = some (ps.filterMap Piece.line) := by
  induction ps generalizing n with
  | nil => rfl
  | cons p ps ih =>
    obtain ⟨rest, hrest, htext, hcases⟩ := ended_pieces p ps
    rw [htext, readLines, p.readLine (hps p List.mem_cons_self) hrest, Option.bind_some]
    rcases hcases with ⟨rfl, rfl⟩ | ⟨hne, rfl⟩
    · cases hline : p.line <;> simp [hline]
    · have hpos : 0 < ps.length := List.length_pos_iff.mpr hne
      obtain ⟨m, rfl⟩ : ∃ m, n = m + 1 := ⟨n - 1, by rw [List.length_cons] at hn; omega⟩
      show (readLines (m + 1) (joinWith [LF] (ps.map Piece.text))).map _ = _
      rw [ih (fun q hq => hps q (List.mem_cons_of_mem p hq)) m (Nat.le_of_succ_le_succ hn)]
      cases hline : p.line <;> simp [hline]

/-- **Lines with the keys of the export** are those of an export that comes back. -/
theorem ok_of_readLines {ps : List Piece} {n : Nat} {lines : List Line}
    (h : readLines n (joinWith [LF] (ps.map Piece.text)) = some lines)
    (hkeys : lines.map Line.key = (ps.filterMap Piece.line).map Line.key) : ∀ p ∈ ps, p.Ok := by
  induction ps generalizing n lines with
  | nil => exact List.forall_mem_nil _
  | cons p ps ih =>
    obtain ⟨rest, hrest, htext, hcases⟩ := ended_pieces p ps
    cases n with
    | zero => cases h
    | succ n =>
      rw [htext, readLines] at h
      have hp : p.Ok := by
        cases p with
        | header => trivial
        | blank => trivial
        | cell c =>
          obtain ⟨q, hq, hlines⟩ := Option.bind_eq_some_iff.mp h
          have hq' : (readEntry (tomlCell c ++ rest)).map (fun p => (some p.1, p.2)) = some q := by
            rw [← readLine_entry]
            exact hq
          obtain ⟨⟨line, after⟩, -, rfl⟩ := Option.map_eq_some_iff.mp hq'
          have hhead : lines.head? = some line := by
            cases after with
            | nil =>
              cases hlines
              rfl
            | cons u after =>
              obtain ⟨more, -, rfl⟩ := Option.map_eq_some_iff.mp hlines
              rfl
          have hkey : line.key = some c.1 := by
            have hfirst := congrArg List.head? hkeys
            rw [List.head?_map, hhead] at hfirst
            exact Option.some.inj hfirst
          cases line with
          | header name => cases hkey
          | entry key t =>
            cases hkey
            exact cellOk_of_readLine hrest hq
      rw [p.readLine hp hrest, Option.bind_some] at h
      rcases hcases with ⟨rfl, rfl⟩ | ⟨hne, rfl⟩
      · exact List.forall_mem_singleton.mpr hp
      · obtain ⟨more, hmore, heq⟩ := Option.map_eq_some_iff.mp h
        refine List.forall_mem_cons.mpr ⟨hp, ih hmore ?_⟩
        rw [← heq, List.map_append] at hkeys
        cases hline : p.line with
        | none =>
          rw [List.filterMap_cons_none hline, hline] at hkeys
          exact hkeys
        | some line =>
          rw [List.filterMap_cons_some hline, hline] at hkeys
          exact (List.cons.inj hkeys).2

/-! ## Documents -/

/-- The lines of some tables. -/
def linesOfTables (tables : List Table) : List Line :=
    tables.flatMap fun t => .header t.name :: t.entries.map fun e => .entry e.1 e.2

theorem linesOfTables_append (a b : List Table) :
    linesOfTables (a ++ b) = linesOfTables a ++ linesOfTables b := List.flatMap_append

theorem linesOfTables_addLine {tables tables' : List Table} {line : Line} (h : addLine tables line = some tables') :
    linesOfTables tables' = linesOfTables tables ++ [line] := by
  cases line with
  | header name =>
    cases h
    exact linesOfTables_append tables _
  | entry key value =>
    unfold addLine at h
    cases hlast : tables.getLast? with
    | none =>
      rw [hlast] at h
      cases h
    | some table =>
      simp only [hlast] at h
      split at h
      · cases h
      · cases h
        obtain ⟨front, rfl⟩ := List.getLast?_eq_some_iff.mp hlast
        rw [List.dropLast_concat, linesOfTables_append, linesOfTables_append, List.append_assoc]
        refine congrArg _ ?_
        simp [linesOfTables]

theorem linesOfTables_scan {lines : List Line} {tables tables' : List Table} (h : scan addLine tables lines = some tables') :
    linesOfTables tables' = linesOfTables tables ++ lines := by
  induction lines generalizing tables with
  | nil =>
    cases h
    exact (List.append_nil _).symm
  | cons line lines ih =>
    obtain ⟨next, hnext, h⟩ := Option.bind_eq_some_iff.mp h
    rw [ih h, linesOfTables_addLine hnext, List.append_assoc]
    rfl

/-- What a record is to be. -/
def tableOf (row : JsValue) : Table := ⟨js "record", (entriesOf row).map fun cell => (cell.1, tomlOf cell.2)⟩

/-- Entries with different keys. -/
theorem scan_entries (tables : List Table) (name : JsString) (cells : List (JsString × JsValue))
    (entries : List (JsString × Toml))
    (hdistinct : (entries.map Prod.fst ++ cells.map Prod.fst).Nodup) :
    scan addLine (tables ++ [⟨name, entries⟩]) (cells.map fun cell => .entry cell.1 (tomlOf cell.2)) =
      some (tables ++ [⟨name, entries ++ cells.map fun cell => (cell.1, tomlOf cell.2)⟩]) := by
  induction cells generalizing entries with
  | nil => exact congrArg (fun e => some (tables ++ [Table.mk name e])) (List.append_nil entries).symm
  | cons cell cells ih =>
    have hfresh : cell.1 ∉ entries.map Prod.fst := fun hmem =>
      (List.nodup_append.mp hdistinct).2.2 cell.1 hmem cell.1 List.mem_cons_self rfl
    have hadd : addLine (tables ++ [⟨name, entries⟩]) (.entry cell.1 (tomlOf cell.2)) =
        some (tables ++ [⟨name, entries ++ [(cell.1, tomlOf cell.2)]⟩]) := by
      unfold addLine
      simp only [List.getLast?_concat, List.dropLast_concat, if_neg hfresh]
    have hnext : ((entries ++ [(cell.1, tomlOf cell.2)]).map Prod.fst ++ cells.map Prod.fst).Nodup := by
      rw [List.map_append, List.append_assoc]
      exact hdistinct
    rw [List.map_cons, scan_cons, hadd, Option.bind_some, ih _ hnext, List.append_assoc]
    rfl

/-- The lines of a record. -/
def pieces (row : JsValue) : List Piece := .header :: (entriesOf row).map .cell ++ [.blank]

theorem lines_pieces (row : JsValue) : (pieces row).filterMap Piece.line =
    .header (js "record") :: (entriesOf row).map fun cell => .entry cell.1 (tomlOf cell.2) := by
  have hcells : ∀ cells : List (JsString × JsValue), (cells.map Piece.cell ++ [Piece.blank]).filterMap Piece.line =
      cells.map fun cell => .entry cell.1 (tomlOf cell.2) := by
    intro cells
    induction cells with
    | nil => rfl
    | cons cell cells ih =>
      rw [List.map_cons, List.map_cons, ← ih]
      rfl
  rw [← hcells]
  rfl

theorem scan_rows_toml {rows : List JsValue}
    (hrows : ∀ row ∈ rows, ((entriesOf row).map Prod.fst).Nodup) (tables : List Table) :
    scan addLine tables ((rows.flatMap pieces).filterMap Piece.line) = some (tables ++ rows.map tableOf) := by
  induction rows generalizing tables with
  | nil => exact congrArg some (List.append_nil tables).symm
  | cons row rows ih =>
    have hentries := scan_entries tables (js "record") (entriesOf row) [] (hrows row List.mem_cons_self)
    rw [List.flatMap_cons, List.filterMap_append, lines_pieces, List.cons_append, scan_cons]
    show scan addLine (tables ++ [⟨js "record", []⟩]) _ = _
    rw [scan_trans hentries, ih fun r hr => hrows r (List.mem_cons_of_mem row hr), List.append_assoc]
    rfl

theorem toToml_eq (rows : List JsValue) : toToml rows = joinWith [LF] ((rows.flatMap pieces).map Piece.text) := by
  have hlines : ∀ row, tomlLines (js "record") row = (pieces row).map Piece.text := by
    intro row
    unfold tomlLines pieces
    rw [List.map_append, List.map_cons, List.map_map]
    rfl
  unfold toToml
  rw [List.map_flatMap]
  exact congrArg _ (congrArg (fun f => rows.flatMap f) (funext hlines))

/-! ## Surrogates -/

theorem wellFormed_tomlString (s : JsString) : WellFormed (tomlString s) ↔ WellFormed s := by
  have hwrite : ∀ u, tomlEscape u = [u] ∨ IsPlain u ∧ tomlEscape u ≠ [] ∧ ∀ v ∈ tomlEscape u, IsPlain v := by
    intro u
    by_cases hu : EscapedUnit u
    · right
      rcases hu with rfl | rfl | rfl | rfl | rfl <;> decide
    · exact .inl (tomlEscape_plain hu)
  have hbody : WellFormed ([] ++ s.flatMap tomlEscape) ↔ WellFormed ([] ++ s) := wellFormed_flatMap hwrite s []
  rw [tomlString_eq]
  exact (wellFormed_wrapped (a := [quote]) (b := [quote]) (by decide) (by decide)).trans hbody

theorem wellFormed_tomlKey (key : JsString) : WellFormed (tomlKey key) ↔ WellFormed key := by
  unfold tomlKey
  split
  · exact Iff.rfl
  · have hwrite : ∀ u, (if u = quote then js "\\\"" else [u]) = [u] ∨
        IsPlain u ∧ (if u = quote then js "\\\"" else [u]) ≠ [] ∧ ∀ v ∈ if u = quote then js "\\\"" else [u], IsPlain v := by
      intro u
      by_cases hu : u = quote
      · subst hu
        exact .inr (by decide)
      · exact .inl (if_neg hu)
    have hbody : WellFormed ([] ++ replaceUnit quote "\\\"" key) ↔ WellFormed ([] ++ key) := wellFormed_flatMap hwrite key []
    exact (wellFormed_wrapped (by decide) (by decide)).trans hbody

theorem forall_tomlElems {P : JsString → Prop} (vs : List JsValue) : (∀ t ∈ tomlElems vs, P t) ↔
    ∀ v ∈ vs, P (tomlValue v) := by
  induction vs with
  | nil => exact iff_of_true (List.forall_mem_nil _) (List.forall_mem_nil _)
  | cons v vs ih =>
    show (∀ t ∈ tomlValue v :: tomlElems vs, P t) ↔ _
    rw [List.forall_mem_cons, List.forall_mem_cons, ih]

theorem forall_textsOfElems {P : JsString → Prop} (vs : List JsValue) : (∀ s ∈ textsOfElems vs, P s) ↔
    ∀ v ∈ vs, ∀ s ∈ textsOf v, P s := by
  induction vs with
  | nil => exact iff_of_true (List.forall_mem_nil _) (List.forall_mem_nil _)
  | cons v vs ih =>
    show (∀ s ∈ textsOf v ++ textsOfElems vs, P s) ↔ _
    rw [List.forall_mem_append, List.forall_mem_cons, ih]

theorem wellFormed_tomlValue (v : JsValue) : WellFormed (tomlValue v) ↔ ∀ s ∈ textsOf v, WellFormed s := by
  induction v with
  | undefined => exact iff_of_true (by decide) (List.forall_mem_nil _)
  | null => exact iff_of_true (by decide) (List.forall_mem_nil _)
  | bool b => cases b <;> exact iff_of_true (by decide) (List.forall_mem_nil _)
  | num k =>
    cases k with
    | nan => exact iff_of_true (by decide) (List.forall_mem_nil _)
    | infinity neg => exact iff_of_true (rfl : WellFormed (js "\"\"")) (List.forall_mem_nil _)
    | finite d => exact iff_of_true (wellFormed_ofChars _) (List.forall_mem_nil _)
  | str s => exact (wellFormed_tomlString s).trans List.forall_mem_singleton.symm
  | arr vs ih =>
    show WellFormed ((js "[" ++ joinWith (js ", ") (tomlElems vs)) ++ js "]") ↔ ∀ s ∈ textsOfElems vs, WellFormed s
    rw [wellFormed_wrapped (by decide) (by decide), wellFormed_joinWith_iff (by decide) (by decide),
      forall_tomlElems, forall_textsOfElems]
    exact forall₂_congr ih
  | obj ps => exact (wellFormed_tomlString _).trans List.forall_mem_singleton.symm

theorem wellFormed_toToml (rows : List JsValue) : WellFormed (toToml rows) ↔
    ∀ row ∈ rows, ∀ cell ∈ entriesOf row, WellFormed cell.1 ∧ ∀ s ∈ textsOf cell.2, WellFormed s := by
  have hcell : ∀ cell : JsString × JsValue, WellFormed (tomlCell cell) ↔
      WellFormed cell.1 ∧ ∀ s ∈ textsOf cell.2, WellFormed s := by
    intro cell
    unfold tomlCell
    rw [List.append_assoc, wellFormed_markup (w :=
      js " = ") (by decide) (by decide), wellFormed_tomlKey, wellFormed_tomlValue]
  have hrow : ∀ row, (∀ p ∈ pieces row, WellFormed p.text) ↔
      ∀ cell ∈ entriesOf row, WellFormed cell.1 ∧ ∀ s ∈ textsOf cell.2, WellFormed s := by
    intro row
    unfold pieces
    rw [List.forall_mem_append, List.forall_mem_cons, List.forall_mem_map]
    have hblank : ∀ p ∈ [Piece.blank], WellFormed p.text := List.forall_mem_singleton.mpr rfl
    refine (and_iff_left hblank).trans ((and_iff_right (by decide : WellFormed (js "[[record]]"))).trans ?_)
    exact forall₂_congr fun cell _ => hcell cell
  rw [toToml_eq, wellFormed_joinWith_iff (by decide) (by decide), List.forall_mem_map, List.forall_mem_flatMap]
  exact forall₂_congr fun row _ => hrow row

/-! ## The law -/

/-- A table has the keys of a record, each with the string that it has there. -/
def Recovered (row : JsValue) (table : Table) : Prop :=
  List.Forall₂ (fun cell entry => entry.1 = cell.1 ∧ ∀ s, cell.2 = .str s → entry.2 = .string s) (entriesOf row) table.entries

theorem keys_of_recovered {row : JsValue} {table : Table} (h : Recovered row table) :
    table.entries.map Prod.fst = (entriesOf row).map Prod.fst := by
  have hkeys : List.Forall₂ Eq ((entriesOf row).map Prod.fst) (table.entries.map Prod.fst) :=
    List.forall₂_map_left_iff.mpr (List.forall₂_map_right_iff.mpr (h.imp fun _ _ hcell => hcell.1.symm))
  rw [List.forall₂_eq_eq_eq] at hkeys
  exact hkeys.symm

/-- The keys of the lines, where every table has the keys of its record. -/
theorem keys_lines {rows : List JsValue} {tables : List Table} (h : List.Forall₂ Recovered rows tables) :
    (linesOfTables tables).map Line.key = ((rows.flatMap pieces).filterMap Piece.line).map Line.key := by
  induction h with
  | nil => rfl
  | @cons row table rows tables hrow _ ih =>
    have hentries : (table.entries.map fun e => Line.entry e.1 e.2).map Line.key =
      (table.entries.map Prod.fst).map some := by
      rw [List.map_map, List.map_map]
      rfl
    have hcells : ((entriesOf row).map fun cell => Line.entry cell.1 (tomlOf cell.2)).map Line.key =
      ((entriesOf row).map Prod.fst).map some := by
      rw [List.map_map, List.map_map]
      rfl
    rw [List.flatMap_cons, List.filterMap_append, lines_pieces, List.map_append, List.map_cons, hcells,
      ← ih, ← keys_of_recovered hrow,
      ← hentries]
    show (Line.header table.name :: (table.entries.map fun e => Line.entry e.1 e.2) ++
      linesOfTables tables).map Line.key = _
    rw [List.map_append]
    rfl

theorem length_pieces (ps : List Piece) : ps.length ≤ (joinWith [LF] (ps.map Piece.text)).length + 1 := by
  induction ps with
  | nil => exact Nat.zero_le _
  | cons p ps ih =>
    obtain ⟨rest, -, htext, ⟨rfl, -⟩ | ⟨-, rfl⟩⟩ := ended_pieces p ps
    · exact Nat.succ_le_succ (Nat.zero_le _)
    · rw [htext, List.length_append, List.length_cons, List.length_cons]
      omega

theorem ok_pieces (rows : List JsValue) : (∀ p ∈ rows.flatMap pieces, p.Ok) ↔
    ∀ row ∈ rows, ∀ cell ∈ entriesOf row, CellOk cell := by
  have hrow : ∀ row, (∀ p ∈ pieces row, p.Ok) ↔ ∀ cell ∈ entriesOf row, CellOk cell := by
    intro row
    unfold pieces
    rw [List.forall_mem_append, List.forall_mem_cons, List.forall_mem_map]
    exact (and_iff_left (List.forall_mem_singleton.mpr trivial)).trans (and_iff_right trivial)
  rw [List.forall_mem_flatMap]
  exact forall₂_congr fun row _ => hrow row

theorem tomlOf_str (v : JsValue) (s : JsString) (h : v = .str s) : tomlOf v = .string s := by
  rw [h]
  rfl

/-- **The export** is valid, and every key and every string is read back, exactly if no key has a backslash, and neither keys nor strings have
surrogates out of pairs or control characters, of which strings may have tabs and line ends, and keys tabs. -/
theorem toToml_faithful_iff {rows : List JsValue} (hrows : ∀ row ∈ rows, row.Wf) :
    (∃ tables, readToml (toToml rows) = some tables ∧ List.Forall₂ Recovered rows tables) ↔
      ∀ row ∈ rows, ∀ cell ∈ entriesOf row, (WellFormed cell.1 ∧ ∀ u ∈ cell.1, isTomlUnit u = true ∧ u ≠ backslash) ∧
        ∀ s ∈ textsOf cell.2, WellFormed s ∧ ∀ u ∈ s, isTextUnit u = true := by
  have hnodup : ∀ row ∈ rows, ((entriesOf row).map Prod.fst).Nodup := by
    intro row hrow
    unfold entriesOf
    split
    · exact nodup_keys fun ps h => (h ▸ hrows row hrow : JsValue.Wf (.obj ps)).keys
    · exact List.nodup_nil
  have hsplit : (∀ row ∈ rows, ∀ cell ∈ entriesOf row,
    (WellFormed cell.1 ∧ ∀ u ∈ cell.1, isTomlUnit u = true ∧ u ≠ backslash) ∧
      ∀ s ∈ textsOf cell.2, WellFormed s ∧ ∀ u ∈ s, isTextUnit u = true) ↔
      WellFormed (toToml rows) ∧ ∀ p ∈ rows.flatMap pieces, p.Ok := by
    rw [wellFormed_toToml, ok_pieces]
    simp only [← forall₂_and]
    refine forall₂_congr fun row _ => forall₂_congr fun cell _ => ?_
    unfold CellOk KeyUnits TextsOk
    simp only [forall₂_and]
    tauto
  rw [hsplit]
  constructor
  · rintro ⟨tables, hread, hrecovered⟩
    unfold readToml at hread
    split at hread
    · rename_i hwell
      refine ⟨hwell, ?_⟩
      obtain ⟨lines, hlines, hscan⟩ := Option.bind_eq_some_iff.mp hread
      rw [toToml_eq] at hlines
      refine ok_of_readLines hlines ?_
      have hall : linesOfTables tables = lines := linesOfTables_scan hscan
      rw [← hall]
      exact keys_lines hrecovered
    · cases hread
  · rintro ⟨hwell, hok⟩
    refine ⟨rows.map tableOf, ?_, ?_⟩
    · have hlength := length_pieces (rows.flatMap pieces)
      unfold readToml
      rw [if_pos hwell, toToml_eq, readLines_pieces hok _ (by omega), Option.bind_some, scan_rows_toml hnodup]
      rfl
    · rw [List.forall₂_map_right_iff, List.forall₂_same]
      intro row _
      unfold Recovered tableOf
      rw [List.forall₂_map_right_iff, List.forall₂_same]
      exact fun cell _ => ⟨rfl, fun s => tomlOf_str cell.2 s⟩

theorem toToml_awkward : ∃ tables, readToml (toToml [.obj [(js "plain key", .str (js "a \"b\" \\ c"))]]) = some tables ∧
    List.Forall₂ Recovered [.obj [(js "plain key", .str (js "a \"b\" \\ c"))]] tables := by
  refine (toToml_faithful_iff ?_).mpr (by decide)
  intro row hrow
  rw [List.mem_singleton.mp hrow]
  refine .obj (by decide) fun p hp => ?_
  rw [List.mem_singleton.mp hp]
  exact .str _

/-- A path as a key, and a string with a control character. -/
theorem toToml_path : (¬ ∃ tables, readToml (toToml [.obj [(js "C:\\new", .str (js "x"))]]) = some tables ∧
      List.Forall₂ Recovered [.obj [(js "C:\\new", .str (js "x"))]] tables) ∧
    ¬ ∃ tables, readToml (toToml [.obj [(js "note", .str [0x61, 0x01])]]) = some tables ∧
      List.Forall₂ Recovered [.obj [(js "note", .str [0x61, 0x01])]] tables := by
  constructor
  · rintro ⟨tables, hread, hrecovered⟩
    have hkeys : (readToml (toToml [.obj [(js "C:\\new", .str (js "x"))]])).map
      (fun tables => tables.map fun t => t.entries.map Prod.fst) =
        some [[js "C:" ++ [LF] ++ js "ew"]] := by decide +kernel
    rw [hread] at hkeys
    cases hrecovered with
    | cons hrow htables =>
      cases htables
      have hkey := keys_of_recovered hrow
      exact absurd (hkey.symm.trans (List.singleton_inj.mp (Option.some.inj hkeys))) (by decide)
  · rintro ⟨tables, hread, -⟩
    have hnone : (readToml (toToml [.obj [(js "note", .str [0x61, 0x01])]])).isNone = true := by decide +kernel
    rw [hread] at hnone
    cases hnone

end Tables
end MaterialOpenWebui
