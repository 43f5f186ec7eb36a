import MaterialOpenWebui.Js.Decoder
import MaterialOpenWebui.Js.Indent
import MaterialOpenWebui.Tables.Delimited

/-!
# `Tables.Convert` — CSV and JSON files (`src/app/js/core/convert.js`)

The two converters between the formats. The one to JSON cuts the text into lines first, and then reads every line on its own; the
one to CSV writes the names of the columns as they are.
-/

namespace MaterialOpenWebui
namespace Tables
open Js JsValue Quoted

/-- `new Blob([text])`. -/
def blob (text : JsString) : List UInt8 := (utf8 text).data.toList

/-- `JSON.parse(new TextDecoder('utf-8', { fatal: false }).decode(buf))` -/
def parseJson (buf : List UInt8) : Option JsValue := parse (scalars (textDecoder buf))

/-! ## From JSON -/

def comma : UInt16 := 0x2c

/-- One cell. -/
def esc (v : JsValue) : JsString := field quote (mustQuote comma (scalar v)) (scalar v)

/-- The names of the columns. -/
def columnKeys (rows : List JsValue) : List JsString :=
  (rows.flatMap fun r => if r.isObject then (ownProps r).map Prod.fst else []).foldl
    (fun seen key => if key ∈ seen then seen else seen ++ [key]) []

section
variable (inherited : JsValue → JsString → JsValue)

def csvText (rows : List JsValue) : JsString :=
  let keys := columnKeys rows
  joinWith [comma] keys ++ [LF] ++
    joinWith [LF] (rows.map fun r => joinWith [comma] (keys.map fun k => esc (cellOf inherited r k)))

/-- `none` where the file is no JSON. -/
def json2csv (buf : List UInt8) : Option (List UInt8) :=
  (parseJson buf).map fun data =>
    let rows := match data with
      | .arr vs => vs
      | v => [v]
    if rows = [] then blob [] else blob (csvText inherited rows)

end

/-! ## To JSON -/

def dropCr (line : JsString) : JsString := if line.getLast? = some CR then line.dropLast else line

/-- `text.split(/\r?\n/)`, with what there is of a line. -/
def splitLines : JsString → JsString → List JsString
  | line, [] => [line]
  | line, u :: rest => if u = LF then dropCr line :: splitLines [] rest else splitLines (line ++ [u]) rest

structure LineReader where
  out : List JsString
  cur : JsString

def LineReader.put (s : LineReader) (c : UInt16) : LineReader := { s with cur := s.cur ++ [c] }

/-- `out.push(cur); cur = ''` -/
def LineReader.push (s : LineReader) : LineReader := ⟨s.out ++ [s.cur], []⟩

/-- The loop; `skip` where `i++` has gone beyond the next character. -/
def parseFrom : Bool → Bool → LineReader → JsString → List JsString
  | _, _, s, [] => s.push.out
  | true, quoted, s, _ :: rest => parseFrom false quoted s rest
  | false, true, s, c :: rest =>
    if c = quote ∧ rest.head? = some quote then parseFrom true true (s.put quote) rest
    else if c = quote then parseFrom false false s rest
    else parseFrom false true (s.put c) rest
  | false, false, s, c :: rest =>
    if c = quote then parseFrom false true s rest
    else if c = comma then parseFrom false false s.push rest
    else parseFrom false false (s.put c) rest

def parseLine (line : JsString) : List JsString := parseFrom false false ⟨[], []⟩ line

/-- `k || 'column' + (i + 1)` -/
def nameOf (k : JsString × Nat) : JsString := if k.1 = [] then js "column" ++ natText (k.2 + 1) else k.1

def recordOf (keys : List JsString) (line : JsString) : List (JsString × JsString) :=
  let cells := parseLine line
  fromEntries (keys.zipIdx.map fun k => (nameOf k, (cells[k.2]?).getD []))

/-- The lines that are not empty. -/
def linesOf (text : JsString) : List JsString := (splitLines [] text).filter fun l => l ≠ []

def recordsOf (text : JsString) : List (List (JsString × JsString)) :=
  match linesOf text with
  | [] => []
  | header :: lines => lines.map (recordOf (parseLine header))

def textObject (ps : List (JsString × JsString)) : JsValue := .obj (ps.map fun p => (p.1, .str p.2))

/-- `JSON.stringify(records, null, 2)`, and that is `[]` where there is no line. -/
def csv2json (buf : List UInt8) : List UInt8 :=
  blob (ofChars ((pretty 0 (.arr ((recordsOf (textDecoder buf)).map textObject))).getD []))

/-! ## Lines -/

theorem splitLines_text {t : JsString} (h : LF ∉ t) (line rest : JsString) :
    splitLines line (t ++ rest) = splitLines (line ++ t) rest := by
  induction t generalizing line with
  | nil => rw [List.nil_append, List.append_nil]
  | cons u t ih =>
    rw [List.mem_cons, not_or] at h
    rw [List.cons_append, splitLines, if_neg (fun hu => h.1 hu.symm), ih h.2, List.append_assoc, List.singleton_append]

theorem splitLines_lf (line rest : JsString) : splitLines line (LF :: rest) = dropCr line :: splitLines [] rest := if_pos rfl

theorem dropCr_append (line : JsString) : dropCr (line ++ [CR]) = line := by
  rw [dropCr, List.getLast?_append, List.getLast?_singleton, Option.some_or, if_pos rfl, List.dropLast_concat]

theorem splitLines_crlf {t : JsString} (h : LF ∉ t) (rest : JsString) :
    splitLines [] (t ++ (CRLF ++ rest)) = t :: splitLines [] rest := by
  rw [splitLines_text h]
  show splitLines ([] ++ t) (CR :: LF :: rest) = _
  rw [splitLines, if_neg (by decide), splitLines_lf, dropCr_append]
  rfl

theorem splitLines_last {t : JsString} (h : LF ∉ t) (line : JsString) : splitLines line t = [line ++ t] := by
  have hsplit := splitLines_text h line []
  rwa [List.append_nil] at hsplit

theorem mem_of_mem_dropCr {line : JsString} {u : UInt16} (h : u ∈ dropCr line) : u ∈ line := by
  rw [dropCr] at h
  split at h
  · exact (List.dropLast_sublist line).mem h
  · exact h

theorem mem_dropCr {line : JsString} {u : UInt16} (h : u ∈ line) (hu : u ≠ CR) : u ∈ dropCr line := by
  rw [dropCr]
  split
  · rename_i hlast
    have hline := List.dropLast_append_getLast? CR hlast
    rw [← hline] at h
    exact (List.mem_append.mp h).resolve_right fun h => hu (List.mem_singleton.mp h)
  · exact h

theorem wellFormed_dropCr {line : JsString} (h : WellFormed line) : WellFormed (dropCr line) := by
  rw [dropCr]
  split
  · rename_i hlast
    rw [← List.dropLast_append_getLast? CR hlast] at h
    exact ((wellFormed_append_iff (by decide)).mp h).1
  · exact h

/-- What a line cannot have. -/
structure LineText (t : JsString) : Prop where
  noLf : LF ∉ t
  wellFormed : WellFormed t

theorem lineText_of_mem_splitLines {line text : JsString} (hline : LF ∉ line) (h : WellFormed (line ++ text)) :
    ∀ l ∈ splitLines line text, LineText l := by
  induction text generalizing line with
  | nil =>
    intro l hl
    rw [List.append_nil] at h
    rw [List.mem_singleton.mp hl]
    exact ⟨hline, h⟩
  | cons u text ih =>
    intro l hl
    rw [splitLines] at hl
    split at hl
    · rename_i hu
      rw [hu, wellFormed_append_iff (by decide)] at h
      rcases List.mem_cons.mp hl with rfl | hl
      · exact ⟨fun hmem => hline (mem_of_mem_dropCr hmem), wellFormed_dropCr h.1⟩
      · exact ih List.not_mem_nil h.2 l hl
    · rename_i hu
      refine ih ?_ (by rwa [List.append_assoc]) l hl
      rw [List.mem_append, not_or]
      exact ⟨hline, fun hmem => hu (List.mem_singleton.mp hmem).symm⟩

/-- What is no line break is in some line. -/
theorem mem_splitLines {u : UInt16} (hlf : u ≠ LF) (hcr : u ≠ CR) {text : JsString} (line : JsString) (h : u ∈ line ++ text) :
    ∃ l ∈ splitLines line text, u ∈ l := by
  induction text generalizing line with
  | nil => exact ⟨line, List.mem_singleton_self _, by rwa [List.append_nil] at h⟩
  | cons v text ih =>
    rw [splitLines]
    split
    · rename_i hv
      rw [hv, List.mem_append, List.mem_cons] at h
      rcases h with h | h | h
      · exact ⟨_, List.mem_cons_self, mem_dropCr h hcr⟩
      · exact absurd h hlf
      · obtain ⟨l, hl, hu⟩ := ih [] h
        exact ⟨l, List.mem_cons_of_mem _ hl, hu⟩
    · exact ih (line ++ [v]) (by rwa [List.append_assoc])

theorem splitLines_append (line a b : JsString) : ∃ ls, splitLines line (a ++ LF :: b) = ls ++ splitLines [] b ∧
    ∀ u, u ≠ LF → u ≠ CR → u ∈ line ++ a → ∃ l ∈ ls, u ∈ l := by
  induction a generalizing line with
  | nil =>
    refine ⟨[dropCr line], splitLines_lf line b, fun u _ hcr hu => ⟨_, List.mem_singleton_self _, mem_dropCr ?_ hcr⟩⟩
    rwa [List.append_nil] at hu
  | cons v a ih =>
    rw [List.cons_append, splitLines]
    split
    · rename_i hv
      obtain ⟨ls, heq, hmem⟩ := ih []
      refine ⟨dropCr line :: ls, congrArg _ heq, fun u hlf hcr hu => ?_⟩
      rw [hv, List.mem_append, List.mem_cons] at hu
      rcases hu with hu | hu | hu
      · exact ⟨_, List.mem_cons_self, mem_dropCr hu hcr⟩
      · exact absurd hu hlf
      · obtain ⟨l, hl, hul⟩ := hmem u hlf hcr hu
        exact ⟨l, List.mem_cons_of_mem _ hl, hul⟩
    · obtain ⟨ls, heq, hmem⟩ := ih (line ++ [v])
      exact ⟨ls, heq, fun u hlf hcr hu => hmem u hlf hcr (by rwa [List.append_assoc])⟩

/-- A break between two characters that are none makes two lines. -/
theorem two_le_linesOf {u : UInt16} (hlf : u ≠ LF) (hcr : u ≠ CR) {a b : JsString} (ha : u ∈ a) (hb : u ∈ b) :
    2 ≤ (linesOf (a ++ LF :: b)).length := by
  have hpos : ∀ {ls : List JsString}, (∃ l ∈ ls, u ∈ l) → 1 ≤ (ls.filter fun l => l ≠ []).length := by
    rintro ls ⟨l, hl, hu⟩
    exact List.length_pos_of_mem (List.mem_filter.mpr ⟨hl, decide_eq_true (List.ne_nil_of_mem hu)⟩)
  obtain ⟨ls, heq, hmem⟩ := splitLines_append [] a b
  rw [linesOf, heq, List.filter_append, List.length_append]
  exact Nat.add_le_add (hpos (hmem u hlf hcr ha)) (hpos (mem_splitLines hlf hcr [] hb))

theorem mem_joinWith {sep : JsString} {ls : List JsString} {u : UInt16} (h : u ∈ joinWith sep ls) :
    u ∈ sep ∨ ∃ l ∈ ls, u ∈ l := by
  induction ls with
  | nil => exact absurd h List.not_mem_nil
  | cons l ls ih =>
    cases ls with
    | nil => exact .inr ⟨l, List.mem_singleton_self l, h⟩
    | cons l' ls =>
      rcases List.mem_append.mp h with h | h
      · exact (List.mem_append.mp h).symm.imp id fun h => ⟨l, List.mem_cons_self, h⟩
      · exact (ih h).imp id fun ⟨l, hl, hu⟩ => ⟨l, List.mem_cons_of_mem _ hl, hu⟩

theorem infix_joinWith {sep : JsString} {ls : List JsString} {l : JsString} (h : l ∈ ls) : l <:+: joinWith sep ls := by
  induction ls with
  | nil => exact absurd h List.not_mem_nil
  | cons first ls ih =>
    cases ls with
    | nil =>
      rw [List.mem_singleton.mp h]
      exact List.infix_refl _
    | cons l' ls =>
      rcases List.mem_cons.mp h with rfl | h
      · exact (List.prefix_append l (sep ++ joinWith sep (l' :: ls))).isInfix.trans
          (by simpa only [joinWith, List.append_assoc] using List.infix_refl _)
      · exact (ih h).trans (List.suffix_append _ _).isInfix

theorem wellFormed_joinWith {sep : JsString} (hsep : WellFormed sep) {ls : List JsString} (h : ∀ l ∈ ls, WellFormed l) :
    WellFormed (joinWith sep ls) := by
  induction ls with
  | nil => exact rfl
  | cons l ls ih =>
    cases ls with
    | nil => exact h l List.mem_cons_self
    | cons l' ls =>
      exact ((h l List.mem_cons_self).append hsep).append (ih fun l hl => h l (List.mem_cons_of_mem _ hl))

/-! ## Cells -/

/-- What holds of the reader and the rest of the line, in quotes or not, and is kept by every step. -/
structure LineInv (I : Bool → LineReader → JsString → Prop) : Prop where
  opening : ∀ s rest, I false s (quote :: rest) → I true s rest
  delimiter : ∀ s rest, I false s (comma :: rest) → I false s.push rest
  plain : ∀ s c rest, c ≠ quote → c ≠ comma → I false s (c :: rest) → I false (s.put c) rest
  doubled : ∀ s rest, I true s (quote :: quote :: rest) → I true (s.put quote) rest
  closing : ∀ s rest, I true s (quote :: rest) → I false s rest
  inside : ∀ s c rest, c ≠ quote → I true s (c :: rest) → I true (s.put c) rest

/-- **The whole line.** -/
theorem LineInv.run {I : Bool → LineReader → JsString → Prop} (h : LineInv I) (line : JsString)
    (hline : I false ⟨[], []⟩ line) :
    ∃ quoted s, I quoted s [] ∧ parseLine line = s.push.out := by
  -- a character that is skipped has been taken already
  have hrun : ∀ (rest : JsString) (skip quoted : Bool) (s : LineReader), I quoted s (if skip then rest.tail else rest) →
      ∃ quoted' s', I quoted' s' [] ∧ parseFrom skip quoted s rest = s'.push.out := by
    intro rest
    induction rest with
    | nil =>
      intro skip quoted s hI
      refine ⟨quoted, s, ?_, by cases skip <;> cases quoted <;> rfl⟩
      cases skip <;> exact hI
    | cons c rest ih =>
      intro skip quoted s hI
      cases skip with
      | true => exact ih false quoted s hI
      | false =>
        have hI : I quoted s (c :: rest) := hI
        cases quoted with
        | true =>
          rw [parseFrom]
          split
          · rename_i hdouble
            obtain ⟨rfl, hhead⟩ := hdouble
            obtain ⟨rest, rfl⟩ := List.head?_eq_some_iff.mp hhead
            exact ih true true _ (h.doubled s rest hI)
          split
          · rename_i hc
            subst hc
            exact ih false false s (h.closing s rest hI)
          · rename_i hc
            exact ih false true _ (h.inside s c rest hc hI)
        | false =>
          rw [parseFrom]
          split
          · rename_i hc
            subst hc
            exact ih false true s (h.opening s rest hI)
          split
          · rename_i hc
            subst hc
            exact ih false false _ (h.delimiter s rest hI)
          · rename_i hq hc
            exact ih false false _ (h.plain s c rest hq hc hI)
  exact hrun line false false _ hline

/-- A cell has what the line has. -/
theorem mem_parseLine {line cell : JsString} (hcell : cell ∈ parseLine line) {u : UInt16} (hu : u ∈ cell) : u ∈ line := by
  have hinv : LineInv fun _ s rest => (∀ cell ∈ s.out ++ [s.cur], ∀ u ∈ cell, u ∈ line) ∧ ∀ u ∈ rest, u ∈ line := by
    have hput : ∀ (s : LineReader) (c : UInt16), c ∈ line → (∀ cell ∈ s.out ++ [s.cur], ∀ u ∈ cell, u ∈ line) →
        ∀ cell ∈ (s.put c).out ++ [(s.put c).cur], ∀ u ∈ cell, u ∈ line := by
      intro s c hc hs cell hcell u hu
      rcases List.mem_append.mp hcell with hcell | hcell
      · exact hs cell (List.mem_append_left _ hcell) u hu
      · rw [List.mem_singleton.mp hcell] at hu
        rcases List.mem_append.mp hu with hu | hu
        · exact hs s.cur (List.mem_append_right _ (List.mem_singleton_self _)) u hu
        · exact List.mem_singleton.mp hu ▸ hc
    have htail : ∀ {c : UInt16} {rest : JsString}, (∀ u ∈ c :: rest, u ∈ line) → ∀ u ∈ rest, u ∈ line :=
      fun h u hu => h u (List.mem_cons_of_mem _ hu)
    refine ⟨?_, ?_, ?_, ?_, ?_, ?_⟩
    · exact fun s rest h => ⟨h.1, htail h.2⟩
    · intro s rest h
      refine ⟨fun cell hcell u hu => ?_, htail h.2⟩
      rcases List.mem_append.mp hcell with hcell | hcell
      · exact h.1 cell hcell u hu
      · rw [List.mem_singleton.mp hcell] at hu
        exact absurd hu List.not_mem_nil
    · exact fun s c rest _ _ h => ⟨hput s c (h.2 c List.mem_cons_self) h.1, htail h.2⟩
    · exact fun s rest h => ⟨hput s quote (h.2 quote List.mem_cons_self) h.1, htail (htail h.2)⟩
    · exact fun s rest h => ⟨h.1, htail h.2⟩
    · exact fun s c rest _ h => ⟨hput s c (h.2 c List.mem_cons_self) h.1, htail h.2⟩
  obtain ⟨_, s, hs, heq⟩ := hinv.run line ⟨by simp, fun u hu => hu⟩
  rw [heq] at hcell
  exact hs.1 cell hcell u hu

theorem wellFormed_parseLine {line : JsString} (hline : WellFormed line) : ∀ cell ∈ parseLine line, WellFormed cell := by
  have hinv : LineInv fun _ s rest => (∀ cell ∈ s.out, WellFormed cell) ∧ WellFormed (s.cur ++ rest) := by
    have hput : ∀ {s : LineReader} {c : UInt16} {rest : JsString}, WellFormed (s.cur ++ c :: rest) →
        WellFormed ((s.put c).cur ++ rest) := by
      intro s c rest h
      rwa [LineReader.put, List.append_assoc]
    have hdrop : ∀ {cur : JsString} {rest : JsString}, WellFormed (cur ++ quote :: rest) → WellFormed (cur ++ rest) := by
      intro cur rest h
      rw [wellFormed_append_iff (by decide)] at h
      exact h.1.append h.2
    refine ⟨?_, ?_, ?_, ?_, ?_, ?_⟩
    · exact fun s rest h => ⟨h.1, hdrop h.2⟩
    · intro s rest h
      have hparts := (wellFormed_append_iff (by decide)).mp h.2
      refine ⟨fun cell hcell => ?_, hparts.2⟩
      rcases List.mem_append.mp hcell with hcell | hcell
      · exact h.1 cell hcell
      · exact List.mem_singleton.mp hcell ▸ hparts.1
    · exact fun s c rest _ _ h => ⟨h.1, hput h.2⟩
    · exact fun s rest h => ⟨h.1, hdrop (hput h.2)⟩
    · exact fun s rest h => ⟨h.1, hdrop h.2⟩
    · exact fun s c rest _ h => ⟨h.1, hput h.2⟩
  obtain ⟨_, s, hs, heq⟩ := hinv.run line ⟨List.forall_mem_nil _, hline⟩
  intro cell hcell
  rw [heq] at hcell
  rcases List.mem_append.mp hcell with hcell | hcell
  · exact hs.1 cell hcell
  · rw [List.mem_singleton.mp hcell]
    exact (List.append_nil s.cur) ▸ hs.2

theorem reads_parseFrom : Reads (parseFrom false) LineReader.put quote fun c => c = comma ∨ c = quote where
  opening s rest := by rw [parseFrom, if_pos rfl]
  doubled s rest := by
    rw [parseFrom, if_pos ⟨rfl, rfl⟩]
    rfl
  closing s rest hrest := by rw [parseFrom, if_neg (fun h => hrest h.2), if_pos rfl]
  inside s c rest hc := by rw [parseFrom, if_neg (fun h => hc h.1), if_neg hc]
  plain s c rest hc := by
    rw [not_or] at hc
    rw [parseFrom, if_neg hc.2, if_neg hc.1]

/-- A cell as it is written, in quotes or not. -/
def cellText (cell : JsString × Bool) : JsString := field quote cell.2 cell.1

theorem wellFormed_cellText {cell : JsString × Bool} (h : WellFormed cell.1) : WellFormed (cellText cell) := by
  have hdouble : ∀ cs : List Char, WellFormed (double quote (ofChars cs)) := by
    intro cs
    induction cs with
    | nil => exact rfl
    | cons c cs ih =>
      rw [ofChars_cons, double, List.flatMap_append]
      refine WellFormed.append ?_ ih
      rcases units_spec c with ⟨u, hu, hunits, -⟩ | ⟨hi, lo, hhi, hlo, hunits, -⟩
      · rw [hunits, List.flatMap_singleton]
        split
        · decide
        · exact wellFormed_plain hu
      · -- a pair has no quote
        have hhi : hi ≠ quote := by
          rintro rfl
          cases hhi
        have hlo : lo ≠ quote := by
          rintro rfl
          cases hlo
        have hpair : (units c).flatMap (fun c => if c = quote then [quote, quote] else [c]) = units c := by
          rw [hunits, List.flatMap_cons, if_neg hhi, List.flatMap_singleton, if_neg hlo]
          rfl
        rw [hpair, ← List.append_nil (units c)]
        exact wellFormed_ofChars [c]
  rw [cellText, field]
  split
  · rw [← h]
    exact (wellFormed_plain (by decide)).append ((hdouble _).append (wellFormed_plain (by decide)))
  · exact h

/-- Without quotes it has none inside, and no comma. -/
def Readable (cell : JsString × Bool) : Prop := cell.2 = false → comma ∉ cell.1 ∧ quote ∉ cell.1

/-- **A line of cells** is read as their texts. -/
theorem parseLine_joined (cells : List (JsString × Bool)) (hne : cells ≠ []) (h : ∀ cell ∈ cells, Readable cell) :
    parseLine (joinWith [comma] (cells.map cellText)) = cells.map Prod.fst := by
  have hput : ∀ (t : JsString) (s : LineReader), t.foldl LineReader.put s = ⟨s.out, s.cur ++ t⟩ := by
    intro t
    induction t with
    | nil => exact fun s => congrArg (LineReader.mk s.out) (List.append_nil s.cur).symm
    | cons c t ih =>
      intro s
      rw [List.foldl_cons, ih]
      show LineReader.mk s.out (s.cur ++ [c] ++ t) = _
      rw [List.append_assoc, List.singleton_append]
  have hcell : ∀ cell ∈ cells, ∀ (out : List JsString) (rest : JsString), rest.head? ≠ some quote →
      parseFrom false false ⟨out, []⟩ (cellText cell ++ rest) = parseFrom false false ⟨out, cell.1⟩ rest := by
    intro cell hmem out rest hrest
    rw [cellText, reads_parseFrom.field _ _ hrest, hput]
    · rfl
    · rintro hmust c hc (rfl | rfl)
      · exact (h cell hmem hmust).1 hc
      · exact (h cell hmem hmust).2 hc
  have hrun : ∀ out, parseFrom false false ⟨out, []⟩ (joinWith [comma] (cells.map cellText)) = out ++ cells.map Prod.fst := by
    clear h
    induction cells with
    | nil => exact absurd rfl hne
    | cons cell cells ih =>
      intro out
      cases cells with
      | nil =>
        have hlast := hcell cell (List.mem_singleton_self _) out [] (Option.some_ne_none quote).symm
        rw [List.append_nil] at hlast
        exact hlast
      | cons cell' cells =>
        show parseFrom false false _ (cellText cell ++ [comma] ++ joinWith [comma] ((cell' :: cells).map cellText)) = _
        rw [List.append_assoc, hcell cell List.mem_cons_self _ _ (by show some comma ≠ some quote; decide)]
        show parseFrom false false ⟨out ++ [cell.1], []⟩ (joinWith [comma] ((cell' :: cells).map cellText)) = _
        rw [ih (List.cons_ne_nil _ _) (fun c hc => hcell c (List.mem_cons_of_mem _ hc)), List.append_assoc]
        rfl
  exact hrun []

/-! ## The file that comes out -/

theorem textDecoder_blob {s : JsString} (h : WellFormed s) : textDecoder (blob s) = dropBom s := textDecoder_utf8 h

theorem jsonCopy_textObject (es : List (JsString × JsString)) :
    jsonCopy (textObject (fromEntries es)) = textObject (fromEntries es) := by
  have hcopy : ∀ ps : List (JsString × JsString), copyProps (ps.map fun p => (p.1, .str p.2)) =
    ps.map fun p => (p.1, .str p.2) := by
    intro ps
    induction ps with
    | nil => rfl
    | cons p ps ih =>
      rw [List.map_cons, copyProps, ih]
      · rfl
      · exact JsValue.noConfusion
  have hnodup : (((fromEntries es).map fun p => (p.1, JsValue.str p.2)).map Prod.fst).Nodup := by
    rw [List.map_map]
    exact nodup_fromEntries es
  have horder : InOrder ((fromEntries es).map fun p => (p.1, JsValue.str p.2)) :=
    List.pairwise_map.mpr (inOrder_ownOrder _)
  rw [textObject, jsonCopy, hcopy, fromEntries_of_nodup hnodup, horder.ownOrder_eq]

theorem exists_fromEntries {text : JsString} {ps : List (JsString × JsString)} (h : ps ∈ recordsOf text) :
    ∃ es, ps = fromEntries es := by
  rw [recordsOf] at h
  split at h
  · exact absurd h List.not_mem_nil
  · obtain ⟨line, -, rfl⟩ := List.mem_map.mp h
    exact ⟨_, rfl⟩

/-- **What the file says** are the records. -/
theorem parse_csv2json (buf : List UInt8) :
    parseJson (csv2json buf) = some (.arr ((recordsOf (textDecoder buf)).map textObject)) := by
  have hcopy : jsonCopy (.arr ((recordsOf (textDecoder buf)).map textObject)) =
      .arr ((recordsOf (textDecoder buf)).map textObject) := by
    rw [jsonCopy, copyElems_eq, List.map_map]
    refine congrArg JsValue.arr (List.map_congr_left fun ps hps => ?_)
    obtain ⟨es, rfl⟩ := exists_fromEntries hps
    exact jsonCopy_textObject es
  rw [csv2json]
  cases htext : pretty 0 (.arr ((recordsOf (textDecoder buf)).map textObject)) with
  | none => cases pretty_eq_none htext
  | some t =>
    have hhead : dropBom (ofChars t) = ofChars t := by
      obtain ⟨c, hc⟩ : ∃ t', t = '[' :: t' := by
        cases hrecords : (recordsOf (textDecoder buf)).map textObject with
        | nil =>
          rw [hrecords] at htext
          exact ⟨_, (Option.some.inj htext).symm⟩
        | cons v vs =>
          rw [hrecords, pretty] at htext
          exact ⟨_, (Option.some.inj htext).symm⟩
      rw [hc]
      rfl
    rw [parseJson, Option.getD_some, textDecoder_blob (wellFormed_ofChars t), hhead,
      scalars_ofChars, parse_pretty htext, hcopy]

theorem textObject_injective : Function.Injective textObject := by
  intro ps qs h
  refine List.map_injective_iff.mpr ?_ (JsValue.obj.inj h)
  rintro ⟨k, v⟩ ⟨k', v'⟩ h
  simp only [Prod.mk.injEq, JsValue.str.injEq] at h
  rw [h.1, h.2]

theorem parse_csv2json_eq_iff {buf : List UInt8} {expected : List (List (JsString × JsString))} :
    parseJson (csv2json buf) = some (.arr (expected.map textObject)) ↔ recordsOf (textDecoder buf) = expected := by
  rw [parse_csv2json, Option.some.injEq, JsValue.arr.injEq, (List.map_injective_iff.mpr textObject_injective).eq_iff]

/-! ## The records -/

/-- What replaces an empty name is letters and digits. -/
theorem mem_columnName {n : Nat} {u : UInt16} (h : u ∈ js "column" ++ natText n) : 0x30 ≤ u.toNat ∧ u.toNat ≤ 0x7a := by
  rcases List.mem_append.mp h with h | h
  · have hall : ((js "column").all fun u => 0x30 ≤ u.toNat && u.toNat ≤ 0x7a) = true := by decide
    simpa using List.all_eq_true.mp hall u h
  · obtain ⟨c, hc, hu⟩ := List.mem_flatMap.mp h
    have hdigit := isDigit_toDigits hc
    rw [Char.isDigit, Bool.and_eq_true, decide_eq_true_eq, decide_eq_true_eq] at hdigit
    have hlower : 0x30 ≤ c.toNat := hdigit.1
    have hupper : c.toNat ≤ 0x39 := hdigit.2
    rw [units, if_pos (by omega), List.mem_singleton] at hu
    rw [hu, UInt16.toNat_ofNat', Nat.mod_eq_of_lt (by omega)]
    omega

theorem lineText_nameOf {k : JsString × Nat} (h : LineText k.1) : LineText (nameOf k) := by
  rw [nameOf]
  split
  · refine ⟨fun hlf => absurd (mem_columnName hlf).1 (by decide), ?_⟩
    rw [js, natText, ← ofChars_append]
    exact wellFormed_ofChars _
  · exact h

theorem lineText_nil : LineText [] := ⟨List.not_mem_nil, rfl⟩

theorem lineText_parseLine {line : JsString} (h : LineText line) : ∀ cell ∈ parseLine line, LineText cell :=
  fun cell hcell => ⟨fun hlf => h.noLf (mem_parseLine hcell hlf), wellFormed_parseLine h.wellFormed cell hcell⟩

theorem lineText_of_mem_linesOf {text : JsString} (h : WellFormed text) {line : JsString} (hline : line ∈ linesOf text) :
    LineText line :=
  lineText_of_mem_splitLines (show LF ∉ ([] : JsString) from List.not_mem_nil) h line (List.mem_filter.mp hline).1

/-- The names and the texts in a record are of lines. -/
theorem lineText_of_mem_recordOf {keys : List JsString} {line : JsString}
    (hkeys : ∀ k ∈ keys, LineText k) (hline : LineText line)
    {p : JsString × JsString} (h : p ∈ recordOf keys line) : LineText p.1 ∧ LineText p.2 := by
  obtain ⟨k, hk, rfl⟩ := List.mem_map.mp (mem_of_mem_fromEntries h)
  refine ⟨lineText_nameOf (hkeys _ (List.fst_mem_of_mem_zipIdx hk)), ?_⟩
  show LineText (((parseLine line)[k.2]?).getD [])
  cases hcell : (parseLine line)[k.2]? with
  | none => exact lineText_nil
  | some cell => exact lineText_parseLine hline cell (List.mem_of_getElem? hcell)

theorem lineText_of_mem_recordsOf {text : JsString} (h : WellFormed text) {ps : List (JsString × JsString)}
    (hps : ps ∈ recordsOf text) {p : JsString × JsString} (hp : p ∈ ps) : LineText p.1 ∧ LineText p.2 := by
  have hlines : ∀ l ∈ linesOf text, LineText l := fun l => lineText_of_mem_linesOf h
  rw [recordsOf] at hps
  split at hps
  · exact absurd hps List.not_mem_nil
  · rename_i header lines heq
    rw [heq] at hlines
    obtain ⟨line, hline, rfl⟩ := List.mem_map.mp hps
    exact lineText_of_mem_recordOf (lineText_parseLine (hlines header List.mem_cons_self))
      (hlines line (List.mem_cons_of_mem _ hline)) hp

/-- Names and texts that come back are of lines. -/
theorem lineText_of_recordsOf {keys : List JsString} {rows : List (List JsString)} (hrows : rows ≠ [])
    (hwidth : ∀ row ∈ rows, row.length = keys.length) {text : JsString} (hwell : WellFormed text)
    (h : recordsOf text = rows.map fun row => ownOrder (keys.zip row)) :
    (∀ k ∈ keys, LineText k) ∧ ∀ row ∈ rows, ∀ v ∈ row, LineText v := by
  have hpairs : ∀ row ∈ rows, ∀ p ∈ keys.zip row, LineText p.1 ∧ LineText p.2 := by
    intro row hrow p hp
    have hps : ownOrder (keys.zip row) ∈ recordsOf text := by
      rw [h]
      exact List.mem_map_of_mem hrow
    exact lineText_of_mem_recordsOf hwell hps (mem_ownOrder.mpr hp)
  constructor
  · intro k hk
    obtain ⟨row, rows, rfl⟩ := List.exists_cons_of_ne_nil hrows
    have hfst : k ∈ (keys.zip row).map Prod.fst := by
      rwa [List.map_fst_zip (Nat.le_of_eq (hwidth row List.mem_cons_self).symm)]
    obtain ⟨p, hp, rfl⟩ := List.mem_map.mp hfst
    exact (hpairs row List.mem_cons_self p hp).1
  · intro row hrow v hv
    have hsnd : v ∈ (keys.zip row).map Prod.snd := by
      rwa [List.map_snd_zip (Nat.le_of_eq (hwidth row hrow))]
    obtain ⟨p, hp, rfl⟩ := List.mem_map.mp hsnd
    exact (hpairs row hrow p hp).2

theorem length_recordsOf (text : JsString) : (recordsOf text).length = (linesOf text).length - 1 := by
  rw [recordsOf]
  split
  · rename_i heq
    rw [heq]
    rfl
  · rename_i heq
    rw [heq, List.length_map]
    rfl

/-- A name in a record is one of the header, or stands for an empty one. -/
theorem mem_keys_of_recordOf {keys : List JsString} {line : JsString} {p : JsString × JsString} (h : p ∈ recordOf keys line) :
    p.1 ∈ keys ∨ ∃ n, p.1 = js "column" ++ natText n := by
  obtain ⟨k, hk, rfl⟩ := List.mem_map.mp (mem_of_mem_fromEntries h)
  show nameOf k ∈ keys ∨ _
  rw [nameOf]
  split
  · exact .inr ⟨_, rfl⟩
  · exact .inl (List.fst_mem_of_mem_zipIdx hk)

/-- **A record** with a cell for every name. -/
theorem recordOf_eq {keys cells : List JsString} (hne : ∀ k ∈ keys, k ≠ []) (hdistinct : keys.Nodup)
    (hlength : cells.length = keys.length) {line : JsString} (hline : parseLine line = cells) :
    recordOf keys line = ownOrder (keys.zip cells) := by
  have hentries : (keys.zipIdx.map fun k => (nameOf k, (cells[k.2]?).getD [])) = keys.zip cells := by
    apply List.ext_getElem?
    intro n
    rw [List.getElem?_map, List.getElem?_zipIdx]
    by_cases hn : n < keys.length
    · rw [List.getElem?_eq_getElem hn, List.getElem?_eq_getElem (by rw [List.length_zip]; omega), List.getElem_zip]
      show some (nameOf (keys[n], 0 + n), (cells[0 + n]?).getD []) = _
      rw [Nat.zero_add, List.getElem?_eq_getElem (by omega), nameOf, if_neg (hne _ (List.getElem_mem hn))]
      rfl
    · rw [List.getElem?_eq_none (by omega), List.getElem?_eq_none (by rw [List.length_zip]; omega)]
      rfl
  rw [recordOf, hline]
  show fromEntries (keys.zipIdx.map fun k => (nameOf k, (cells[k.2]?).getD [])) = _
  rw [hentries, fromEntries_of_nodup]
  rwa [List.map_fst_zip (Nat.le_of_eq hlength.symm)]

end Tables
end MaterialOpenWebui
