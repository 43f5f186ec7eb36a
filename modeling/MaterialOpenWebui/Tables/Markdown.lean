import MaterialOpenWebui.Lib.Cut
import MaterialOpenWebui.Tables.Delimited

/-!
# `Tables.Markdown` — the Markdown export (`docs/assets/js/formats.js`)

A pipe ends a cell and is escaped, a newline ends the row and becomes a break. What ends a line for a reader of Markdown is also a
carriage return that stands alone, and that one is left as it is.
-/

namespace MaterialOpenWebui
namespace Tables
open Js JsValue Cut

/-! ## The writer -/

def pipe : UInt16 := 0x7c
def escapeSign : UInt16 := 0x5c
def space : UInt16 := 0x20

def lineBreak : JsString := js "<br>"

/-- `.replace(/\r?\n/g, '<br>')`: with a return before it, a feed is replaced together with that. -/
def breakLines : JsString → JsString
  | [] => []
  | u :: s =>
    if u = LF then lineBreak ++ breakLines s
    else if u = CR ∧ s.head? = some LF then breakLines s
    else u :: breakLines s

def markdownCell (value : JsValue) : JsString :=
  breakLines (replaceUnit pipe "\\|" (replaceUnit escapeSign "\\\\" (scalar value)))

def markdownRow (cells : List JsString) : JsString := js "| " ++ joinWith (js " | ") cells ++ js " |"

section
variable (inherited : JsValue → JsString → JsValue)

def toMarkdown (rows : List JsValue) : JsString :=
  let cols := columns rows
  if cols = [] then js "_No records._" ++ [LF]
  else
    let out := markdownRow (cols.map fun c => markdownCell (.str c)) :: markdownRow (cols.map fun _ => js "---") ::
      rows.map fun row => markdownRow (cols.map fun c => markdownCell (cellOf inherited row c))
    joinWith [LF] out ++ [LF]

end

/-! ## The reader -/

/-- The first line begins with `u`. -/
def hang (u : UInt16) : List JsString → List JsString
  | [] => [[u]]
  | line :: lines => (u :: line) :: lines

/-- The lines of a text: one ends with a feed, a return, or both, and the last with the text. -/
def markdownLines : Bool → JsString → List JsString
  | _, [] => []
  | returned, u :: s =>
    if u = LF then if returned then markdownLines false s else [] :: markdownLines false s
    else if u = CR then [] :: markdownLines true s
    else hang u (markdownLines false s)

def isPunctuation (u : UInt16) : Bool :=
  0x21 ≤ u && u ≤ 0x2f || 0x3a ≤ u && u ≤ 0x40 || 0x5b ≤ u && u ≤ 0x60 || 0x7b ≤ u && u ≤ 0x7e

def unescape : JsString → JsString
  | [] => []
  | [u] => [u]
  | u :: v :: s => if u = escapeSign ∧ isPunctuation v = true then v :: unescape s else u :: unescape (v :: s)

/-- A escapeSign escapes what follows, unless it is escaped itself. -/
def nextEscaped (escaped : Bool) (u : UInt16) : Bool := !escaped && u == escapeSign

def endsCell (escaped : Bool) (u : UInt16) : Bool := !escaped && u == pipe

/-- What stands between the pipes of a line that are not escaped, without a space on each side. -/
def readCells (line : JsString) : List JsString :=
  (cut nextEscaped endsCell false line).tail.dropLast.map fun cell => unescape (cell.drop 1).dropLast

/-- A text with a break for each line ending. -/
def replaced : JsString → JsString
  | [] => []
  | u :: s =>
    if u = LF then lineBreak ++ replaced s
    else if u = CR then if s.head? = some LF then replaced s else lineBreak ++ replaced s
    else u :: replaced s

/-! ## Escapes -/

def escapeUnit (u : UInt16) : JsString := if u = escapeSign ∨ u = pipe then [escapeSign, u] else [u]

def escape (text : JsString) : JsString := text.flatMap escapeUnit

theorem replaceUnits_eq (text : JsString) : replaceUnit pipe "\\|" (replaceUnit escapeSign "\\\\" text) = escape text := by
  induction text with
  | nil => rfl
  | cons u text ih =>
    show ((if u = escapeSign then js "\\\\" else [u]) ++ replaceUnit escapeSign "\\\\" text).flatMap _ =
      escapeUnit u ++ escape text
    rw [List.flatMap_append, ← ih]
    congr 1
    unfold escapeUnit
    by_cases hb : u = escapeSign
    · rw [if_pos hb, if_pos (.inl hb), hb]
      rfl
    · rw [if_neg hb]
      by_cases hp : u = pipe
      · rw [if_pos (.inr hp), hp]
        rfl
      · have hno : ¬ (u = escapeSign ∨ u = pipe) := not_or.mpr ⟨hb, hp⟩
        rw [if_neg hno, List.flatMap_singleton, if_neg hp]

theorem escape_cons (u : UInt16) (text : JsString) : escape (u :: text) = escapeUnit u ++ escape text := List.flatMap_cons

theorem unescape_cons {u : UInt16} (hu : u ≠ escapeSign) (s : JsString) : unescape (u :: s) = u :: unescape s := by
  cases s with
  | nil => rfl
  | cons v s => rw [unescape, if_neg (fun h => hu h.1)]

theorem unescape_escape (text : JsString) : unescape (escape text) = text := by
  induction text with
  | nil => rfl
  | cons u text ih =>
    rw [escape_cons, escapeUnit]
    split_ifs with hu
    · have hpunct : isPunctuation u = true := by rcases hu with rfl | rfl <;> decide
      show unescape (escapeSign :: u :: escape text) = _
      rw [unescape, if_pos ⟨rfl, hpunct⟩, ih]
    · rw [List.singleton_append, unescape_cons (fun h => hu (.inl h)), ih]

/-- No pipe of the text ends a cell, and it escapes nothing after it. -/
def Closed (text : JsString) : Prop := Whole nextEscaped endsCell false text ∧ run nextEscaped false text = false

theorem Closed.append {text rest : JsString} (h : Closed text) (hrest : Closed rest) : Closed (text ++ rest) := by
  refine ⟨whole_append.mpr ⟨h.1, ?_⟩, ?_⟩
  · rw [h.2]
    exact hrest.1
  · rw [run_append, h.2]
    exact hrest.2

theorem closed_nil : Closed [] := ⟨whole_nil false, rfl⟩

theorem closed_unit {u : UInt16} (hu : ¬ (u = escapeSign ∨ u = pipe)) : Closed [u] := by
  rw [not_or] at hu
  exact ⟨whole_cons.mpr ⟨beq_false_of_ne hu.2, whole_nil _⟩, beq_false_of_ne hu.1⟩

theorem closed_escape (text : JsString) : Closed (escape text) := by
  induction text with
  | nil => exact closed_nil
  | cons u text ih =>
    rw [escape_cons, escapeUnit]
    refine Closed.append ?_ ih
    split_ifs with hu
    · exact ⟨whole_cons.mpr ⟨rfl, whole_cons.mpr ⟨rfl, whole_nil _⟩⟩, rfl⟩
    · exact closed_unit hu

/-- A cell as the writer sets it, with what ends it. -/
def paddedCell (text : JsString) : JsString := space :: escape text ++ [space]

theorem closed_paddedCell (text : JsString) : Closed (paddedCell text) :=
  ((closed_unit (by decide)).append (closed_escape text)).append (closed_unit (by decide))

theorem markdownRow_eq {cells : List JsString} (h : cells ≠ []) :
    markdownRow cells = pipe :: cells.flatMap fun cell => space :: cell ++ [space, pipe] := by
  have hjoin : ∀ cells : List JsString, cells ≠ [] →
      space :: joinWith (js " | ") cells ++ js " |" = cells.flatMap fun cell => space :: cell ++ [space, pipe] := by
    intro cells hcells
    induction cells with
    | nil => exact absurd rfl hcells
    | cons cell cells ih =>
      cases cells with
      | nil =>
        rw [List.flatMap_singleton]
        rfl
      | cons next cells =>
        have hsep : js " | " = [space, pipe, space] := rfl
        rw [List.flatMap_cons, ← ih (List.cons_ne_nil _ _), joinWith, hsep]
        simp only [List.cons_append, List.append_assoc, List.nil_append]
  exact congrArg (pipe :: ·) (hjoin cells h)

/-- **A row reads back** as its cells. -/
theorem readCells_row {texts : List JsString} (h : texts ≠ []) : readCells (markdownRow (texts.map escape)) = texts := by
  have hcut : ∀ texts : List JsString, cut nextEscaped endsCell false
      ((texts.map escape).flatMap fun cell => space :: cell ++ [space, pipe]) = texts.map paddedCell ++ [[]] := by
    intro texts
    induction texts with
    | nil => rfl
    | cons text texts ih =>
      have hfront : ((text :: texts).map escape).flatMap (fun cell => space :: cell ++ [space, pipe]) =
          paddedCell text ++ pipe :: (texts.map escape).flatMap fun cell => space :: cell ++ [space, pipe] := by
        rw [List.map_cons, List.flatMap_cons, paddedCell]
        simp only [List.cons_append, List.append_assoc, List.nil_append]
      have hclosed := closed_paddedCell text
      have hends : endsCell (run nextEscaped false (paddedCell text)) pipe = true := by
        rw [hclosed.2]
        rfl
      have hstep : nextEscaped (run nextEscaped false (paddedCell text)) pipe = false := by
        rw [hclosed.2]
        rfl
      rw [hfront, cut_at hclosed.1 hends, hstep, ih]
      rfl
  have hcell : ∀ text, unescape ((paddedCell text).drop 1).dropLast = text := by
    intro text
    have hdrop : ((paddedCell text).drop 1).dropLast = escape text := List.dropLast_concat
    rw [hdrop, unescape_escape]
  have hne : texts.map escape ≠ [] := fun hnil => h (List.map_eq_nil_iff.mp hnil)
  have hpipe : ∀ rest, cut nextEscaped endsCell false (pipe :: rest) = [] :: cut nextEscaped endsCell false rest :=
    fun rest => rfl
  rw [readCells, markdownRow_eq hne, hpipe, hcut, List.tail_cons, List.dropLast_concat, List.map_map]
  exact (List.map_congr_left fun text _ => hcell text).trans (List.map_id texts)

/-! ## Line endings -/

/-- A carriage return that no feed follows. -/
def LoneCR (text : JsString) : Prop := ∃ front back, text = front ++ CR :: back ∧ back.head? ≠ some LF

theorem loneCR_cons {u : UInt16} {s : JsString} : LoneCR (u :: s) ↔ u = CR ∧ s.head? ≠ some LF ∨ LoneCR s := by
  constructor
  · rintro ⟨_ | ⟨v, front⟩, back, heq, hback⟩
    · obtain ⟨rfl, rfl⟩ := List.cons.inj heq
      exact .inl ⟨rfl, hback⟩
    · obtain ⟨rfl, rfl⟩ := List.cons.inj heq
      exact .inr ⟨front, back, rfl, hback⟩
  · rintro (⟨rfl, hs⟩ | ⟨front, back, rfl, hback⟩)
    · exact ⟨[], s, rfl, hs⟩
    · exact ⟨u :: front, back, rfl, hback⟩

theorem not_loneCR_nil : ¬ LoneCR [] := by
  rintro ⟨front, back, heq, -⟩
  exact absurd heq.symm (List.append_ne_nil_of_right_ne_nil front (List.cons_ne_nil _ _))

/-- A return is left exactly where it stands alone. -/
theorem cr_mem_breakLines {text : JsString} : CR ∈ breakLines text ↔ LoneCR text := by
  induction text with
  | nil => exact iff_of_false List.not_mem_nil not_loneCR_nil
  | cons u s ih =>
    rw [loneCR_cons, breakLines]
    split_ifs with hlf hcr
    · have hne : ¬ u = CR := by
        rw [hlf]
        decide
      have hbreak : CR ∉ lineBreak := by decide
      rw [List.mem_append, ih]
      exact ⟨fun h => .inr (h.resolve_left hbreak), fun h => .inr (h.resolve_left fun hu => hne hu.1)⟩
    · rw [ih]
      exact ⟨.inr, fun h => h.resolve_left fun hu => hu.2 hcr.2⟩
    · rw [List.mem_cons, ih]
      refine or_congr ⟨fun hu => ⟨hu.symm, fun hs => hcr ⟨hu.symm, hs⟩⟩, fun hu => hu.1.symm⟩ Iff.rfl

theorem lf_not_mem_breakLines (text : JsString) : LF ∉ breakLines text := by
  induction text with
  | nil => exact List.not_mem_nil
  | cons u s ih =>
    have hbreak : LF ∉ lineBreak := by decide
    rw [breakLines]
    split_ifs with hlf hcr
    · rw [List.mem_append, not_or]
      exact ⟨hbreak, ih⟩
    · exact ih
    · rw [List.mem_cons, not_or]
      exact ⟨fun h => hlf h.symm, ih⟩

/-- Without a return that stands alone, every line ending is replaced. -/
theorem breakLines_eq {text : JsString} (h : ¬ LoneCR text) : breakLines text = replaced text := by
  induction text with
  | nil => rfl
  | cons u s ih =>
    rw [loneCR_cons, not_or] at h
    rw [breakLines, replaced, ih h.2]
    by_cases hlf : u = LF
    · rw [if_pos hlf, if_pos hlf]
    rw [if_neg hlf, if_neg hlf]
    by_cases hcr : u = CR
    · have hs : s.head? = some LF := not_not.mp fun hs => h.1 ⟨hcr, hs⟩
      rw [if_pos ⟨hcr, hs⟩, if_pos hcr, if_pos hs]
    · rw [if_neg (fun hu => hcr hu.1), if_neg hcr]

theorem escape_append (text rest : JsString) : escape (text ++ rest) = escape text ++ escape rest := List.flatMap_append

theorem head?_escape {text : JsString} : (escape text).head? = some LF ↔ text.head? = some LF := by
  cases text with
  | nil => exact Iff.rfl
  | cons u text =>
    rw [escape_cons, escapeUnit]
    split_ifs with hu
    · refine iff_of_false (fun h => absurd (Option.some.inj h) (by decide)) fun h => ?_
      rw [Option.some.inj h] at hu
      exact absurd hu (by decide)
    · exact Iff.rfl

theorem breakLines_plain {u : UInt16} (hlf : u ≠ LF) (hcr : u ≠ CR) (s : JsString) :
    breakLines (u :: s) = u :: breakLines s := by
  rw [breakLines, if_neg hlf, if_neg (fun h => hcr h.1)]

/-- Escapes and breaks do not meet. -/
theorem breakLines_escape (text : JsString) : breakLines (escape text) = escape (breakLines text) := by
  induction text with
  | nil => rfl
  | cons u s ih =>
    rw [escape_cons, escapeUnit]
    by_cases hu : u = escapeSign ∨ u = pipe
    · have hne : u ≠ LF ∧ u ≠ CR := by rcases hu with rfl | rfl <;> decide
      have hfirst : breakLines (escapeSign :: u :: escape s) = escapeSign :: u :: breakLines (escape s) := by
        rw [breakLines_plain (by decide) (by decide), breakLines_plain hne.1 hne.2]
      rw [if_pos hu, breakLines_plain hne.1 hne.2, escape_cons, escapeUnit, if_pos hu, ← ih]
      exact hfirst
    rw [if_neg hu, List.singleton_append, breakLines, breakLines, ih]
    by_cases hlf : u = LF
    · rw [if_pos hlf, if_pos hlf, escape_append]
      rfl
    rw [if_neg hlf, if_neg hlf]
    by_cases hcr : u = CR ∧ s.head? = some LF
    · rw [if_pos hcr, if_pos ⟨hcr.1, head?_escape.mpr hcr.2⟩]
    · rw [if_neg hcr, if_neg (fun h => hcr ⟨h.1, head?_escape.mp h.2⟩), escape_cons, escapeUnit, if_neg hu]
      rfl

theorem markdownCell_eq (value : JsValue) : markdownCell value = escape (breakLines (scalar value)) := by
  rw [markdownCell, replaceUnits_eq, breakLines_escape]

/-! ## Lines -/

theorem length_hang {lines : List JsString} (u : UInt16) (h : lines ≠ []) : (hang u lines).length = lines.length := by
  cases lines with
  | nil => exact absurd rfl h
  | cons line lines => rfl

/-- A line that ends with a pipe is one line, and one more for each return in it. -/
theorem length_markdownLines {body : JsString} (hlf : LF ∉ body) (returned : Bool) (rest : JsString) :
    (markdownLines returned (body ++ pipe :: LF :: rest)).length = body.count CR + 1 + (markdownLines false rest).length := by
  induction body generalizing returned with
  | nil =>
    show (hang pipe ([] :: markdownLines false rest)).length = _
    rw [length_hang pipe (List.cons_ne_nil _ _), List.length_cons, List.count_nil, Nat.zero_add, Nat.add_comm]
  | cons u body ih =>
    rw [List.mem_cons, not_or] at hlf
    rw [List.cons_append, markdownLines, if_neg (Ne.symm hlf.1)]
    by_cases hcr : u = CR
    · rw [if_pos hcr, List.length_cons, ih hlf.2, hcr, List.count_cons_self]
      omega
    · have hne : markdownLines false (body ++ pipe :: LF :: rest) ≠ [] := by
        intro hnil
        have hlen := ih hlf.2 false
        rw [hnil, List.length_nil] at hlen
        omega
      rw [if_neg hcr, length_hang u hne, ih hlf.2, List.count_cons_of_ne hcr]

/-- A line without line endings is read as it is. -/
theorem markdownLines_line {line : JsString} (hlf : LF ∉ line) (hcr : CR ∉ line) (rest : JsString) :
    markdownLines false (line ++ LF :: rest) = line :: markdownLines false rest := by
  induction line with
  | nil => rfl
  | cons u line ih =>
    rw [List.mem_cons, not_or] at hlf hcr
    rw [List.cons_append, markdownLines, if_neg (Ne.symm hlf.1), if_neg (Ne.symm hcr.1), ih hlf.2 hcr.2]
    rfl

theorem markdownLines_lines {lines : List JsString} (hlf : ∀ line ∈ lines, LF ∉ line) (hcr : ∀ line ∈ lines, CR ∉ line) :
    markdownLines false (lines.flatMap (· ++ [LF])) = lines := by
  induction lines with
  | nil => rfl
  | cons line lines ih =>
    rw [List.flatMap_cons, List.append_assoc, List.singleton_append,
      markdownLines_line (hlf line List.mem_cons_self) (hcr line List.mem_cons_self),
      ih (fun l hl => hlf l (List.mem_cons_of_mem _ hl)) fun l hl => hcr l (List.mem_cons_of_mem _ hl)]

theorem joinWith_lines {lines : List JsString} (h : lines ≠ []) :
    joinWith [LF] lines ++ [LF] = lines.flatMap (· ++ [LF]) := by
  induction lines with
  | nil => exact absurd rfl h
  | cons line lines ih =>
    cases lines with
    | nil =>
      rw [List.flatMap_singleton]
      rfl
    | cons next lines =>
      rw [List.flatMap_cons, ← ih (List.cons_ne_nil _ _), joinWith]
      simp only [List.append_assoc]

/-- The lines are counted: what is more than one a line is a return in it. -/
theorem length_lines {lines : List JsString} (hends : ∀ line ∈ lines, ∃ body, line = body ++ [pipe])
    (hlf : ∀ line ∈ lines, LF ∉ line) :
    (markdownLines false (lines.flatMap (· ++ [LF]))).length = lines.flatten.count CR + lines.length := by
  induction lines with
  | nil => rfl
  | cons line lines ih =>
    obtain ⟨body, rfl⟩ := hends line List.mem_cons_self
    have hbody : LF ∉ body := fun h => hlf _ List.mem_cons_self (List.mem_append_left _ h)
    have hcount : (body ++ [pipe]).count CR = body.count CR := by
      have hpipe : [pipe].count CR = 0 := by decide
      rw [List.count_append, hpipe, Nat.add_zero]
    have hrest := ih (fun l hl => hends l (List.mem_cons_of_mem _ hl)) fun l hl => hlf l (List.mem_cons_of_mem _ hl)
    rw [List.flatMap_cons, List.append_assoc, List.append_assoc]
    show (markdownLines false (body ++ pipe :: LF :: lines.flatMap (· ++ [LF]))).length = _
    rw [length_markdownLines hbody, hrest, List.flatten_cons, List.count_append, hcount, List.length_cons]
    omega

/-! ## The shape of the table -/

theorem mem_escape {u : UInt16} (hb : u ≠ escapeSign) {text : JsString} : u ∈ escape text ↔ u ∈ text := by
  induction text with
  | nil => exact Iff.rfl
  | cons v text ih =>
    rw [escape_cons, List.mem_append, ih, List.mem_cons]
    refine or_congr ?_ Iff.rfl
    unfold escapeUnit
    split_ifs
    · rw [List.mem_cons, List.mem_singleton]
      exact ⟨fun h => h.resolve_left hb, .inr⟩
    · exact List.mem_singleton

/-- A row of texts, as the writer sets it. -/
def rowLine (texts : List JsString) : JsString := markdownRow ((texts.map breakLines).map escape)

theorem rowLine_ends (texts : List JsString) : ∃ body, rowLine texts = body ++ [pipe] :=
  ⟨js "| " ++ joinWith (js " | ") ((texts.map breakLines).map escape) ++ [space], (List.append_assoc _ [space] [pipe]).symm⟩

theorem mem_rowLine {u : UInt16} (hb : u ≠ escapeSign) (hp : u ≠ pipe) (hs : u ≠ space)
    {texts : List JsString} (h : texts ≠ []) :
    u ∈ rowLine texts ↔ ∃ text ∈ texts, u ∈ breakLines text := by
  have hne : (texts.map breakLines).map escape ≠ [] := by
    rw [List.map_map]
    exact fun hnil => h (List.map_eq_nil_iff.mp hnil)
  rw [rowLine, markdownRow_eq hne, List.mem_cons, List.mem_flatMap]
  simp only [List.mem_map, List.cons_append, List.mem_cons, List.mem_append, List.not_mem_nil, or_false, hp, hs, false_or]
  constructor
  · rintro ⟨cell, ⟨text', ⟨text, htext, rfl⟩, rfl⟩, hu⟩
    exact ⟨text, htext, (mem_escape hb).mp hu⟩
  · rintro ⟨text, htext, hu⟩
    exact ⟨_, ⟨_, ⟨text, htext, rfl⟩, rfl⟩, (mem_escape hb).mpr hu⟩

section
variable (inherited : JsValue → JsString → JsValue)

/-- The texts of the table, from the header on. -/
def table (rows : List JsValue) : List (List JsString) :=
  columns rows :: (columns rows).map (fun _ => js "---") ::
    rows.map fun row => (columns rows).map fun c => scalar (cellOf inherited row c)

theorem toMarkdown_eq {rows : List JsValue} (h : columns rows ≠ []) :
    toMarkdown inherited rows = ((table inherited rows).map rowLine).flatMap (· ++ [LF]) := by
  have hcell : ∀ {α : Type} (cs : List α) (f : α → JsValue),
      markdownRow (cs.map fun c => markdownCell (f c)) = rowLine (cs.map fun c => scalar (f c)) := by
    intro α cs f
    rw [rowLine, List.map_map, List.map_map]
    exact congrArg markdownRow (List.map_congr_left fun c _ => markdownCell_eq (f c))
  have hheader := hcell (columns rows) .str
  have hdelimiter : markdownRow ((columns rows).map fun _ => js "---") = rowLine ((columns rows).map fun _ => js "---") :=
    hcell (columns rows) fun _ => .str (js "---")
  have hid : (columns rows).map (fun c => scalar (.str c)) = columns rows := List.map_id _
  rw [hid] at hheader
  have hrows : (rows.map fun row => markdownRow ((columns rows).map fun c => markdownCell (cellOf inherited row c))) =
      (rows.map fun row => (columns rows).map fun c => scalar (cellOf inherited row c)).map rowLine := by
    rw [List.map_map]
    exact List.map_congr_left fun row _ => hcell (columns rows) (cellOf inherited row)
  have hout : toMarkdown inherited rows = joinWith [LF] ((table inherited rows).map rowLine) ++ [LF] := by
    rw [toMarkdown, if_neg h, table, List.map_cons, List.map_cons, ← hheader, ← hrows, ← hdelimiter]
  have hlines : (table inherited rows).map rowLine ≠ [] := List.cons_ne_nil _ _
  rw [hout, joinWith_lines hlines]

/-- The table keeps its shape: a line for each row and one cell for each column, with the text that belongs there. -/
def KeepsShape (rows : List JsValue) : Prop :=
  (markdownLines false (toMarkdown inherited rows)).map readCells =
    (columns rows).map replaced :: (columns rows).map (fun _ => js "---") ::
      rows.map fun row => (columns rows).map fun c => replaced (scalar (cellOf inherited row c))

/-- **The table keeps its shape** exactly if there is one and no return stands alone in it. -/
theorem keepsShape_iff (rows : List JsValue) : KeepsShape inherited rows ↔
    columns rows ≠ [] ∧ (∀ c ∈ columns rows, ¬ LoneCR c) ∧
      ∀ row ∈ rows, ∀ c ∈ columns rows, ¬ LoneCR (scalar (cellOf inherited row c)) := by
  by_cases hcols : columns rows = []
  · refine iff_of_false (fun h => ?_) fun h => h.1 hcols
    have hlen := congrArg List.length h
    have hmessage : toMarkdown inherited rows = js "_No records._" ++ [LF] := if_pos hcols
    rw [hmessage, List.length_map, List.length_cons, List.length_cons] at hlen
    have hone : (markdownLines false (js "_No records._" ++ [LF])).length = 1 := by decide
    omega
  have hne : ∀ texts ∈ table inherited rows, texts ≠ [] := by
    intro texts htexts
    rcases List.mem_cons.mp htexts with rfl | htexts
    · exact hcols
    rcases List.mem_cons.mp htexts with rfl | htexts
    · exact fun hnil => hcols (List.map_eq_nil_iff.mp hnil)
    · obtain ⟨row, -, rfl⟩ := List.mem_map.mp htexts
      exact fun hnil => hcols (List.map_eq_nil_iff.mp hnil)
  have hcond : (∀ texts ∈ table inherited rows, ∀ text ∈ texts, ¬ LoneCR text) ↔ (∀ c ∈ columns rows, ¬ LoneCR c) ∧
      ∀ row ∈ rows, ∀ c ∈ columns rows, ¬ LoneCR (scalar (cellOf inherited row c)) := by
    have hdashes : ¬ LoneCR (js "---") := fun h => absurd (cr_mem_breakLines.mpr h) (by decide)
    rw [table, List.forall_mem_cons, List.forall_mem_cons, List.forall_mem_map, List.forall_mem_map]
    simp only [List.forall_mem_map, hdashes, not_false_eq_true, implies_true, true_and]
  have hlf : ∀ line ∈ (table inherited rows).map rowLine, LF ∉ line := by
    refine List.forall_mem_map.mpr fun texts htexts h => ?_
    obtain ⟨text, -, hmem⟩ := (mem_rowLine (by decide) (by decide) (by decide) (hne texts htexts)).mp h
    exact lf_not_mem_breakLines text hmem
  have hcr : (∀ line ∈ (table inherited rows).map rowLine, CR ∉ line) ↔
      ∀ texts ∈ table inherited rows, ∀ text ∈ texts, ¬ LoneCR text := by
    rw [List.forall_mem_map]
    refine forall₂_congr fun texts htexts => ?_
    rw [mem_rowLine (by decide) (by decide) (by decide) (hne texts htexts), not_exists]
    simp only [not_and, cr_mem_breakLines]
  rw [KeepsShape, toMarkdown_eq inherited hcols, and_iff_right hcols, ← hcond, ← hcr]
  constructor
  · intro h line hline
    -- there are as many lines as there should be, so none has a return in it
    have hends : ∀ line ∈ (table inherited rows).map rowLine, ∃ body, line = body ++ [pipe] :=
      List.forall_mem_map.mpr fun texts _ => rowLine_ends texts
    have hlen := congrArg List.length h
    rw [List.length_map, length_lines hends hlf, table] at hlen
    simp only [List.length_map, List.length_cons] at hlen
    have hcount : ((table inherited rows).map rowLine).flatten.count CR = 0 := by
      rw [table]
      omega
    exact fun hmem => List.count_eq_zero.mp hcount (List.mem_flatten.mpr ⟨line, hline, hmem⟩)
  · intro h
    have hread : ∀ texts ∈ table inherited rows, readCells (rowLine texts) = texts.map replaced := by
      intro texts htexts
      have hmap : texts.map breakLines ≠ [] := fun hnil => hne texts htexts (List.map_eq_nil_iff.mp hnil)
      rw [rowLine, readCells_row hmap]
      exact List.map_congr_left fun text htext => breakLines_eq (hcr.mp h texts htexts text htext)
    rw [markdownLines_lines hlf h, List.map_map]
    refine (List.map_congr_left fun texts htexts => hread texts htexts).trans ?_
    rw [table, List.map_cons, List.map_cons, List.map_map, List.map_map]
    simp only [Function.comp_def, List.map_map]
    rfl

end

/-- A value with a carriage return in it, which nothing else has. -/
def returned : List JsValue := [.obj [(js "name", .str (js "x\ry"))]]

/-- Its row is two lines, and neither has the cell. -/
theorem row_cut_in_two : (markdownLines false (toMarkdown (fun _ _ => .undefined) returned)).drop 2 = [js "| x", js "y |"] ∧
    ¬ KeepsShape (fun _ _ => .undefined) returned := by
  have hlines : (markdownLines false (toMarkdown (fun _ _ => .undefined) returned)).drop 2 = [js "| x", js "y |"] := by decide
  refine ⟨hlines, fun h => ?_⟩
  have hlen := congrArg List.length (congrArg (List.drop 2) h)
  rw [← List.map_drop, hlines] at hlen
  exact absurd hlen (by decide)

example : KeepsShape (fun _ _ => .undefined) [.obj [(js "a|b", .str (js "x\\|y\r\nz")), (js "c", .str [])]] := by
  unfold KeepsShape
  decide

end Tables
end MaterialOpenWebui
