import MaterialOpenWebui.Tables.XmlReader

/-!
# `Tables.Xml` — exports as XML (`docs/assets/js/formats.js`)

A record is an element with one element for each of its cells. A key that is no name becomes an attribute. What is written is
escaped, but neither has XML all characters, nor does an attribute keep its white space.
-/

namespace MaterialOpenWebui
namespace Tables
open Js JsValue Scan

/-! ## The writer -/

def xmlEscape (text : JsString) : JsString :=
  replaceUnit 0x27 "&apos;" <| replaceUnit 0x22 "&quot;" <| replaceUnit 0x3e "&gt;" <| replaceUnit 0x3c "&lt;" <|
    replaceUnit 0x26 "&amp;" text

/-- `[A-Za-z_]` -/
def isNameHead (u : UInt16) : Bool := (0x41 ≤ u && u ≤ 0x5a) || (0x61 ≤ u && u ≤ 0x7a) || u == 0x5f

/-- `[A-Za-z0-9._-]` -/
def isNameRest (u : UInt16) : Bool := isNameHead u || (0x30 ≤ u && u ≤ 0x39) || u == 0x2e || u == 0x2d

/-- A key that is a legal XML name. -/
def xmlName (key : JsString) : Bool := key.head?.any isNameHead && key.all isNameRest

def xmlCell (cell : JsString × JsValue) : JsString :=
  if xmlName cell.1 then js "    <" ++ cell.1 ++ js ">" ++ xmlEscape (scalar cell.2) ++ js "</" ++ cell.1 ++ js ">"
  else js "    <field name=\"" ++ xmlEscape cell.1 ++ js "\">" ++ xmlEscape (scalar cell.2) ++ js "</field>"

def xmlLines (row : JsValue) : List JsString := [js "  <record>"] ++ (entriesOf row).map xmlCell ++ [js "  </record>"]

def toXml (rows : List JsValue) : JsString :=
  let out := [xmlDeclaration, js "<records>"] ++ rows.flatMap xmlLines ++ [js "</records>"]
  joinWith [LF] out ++ [LF]

/-! ## The reader -/

def Node.children : Node → List Node
  | .text _ => []
  | .element _ _ children => children

def Node.isElement : Node → Bool
  | .text _ => false
  | .element .. => true

/-- The elements in an element. -/
def Node.elements (node : Node) : List Node := node.children.filter Node.isElement

def Node.ownText : Node → JsString
  | .text s => s
  | .element .. => []

def Node.content (node : Node) : JsString := node.children.flatMap Node.ownText

/-- The key of a cell: what its attribute says, or its name. -/
def Node.key : Node → JsString
  | .text _ => []
  | .element name attributes _ => (attributes.lookup (js "name")).getD name

/-- The cells of every record, each with its key and its text. -/
def xmlRecords (root : Node) : List (List (JsString × JsString)) :=
  root.elements.map fun record => record.elements.map fun cell => (cell.key, cell.content)

/-- What a reader is to recover: every cell with its key and, but for the line ends, its text. -/
def xmlCells (row : JsValue) : List (JsString × JsString) :=
    (entriesOf row).map fun cell => (cell.1, lineEnds (scalar cell.2))

/-! ## Line ends and characters -/

theorem lineEnds_append {s t : JsString} (ht : t.head? ≠ some LF) : lineEnds (s ++ t) = lineEnds s ++ lineEnds t := by
  induction s with
  | nil => rfl
  | cons u s ih =>
    have hhead : (s ++ t).head? = some LF ↔ s.head? = some LF := by
      cases s with
      | nil => exact iff_of_false ht fun h => by cases h
      | cons v s => exact Iff.rfl
    rw [List.cons_append, lineEnds, lineEnds, ih]
    simp only [hhead]
    split
    · split <;> rfl
    · rfl

theorem lineEnds_plain {s : JsString} (hs : CR ∉ s) (t : JsString) : lineEnds (s ++ t) = s ++ lineEnds t := by
  induction s with
  | nil => rfl
  | cons u s ih =>
    rw [List.mem_cons, not_or] at hs
    rw [List.cons_append, lineEnds, if_neg (Ne.symm hs.1), ih hs.2]
    rfl

theorem xmlEscape_append (s t : JsString) : xmlEscape (s ++ t) = xmlEscape s ++ xmlEscape t := by
  simp only [xmlEscape, replaceUnit, List.flatMap_append]

/-- The five that are escaped. -/
def Special (u : UInt16) : Prop := u = 0x26 ∨ u = 0x3c ∨ u = 0x3e ∨ u = 0x22 ∨ u = 0x27

theorem xmlEscape_plain {u : UInt16} (hu : ¬ Special u) : xmlEscape [u] = [u] := by
  unfold Special at hu
  push Not at hu
  obtain ⟨hamp, hlt, hgt, hquot, hapos⟩ := hu
  simp [xmlEscape, replaceUnit, hamp, hlt, hgt, hquot, hapos]

theorem xmlEscape_flatMap (s : JsString) : xmlEscape s = s.flatMap fun u => xmlEscape [u] := by
  induction s with
  | nil => rfl
  | cons u s ih =>
    rw [List.flatMap_cons, ← ih, ← xmlEscape_append]
    rfl

/-- What is written for a character begins with no line end, or is it. -/
theorem head_xmlEscape (s : JsString) : (xmlEscape s).head? = some LF ↔ s.head? = some LF := by
  cases s with
  | nil => exact iff_of_false (fun h => by cases h) fun h => by cases h
  | cons u s =>
    rw [xmlEscape_flatMap, List.flatMap_cons]
    by_cases hu : Special u
    · rcases hu with rfl | rfl | rfl | rfl | rfl
      all_goals
        exact iff_of_false (fun h => absurd (Option.some.inj h) (by decide))
          fun h => absurd (Option.some.inj h) (by decide)
    · rw [xmlEscape_plain hu]
      exact Iff.rfl

theorem lineEnds_xmlEscape (s : JsString) : lineEnds (xmlEscape s) = xmlEscape (lineEnds s) := by
  induction s with
  | nil => rfl
  | cons u s ih =>
    have hcons : xmlEscape (u :: s) = xmlEscape [u] ++ xmlEscape s := xmlEscape_append [u] s
    by_cases hu : Special u
    · have hcr : u ≠ CR := by
        rintro rfl
        rcases hu with h | h | h | h | h <;> exact absurd h (by decide)
      have hplain : CR ∉ xmlEscape [u] := by
        rcases hu with rfl | rfl | rfl | rfl | rfl <;> decide
      rw [hcons, lineEnds_plain hplain, ih, lineEnds, if_neg hcr]
      exact (xmlEscape_append [u] _).symm
    · rw [hcons, xmlEscape_plain hu, List.singleton_append, lineEnds, lineEnds, ih]
      simp only [head_xmlEscape]
      split
      · split
        · rfl
        · exact (xmlEscape_append [LF] _).symm
      · show u :: xmlEscape (lineEnds s) = xmlEscape ([u] ++ lineEnds s)
        rw [xmlEscape_append, xmlEscape_plain hu]
        rfl

/-- Escaped text, and markup after it. -/
theorem lineEnds_escaped (s : JsString) {w : JsString} (hw : w.head?.any (· ≠ LF) = true) (hcr : CR ∉ w) (t : JsString) :
    lineEnds (xmlEscape s ++ (w ++ t)) = xmlEscape (lineEnds s) ++ (w ++ lineEnds t) := by
  have hhead : (w ++ t).head? ≠ some LF := by
    cases w with
    | nil => cases hw
    | cons u w =>
      intro h
      cases h
      cases hw
  rw [lineEnds_append hhead, lineEnds_xmlEscape, lineEnds_plain hcr]

/-! ## Scanning -/

variable {stack : List Open} {root : Option Node}

/-- **Escaped text** in an element is read as the text. -/
theorem scan_escaped (s got : JsString) :
    scan State.step ⟨stack, root, .content got⟩ (xmlEscape s) = some ⟨stack, root, .content (got ++ s)⟩ := by
  have hone : ∀ got u, True → scan State.step ⟨stack, root, .content got⟩ (xmlEscape [u]) =
    some ⟨stack, root, .content (got ++ [u])⟩ := by
    intro got u _
    by_cases hu : Special u
    · rcases hu with rfl | rfl | rfl | rfl | rfl <;> rfl
    · rw [xmlEscape_plain hu]
      unfold Special at hu
      push Not at hu
      obtain ⟨hamp, hlt, hgt, -, -⟩ := hu
      rw [scan_cons]
      unfold State.step
      simp only [if_neg hlt, if_neg hamp, hgt, false_and, if_false]
      rfl
  rw [xmlEscape_flatMap, scan_flatMap hone (fun _ _ => trivial) got, List.map_id']

/-- What an attribute says once its white space is normalised. -/
def attributeText (key : JsString) : JsString := (lineEnds key).map fun u => if isXmlSpace u then 0x20 else u

theorem scan_value (tag : Open) (name s got : JsString) :
    scan State.step ⟨stack, root, .value tag name got 0x22⟩ (xmlEscape s) =
      some ⟨stack, root, .value tag name (got ++ s.map fun u => if isXmlSpace u then 0x20 else u) 0x22⟩ := by
  have hone : ∀ got u, True → scan State.step ⟨stack, root, .value tag name got 0x22⟩ (xmlEscape [u]) =
      some ⟨stack, root, .value tag name (got ++ [if isXmlSpace u then 0x20 else u]) 0x22⟩ := by
    intro got u _
    by_cases hu : Special u
    · rcases hu with rfl | rfl | rfl | rfl | rfl <;> rfl
    · rw [xmlEscape_plain hu]
      unfold Special at hu
      push Not at hu
      obtain ⟨hamp, hlt, -, hquot, -⟩ := hu
      rw [scan_cons]
      unfold State.step
      simp only [if_neg hquot, if_neg hlt, if_neg hamp]
      rfl
  rw [xmlEscape_flatMap]
  exact scan_flatMap hone (fun _ _ => trivial) got

theorem isXmlName_of_rest {u : UInt16} (h : isNameRest u = true) : isXmlName u = true := by
  simp only [isNameRest, isNameHead, Bool.or_eq_true] at h
  simp only [isXmlName, isXmlNameStart, Bool.or_eq_true]
  tauto

theorem isXmlNameStart_of_head {u : UInt16} (h : isNameHead u = true) : isXmlNameStart u = true := by
  simp only [isNameHead, Bool.or_eq_true] at h
  simp only [isXmlNameStart, Bool.or_eq_true]
  tauto

variable {top : Open}

/-- A name in a start tag. -/
theorem scan_startName {key : JsString} (hkey : xmlName key = true) :
    scan State.step ⟨top :: stack, root, .opened⟩ (key ++ js ">") =
      some ⟨⟨key, [], []⟩ :: top :: stack, root, .content []⟩ := by
  cases key with
  | nil => cases hkey
  | cons u key =>
    obtain ⟨hhead, hrest⟩ := (Bool.and_eq_true _ _).mp hkey
    have hfirst : State.step ⟨top :: stack, root, .opened⟩ u = some ⟨top :: stack, root, .startName [u]⟩ := by
      have hslash : u ≠ 0x2f := by
        rintro rfl
        cases hhead
      unfold State.step
      simp only [if_neg hslash, isXmlNameStart_of_head hhead, if_true]
      rfl
    have hnext : ∀ got v, isNameRest v = true → State.step ⟨top :: stack, root, .startName (u :: got)⟩ v =
        some ⟨top :: stack, root, .startName (u :: (got ++ [v]))⟩ := by
      intro got v hv
      unfold State.step
      simp only [isXmlName_of_rest hv, if_true]
      rfl
    have hname := scan_plain hnext (fun v hv => List.all_eq_true.mp hrest v (List.mem_cons_of_mem u hv)) []
    rw [List.cons_append, scan_cons, hfirst, Option.bind_some, scan_trans hname]
    rfl

/-- A name in an end tag. -/
theorem scan_endName {key : JsString} (hkey : xmlName key = true) {up : Open} (hname : top.name = key) :
    scan State.step ⟨top :: up :: stack, root, .endName []⟩ (key ++ js ">") =
      some ⟨{ up with children := up.children ++ [.element top.name top.attributes top.children] } ::
        stack, root, .content []⟩ := by
  cases key with
  | nil => cases hkey
  | cons u key =>
    obtain ⟨hhead, hrest⟩ := (Bool.and_eq_true _ _).mp hkey
    have hnext : ∀ got v, isNameRest v = true ∧ (got = [] → isNameHead v = true) →
        State.step ⟨top :: up :: stack, root, .endName got⟩ v = some ⟨top :: up :: stack, root, .endName (got ++ [v])⟩ := by
      intro got v hv
      have hboth : isXmlName v = true ∧ (got = [] → isXmlNameStart v = true) :=
        ⟨isXmlName_of_rest hv.1, fun h => isXmlNameStart_of_head (hv.2 h)⟩
      unfold State.step
      simp only [if_pos hboth]
      rfl
    have hfirst : State.step ⟨top :: up :: stack, root, .endName []⟩ u = some ⟨top :: up :: stack, root, .endName [u]⟩ :=
      hnext [] u ⟨List.all_eq_true.mp hrest u List.mem_cons_self, fun _ => hhead⟩
    have hrestName := scan_plain (fun got v hv => hnext (u :: got) v ⟨hv, fun h => by cases h⟩)
      (fun v hv => List.all_eq_true.mp hrest v (List.mem_cons_of_mem u hv)) []
    rw [List.cons_append, scan_cons, hfirst, Option.bind_some, scan_trans hrestName]
    show scan State.step _ [0x3e] = _
    rw [scan_singleton]
    have hgt : ¬ (isXmlName 0x3e = true ∧ (u :: ([] ++ key) = [] → isXmlNameStart 0x3e = true)) := fun h => by cases h.1
    unfold State.step
    simp only [if_neg hgt, if_true]
    show State.close _ (u :: key) = _
    unfold State.close
    simp only [if_pos hname]

/-- The element of a cell. -/
def cellNode (key text : JsString) : Node :=
  if xmlName key then .element key [] (textNode text) else .element
    (js "field") [(js "name", attributeText key)] (textNode text)

/-- What a line adds to an element. -/
def Open.line (top : Open) (blank : String) (node : Node) : Open :=
    { top with children := top.children ++ [.text (LF :: js blank), node] }

/-- **A cell** of a record. -/
theorem scan_cell (cell : JsString × JsValue) (rest : JsString) :
    scan State.step ⟨top :: stack, root, .content [LF]⟩ (lineEnds (xmlCell cell ++ LF :: rest)) =
      scan State.step ⟨top.line "    " (cellNode cell.1 (lineEnds (scalar cell.2))) ::
        stack, root, .content [LF]⟩ (lineEnds rest) := by
  obtain ⟨key, v⟩ := cell
  unfold xmlCell cellNode
  by_cases hkey : xmlName key = true
  · have hcr : CR ∉ key := by
      intro h
      have hall := List.all_eq_true.mp ((Bool.and_eq_true _ _).mp hkey).2 CR h
      cases hall
    simp only [if_pos hkey, List.append_assoc]
    rw [lineEnds_plain (by decide), lineEnds_plain hcr, lineEnds_plain (by decide),
      lineEnds_escaped _ (by decide) (by decide),
      lineEnds_plain hcr, lineEnds_plain (by decide), lineEnds, if_neg (by decide)]
    have hopened : scan State.step ⟨top :: stack, root, .content [LF]⟩ (js "    <") =
        some ⟨{ top with children := top.children ++ [.text (LF :: js "    ")] } :: stack, root, .opened⟩ := rfl
    have hflush : scan State.step ⟨⟨key, [], []⟩ :: { top with children :=
      top.children ++ [.text (LF :: js "    ")] } :: stack, root,
          .content ([] ++ lineEnds (scalar v))⟩ (js "</") =
        some ⟨⟨key, [], textNode (lineEnds (scalar v))⟩ :: { top with children :=
          top.children ++ [.text (LF :: js "    ")] } :: stack, root,
          .endName []⟩ := rfl
    have hcell := scan_seq
      (scan_seq (scan_seq (scan_seq hopened (scan_startName hkey)) (scan_escaped (lineEnds (scalar v)) [])) hflush)
      (scan_endName hkey rfl)
    have hline := scan_trans hcell (LF :: lineEnds rest)
    simp only [List.append_assoc] at hline
    rw [hline]
    rfl
  · simp only [if_neg hkey, List.append_assoc]
    rw [lineEnds_plain (by decide), lineEnds_escaped _ (by decide) (by decide),
      lineEnds_escaped _ (by decide) (by decide), lineEnds,
      if_neg (by decide)]
    have hopened : scan State.step ⟨top :: stack, root, .content [LF]⟩ (js "    <field name=\"") =
        some ⟨{ top with children := top.children ++ [.text (LF :: js "    ")] } ::
          stack, root, .value ⟨js "field", [], []⟩ (js "name") [] 0x22⟩ :=
      rfl
    have htag : scan State.step ⟨{ top with children := top.children ++ [.text (LF :: js "    ")] } :: stack, root,
          .value ⟨js "field", [], []⟩ (js "name") ([] ++ attributeText key) 0x22⟩ (js "\">") =
        some ⟨⟨js "field", [(js "name", attributeText key)], []⟩ :: { top with children :=
          top.children ++ [.text (LF :: js "    ")] } :: stack, root,
          .content []⟩ := rfl
    have hclosed : scan State.step ⟨⟨js "field", [(js "name", attributeText key)], []⟩ ::
          { top with children := top.children ++ [.text (LF :: js "    ")] } ::
            stack, root, .content ([] ++ lineEnds (scalar v))⟩ (js "</field>") =
        some ⟨{ top with children := (top.children ++ [.text (LF :: js "    ")]) ++
          [.element (js "field") [(js "name", attributeText key)] (textNode (lineEnds (scalar v)))] } ::
            stack, root, .content []⟩ := rfl
    have hcell := scan_seq (scan_seq (scan_seq (scan_seq hopened (scan_value _ _ (lineEnds key) [])) htag)
      (scan_escaped (lineEnds (scalar v)) [])) hclosed
    have hline := scan_trans hcell (LF :: lineEnds rest)
    simp only [List.append_assoc] at hline
    rw [hline]
    rfl

theorem scan_cells (cells : List (JsString × JsValue)) (top : Open) (rest : JsString) :
    scan State.step ⟨top :: stack, root, .content [LF]⟩ (lineEnds ((cells.map xmlCell).flatMap (· ++ [LF]) ++ rest)) =
      scan State.step ⟨{ top with children := top.children ++ cells.flatMap fun cell =>
          [.text (LF :: js "    "), cellNode cell.1 (lineEnds (scalar cell.2))] } ::
            stack, root, .content [LF]⟩ (lineEnds rest) := by
  induction cells generalizing top with
  | nil =>
    rw [List.flatMap_nil, List.append_nil]
    rfl
  | cons cell cells ih =>
    rw [List.map_cons, List.flatMap_cons, List.append_assoc, List.append_assoc, List.singleton_append,
      scan_cell, ih, List.flatMap_cons]
    unfold Open.line
    rw [List.append_assoc]

def recordNode (row : JsValue) : Node :=
  .element (js "record") []
    (((entriesOf row).flatMap fun cell => [.text (LF :: js "    "), cellNode cell.1 (lineEnds (scalar cell.2))]) ++
    [.text (LF :: js "  ")])

/-- **A record** in the root. -/
theorem scan_record (row : JsValue) (top : Open) (rest : JsString) :
    scan State.step ⟨top :: stack, root, .content [LF]⟩ (lineEnds ((xmlLines row).flatMap (· ++ [LF]) ++ rest)) =
      scan State.step ⟨top.line "  " (recordNode row) :: stack, root, .content [LF]⟩ (lineEnds rest) := by
  have hopened : scan State.step ⟨top :: stack, root, .content [LF]⟩ (js "  <record>" ++ [LF]) =
      some ⟨⟨js "record", [], []⟩ :: { top with children :=
        top.children ++ [.text (LF :: js "  ")] } :: stack, root, .content [LF]⟩ := rfl
  have hclosed : ∀ children, scan State.step ⟨⟨js "record", [], children⟩ :: { top with children :=
    top.children ++ [.text (LF :: js "  ")] } :: stack,
        root, .content [LF]⟩ (js "  </record>" ++ [LF]) =
      some ⟨{ top with children :=
        (top.children ++ [.text (LF :: js "  ")]) ++ [.element (js "record") [] (children ++ [.text (LF :: js "  ")])] } ::
        stack, root, .content [LF]⟩ := fun _ => rfl
  unfold xmlLines
  rw [List.flatMap_append, List.flatMap_append, List.flatMap_singleton, List.flatMap_singleton,
    List.append_assoc, List.append_assoc,
    lineEnds_plain (by decide), scan_trans hopened, scan_cells, lineEnds_plain (by decide), scan_trans (hclosed _)]
  unfold Open.line recordNode
  rw [List.append_assoc, List.nil_append]
  rfl

theorem scan_rows (rows : List JsValue) (top : Open) (rest : JsString) :
    scan State.step ⟨top :: stack, root, .content [LF]⟩ (lineEnds ((rows.flatMap xmlLines).flatMap (· ++ [LF]) ++ rest)) =
      scan State.step ⟨{ top with children :=
        top.children ++ rows.flatMap fun row => [.text (LF :: js "  "), recordNode row] } :: stack,
        root, .content [LF]⟩ (lineEnds rest) := by
  induction rows generalizing top with
  | nil =>
    simp only [List.flatMap_nil, List.append_nil]
    rfl
  | cons row rows ih =>
    rw [List.flatMap_cons, List.flatMap_append, List.append_assoc, scan_record, ih, List.flatMap_cons]
    unfold Open.line
    rw [List.append_assoc]

def rootNode (rows : List JsValue) : Node :=
  .element (js "records") [] ((rows.flatMap fun row => [.text (LF :: js "  "), recordNode row]) ++ [.text [LF]])

theorem toXml_eq (rows : List JsValue) :
    toXml rows = xmlDeclaration ++ LF :: (js "<records>" ++ LF ::
      ((rows.flatMap xmlLines).flatMap (· ++ [LF]) ++ (js "</records>" ++ [LF]))) := by
  show joinWith [LF] (xmlDeclaration :: js "<records>" :: (rows.flatMap xmlLines ++ [js "</records>"])) ++ [LF] = _
  rw [joinWith_flatMap _ (List.cons_ne_nil _ _)]
  simp only [List.flatMap_append, List.flatMap_cons, List.flatMap_nil, List.append_assoc,
    List.append_nil, List.singleton_append]

/-- The tree of what is written. -/
theorem scan_toXml (rows : List JsValue) :
    (scan State.step ⟨[], none, .content []⟩ (lineEnds (dropDeclaration (toXml rows)))).bind
      State.finish = some (rootNode rows) := by
  have hdrop : dropDeclaration (toXml rows) = LF :: (js "<records>" ++ LF :: ((rows.flatMap xmlLines).flatMap (· ++ [LF]) ++
      (js "</records>" ++ [LF]))) := by
    rw [toXml_eq]
    unfold dropDeclaration
    rw [if_pos (List.prefix_append _ _), List.drop_left]
  have hopened : scan State.step ⟨[], none, .content []⟩ (LF :: (js "<records>" ++ [LF])) =
      some ⟨[⟨js "records", [], []⟩], none, .content [LF]⟩ := rfl
  have hclosed : ∀ children, scan State.step ⟨[⟨js "records", [], children⟩], none, .content [LF]⟩ (js "</records>" ++ [LF]) =
      some ⟨[], some (.element (js "records") [] (children ++ [.text [LF]])), .content [LF]⟩ := fun _ => rfl
  have hsplit : ∀ rest, LF :: (js "<records>" ++ LF :: rest) = LF :: (js "<records>" ++ [LF]) ++ rest := fun rest => by
    rw [List.cons_append, List.append_assoc]
    rfl
  rw [hdrop, hsplit, lineEnds_plain (by decide), scan_trans hopened, scan_rows]
  have hend : lineEnds (js "</records>" ++ [LF]) = js "</records>" ++ [LF] := by decide
  rw [hend, hclosed]
  rfl

/-- White space between elements is none of them. -/
theorem filter_elements {α : Type} {node : α → Node} (h : ∀ a, (node a).isElement = true)
    (blank last : JsString) (l : List α) :
    (((l.flatMap fun a => [Node.text blank, node a]) ++ [Node.text last]).filter Node.isElement) = l.map node := by
  induction l with
  | nil => rfl
  | cons a l ih =>
    rw [List.flatMap_cons, List.append_assoc, List.filter_append, ih, List.map_cons]
    rw [List.filter_cons_of_neg Bool.false_ne_true, List.filter_cons_of_pos (h a)]
    rfl

theorem content_textNode (text : JsString) : (textNode text).flatMap Node.ownText = text := by
  unfold textNode
  split
  · rename_i h
    exact h.symm
  · exact List.append_nil text

theorem isElement_cellNode (key text : JsString) : (cellNode key text).isElement = true := by
  unfold cellNode
  split <;> rfl

theorem key_cellNode (key text : JsString) : (cellNode key text).key = if xmlName key then key else attributeText key := by
  unfold cellNode
  split <;> rfl

theorem content_cellNode (key text : JsString) : (cellNode key text).content = text := by
  unfold cellNode
  split <;> exact content_textNode text

/-- The records of that tree. -/
theorem xmlRecords_rootNode (rows : List JsValue) : xmlRecords (rootNode rows) =
    rows.map fun row => (entriesOf row).map fun cell =>
      (if xmlName cell.1 then cell.1 else attributeText cell.1, lineEnds (scalar cell.2)) := by
  have hrecords : (rootNode rows).elements = rows.map recordNode :=
    filter_elements (fun row => (rfl : (recordNode row).isElement = true)) _ _ rows
  have hcells : ∀ row, (recordNode row).elements =
    (entriesOf row).map fun cell => cellNode cell.1 (lineEnds (scalar cell.2)) :=
    fun row => filter_elements (fun cell => isElement_cellNode _ _) _ _ (entriesOf row)
  unfold xmlRecords
  rw [hrecords, List.map_map]
  refine List.map_congr_left fun row _ => ?_
  show (recordNode row).elements.map _ = _
  rw [hcells, List.map_map]
  refine List.map_congr_left fun cell _ => ?_
  show (_, _) = (_, _)
  rw [key_cellNode, content_cellNode]

/-! ## The law -/

theorem allowed_cons {u : UInt16} (hplain : IsPlain u) (hu : isXmlUnit u = true) {s t : JsString} :
    Allowed (s ++ u :: t) ↔ Allowed s ∧ Allowed t := by
  unfold Allowed
  rw [wellFormed_append_iff hplain, List.forall_mem_append, List.forall_mem_cons]
  simp only [hu, true_and]
  tauto

theorem allowed_markup {w : JsString} (hw : w ≠ []) (hall : ∀ u ∈ w, IsPlain u ∧ isXmlUnit u = true) (s t : JsString) :
    Allowed (s ++ (w ++ t)) ↔ Allowed s ∧ Allowed t := by
  induction w generalizing s with
  | nil => exact absurd rfl hw
  | cons u w ih =>
    obtain ⟨hplain, hu⟩ := hall u List.mem_cons_self
    rw [List.cons_append, allowed_cons hplain hu]
    refine and_congr_right fun _ => ?_
    cases w with
    | nil => exact Iff.rfl
    | cons v w =>
      have hrest := ih (List.cons_ne_nil v w) (fun u h => hall u (List.mem_cons_of_mem _ h)) []
      exact hrest.trans (and_iff_right ⟨rfl, List.forall_mem_nil _⟩)

theorem allowed_lines (lines : List JsString) : Allowed (lines.flatMap (· ++ [LF])) ↔ ∀ line ∈ lines, Allowed line := by
  induction lines with
  | nil => exact iff_of_true ⟨rfl, List.forall_mem_nil _⟩ (List.forall_mem_nil _)
  | cons line lines ih =>
    rw [List.flatMap_cons, List.append_assoc, List.singleton_append,
      allowed_cons (by decide) (by decide), ih, List.forall_mem_cons]

theorem allowed_xmlEscape (s : JsString) : Allowed (xmlEscape s) ↔ Allowed s := by
  have hwrite : ∀ u, xmlEscape [u] = [u] ∨ IsPlain u ∧ xmlEscape [u] ≠ [] ∧ ∀ v ∈ xmlEscape [u], IsPlain v := by
    intro u
    by_cases hu : Special u
    · right
      rcases hu with rfl | rfl | rfl | rfl | rfl <;> decide
    · exact .inl (xmlEscape_plain hu)
  have hunits : ∀ u, (∀ v ∈ xmlEscape [u], isXmlUnit v = true) ↔ isXmlUnit u = true := by
    intro u
    by_cases hu : Special u
    · rcases hu with rfl | rfl | rfl | rfl | rfl <;> decide
    · rw [xmlEscape_plain hu, List.forall_mem_singleton]
  have hwell : WellFormed ([] ++ s.flatMap fun u => xmlEscape [u]) ↔ WellFormed ([] ++ s) := wellFormed_flatMap hwrite s []
  unfold Allowed
  rw [xmlEscape_flatMap]
  refine and_congr hwell ?_
  simp only [List.forall_mem_flatMap, hunits]

theorem allowed_xmlCell (cell : JsString × JsValue) : Allowed (xmlCell cell) ↔ Allowed cell.1 ∧ Allowed (scalar cell.2) := by
  obtain ⟨key, v⟩ := cell
  have hnil : Allowed [] := ⟨rfl, List.forall_mem_nil _⟩
  have hfirst : ∀ {w : JsString}, w ≠ [] → (∀ u ∈ w, IsPlain u ∧ isXmlUnit u = true) → ∀ t, Allowed (w ++ t) ↔ Allowed t :=
    fun hw hall t => (allowed_markup hw hall [] t).trans (and_iff_right hnil)
  have hlast : ∀ {w : JsString}, w ≠ [] → (∀ u ∈ w, IsPlain u ∧ isXmlUnit u = true) → ∀ s, Allowed (s ++ w) ↔ Allowed s :=
    fun hw hall s => by
      have h := allowed_markup hw hall s []
      rw [List.append_nil] at h
      exact h.trans (and_iff_left hnil)
  unfold xmlCell
  by_cases hkey : xmlName key = true
  · simp only [if_pos hkey, List.append_assoc]
    rw [hfirst (by decide) (by decide), allowed_markup (by decide) (by decide), allowed_markup (by decide) (by decide),
      hlast (by decide) (by decide), allowed_xmlEscape]
    tauto
  · simp only [if_neg hkey, List.append_assoc]
    rw [hfirst (by decide) (by decide), allowed_markup (by decide) (by decide),
      hlast (by decide) (by decide), allowed_xmlEscape,
      allowed_xmlEscape]

/-- **What is written** has all its characters where the keys and the texts have. -/
theorem allowed_toXml (rows : List JsValue) :
    Allowed (toXml rows) ↔ ∀ row ∈ rows, ∀ cell ∈ entriesOf row, Allowed cell.1 ∧ Allowed (scalar cell.2) := by
  have hlines : toXml rows = (xmlDeclaration :: js "<records>" ::
    (rows.flatMap xmlLines ++ [js "</records>"])).flatMap (· ++ [LF]) :=
    joinWith_flatMap _ (List.cons_ne_nil _ _)
  have hdeclaration : Allowed xmlDeclaration := by decide
  have hrow : ∀ row, (∀ line ∈ xmlLines row, Allowed line) ↔ ∀ cell ∈ entriesOf row, Allowed cell.1 ∧
    Allowed (scalar cell.2) := by
    intro row
    unfold xmlLines
    rw [List.forall_mem_append, List.forall_mem_append, List.forall_mem_map]
    simp only [List.forall_mem_singleton, allowed_xmlCell]
    exact (and_iff_left (by decide)).trans (and_iff_right (by decide))
  rw [hlines, allowed_lines, List.forall_mem_cons, List.forall_mem_cons, List.forall_mem_append, List.forall_mem_flatMap]
  simp only [hrow, List.forall_mem_singleton]
  exact (and_iff_right hdeclaration).trans ((and_iff_right (by decide)).trans (and_iff_left (by decide)))

/-- **The document** that is written is well-formed where the keys and the texts have only characters of XML, and then a reader
finds these records. -/
theorem readXml_toXml (rows : List JsValue) : (readXml (toXml rows)).map xmlRecords =
    if ∀ row ∈ rows, ∀ cell ∈ entriesOf row, Allowed cell.1 ∧ Allowed (scalar cell.2) then
      some (rows.map fun row => (entriesOf row).map fun cell =>
        (if xmlName cell.1 then cell.1 else attributeText cell.1, lineEnds (scalar cell.2)))
    else none := by
  unfold readXml
  simp only [allowed_toXml, scan_toXml]
  split
  · exact congrArg some (xmlRecords_rootNode rows)
  · rfl

/-- An attribute keeps a key that has no white space but spaces. -/
theorem attributeText_eq_iff {key : JsString} : attributeText key = key ↔ ∀ u ∈ key, u ≠ 0x09 ∧ u ≠ LF ∧ u ≠ CR := by
  constructor
  · intro h u hu
    rw [← h] at hu
    obtain ⟨v, -, rfl⟩ := List.mem_map.mp hu
    split
    · decide
    · rename_i hv
      refine ⟨?_, ?_, ?_⟩
      all_goals
        rintro rfl
        exact hv (by decide)
  · intro h
    have hends := lineEnds_plain (fun hcr => (h CR hcr).2.2 rfl) []
    rw [List.append_nil, lineEnds, List.append_nil] at hends
    unfold attributeText
    rw [hends]
    refine (List.map_congr_left fun u hu => ?_).trans (List.map_id' key)
    obtain ⟨htab, hlf, hcr⟩ := h u hu
    split
    · rename_i hspace
      simp only [isXmlSpace, Bool.or_eq_true, beq_iff_eq] at hspace
      tauto
    · rfl

theorem no_breaks_of_name {key : JsString} (hkey : xmlName key = true) : ∀ u ∈ key, u ≠ 0x09 ∧ u ≠ LF ∧ u ≠ CR := by
  intro u hu
  have hrest : isNameRest u = true := List.all_eq_true.mp ((Bool.and_eq_true _ _).mp hkey).2 u hu
  refine ⟨?_, ?_, ?_⟩
  all_goals
    rintro rfl
    cases hrest

/-- **The export** is well-formed, and every cell is recovered, exactly if every text and every key has only characters of XML,
and no key has a tab or a line end. -/
theorem toXml_faithful_iff (rows : List JsValue) : (readXml (toXml rows)).map xmlRecords = some (rows.map xmlCells) ↔
    ∀ row ∈ rows, ∀ cell ∈ entriesOf row,
      Allowed (scalar cell.2) ∧ Allowed cell.1 ∧ ∀ u ∈ cell.1, u ≠ 0x09 ∧ u ≠ LF ∧ u ≠ CR := by
  have hkey : ∀ key, (if xmlName key then key else attributeText key) = key ↔ ∀ u ∈ key, u ≠ 0x09 ∧ u ≠ LF ∧ u ≠ CR := by
    intro key
    split
    · rename_i h
      exact iff_of_true rfl (no_breaks_of_name h)
    · exact attributeText_eq_iff
  rw [readXml_toXml]
  by_cases hall : ∀ row ∈ rows, ∀ cell ∈ entriesOf row, Allowed cell.1 ∧ Allowed (scalar cell.2)
  · rw [if_pos hall]
    unfold xmlCells
    simp only [Option.some.injEq, List.map_inj_left, Prod.mk.injEq, and_true, hkey]
    refine forall₂_congr fun row hrow => forall₂_congr fun cell hcell => ?_
    obtain ⟨hname, htext⟩ := hall row hrow cell hcell
    exact (and_iff_right htext |>.trans (and_iff_right hname)).symm
  · rw [if_neg hall]
    exact iff_of_false (fun h => by cases h) fun h => hall fun row hrow cell hcell =>
      ⟨(h row hrow cell hcell).2.1, (h row hrow cell hcell).1⟩

/-- A value with a control character, and a key with a tab. -/
theorem toXml_control : (readXml (toXml [.obj [(js "note", .str [0x61, 0x01])]])).map xmlRecords ≠
      some ([.obj [(js "note", .str [0x61, 0x01])]].map xmlCells) ∧
    (readXml (toXml [.obj [([0x61, 0x09], .str (js "x"))]])).map xmlRecords ≠
      some ([.obj [([0x61, 0x09], .str (js "x"))]].map xmlCells) := by
  decide +kernel

end Tables
end MaterialOpenWebui
