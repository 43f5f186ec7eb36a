import MaterialOpenWebui.Py.Shlex

/-!
# `Knowledge.Pipeline` — command lines of the knowledge shell (`_parse_pipeline`, `backend/open_webui/tools/knowledge_fs.py`)

A command is split at its pipes and the segments are split into words. Which pipes are quoted is told by a tracker of the two
kinds of quotes; the words are those of `shlex`. The tracker does not know the backslash, and a segment is stripped of all that
Python takes for white space; so the two agree only in commands that are `Tame`.
-/

namespace MaterialOpenWebui
namespace Pipeline
open Py Py.Shlex Cut

def pipe : CodePoint := ⟨124, by decide⟩

/-! ## The parser -/

structure Tracker where
  in_single : Bool
  in_double : Bool
  deriving DecidableEq

/-- What a character does to the quotes. -/
def Tracker.next (t : Tracker) (ch : CodePoint) : Tracker :=
  if ch = apostrophe ∧ t.in_double = false then { t with in_single := !t.in_single }
  else if ch = quotation ∧ t.in_single = false then { t with in_double := !t.in_double }
  else t

/-- The tracker splits here. -/
def Tracker.splits (t : Tracker) (ch : CodePoint) : Bool := ch == pipe && !t.in_single && !t.in_double

structure Scan where
  segments : List Str
  tracker : Tracker
  buf : Str

def Scan.feed (scan : Scan) (ch : CodePoint) : Scan :=
  if scan.tracker.splits ch then ⟨scan.segments ++ [strip scan.buf], scan.tracker.next ch, []⟩
  else ⟨scan.segments, scan.tracker.next ch, scan.buf ++ [ch]⟩

def unquoted : Tracker := ⟨false, false⟩

def segments (command : Str) : List Str :=
  let scan := command.foldl Scan.feed ⟨[], unquoted, []⟩
  let remaining := strip scan.buf
  if remaining = [] then scan.segments else scan.segments ++ [remaining]

/-- The words of a segment; with malformed quotes, those between white space. -/
def tokenize (seg : Str) : List Str := (shlex_split seg).getD (split seg)

def parse_pipeline (command : Str) : List (List Str) :=
  (((segments command).filter fun seg => seg ≠ []).map tokenize).filter fun tokens => tokens ≠ []

/-! ## What is meant -/

/-- A pipe that is neither quoted nor escaped by the rules of `shlex`. -/
def separates (mode : Mode) (ch : CodePoint) : Bool := ch == pipe && mode == .plain

/-- The commands of a pipeline, as they are written. -/
def parts (command : Str) : List Str := cut Shlex.next separates .plain command

def words (part : Str) : List Str := (shlex_split part).getD []

/-- The words of the commands that have any. -/
def pipeline (command : Str) : List (List Str) := ((parts command).map words).filter fun tokens => tokens ≠ []

/-! ## The parser as a cut -/

/-- What becomes of a segment before it is stripped. -/
def tokens (segment : Str) : List Str := if strip segment = [] then [] else tokenize (strip segment)

/-- The segments, not yet stripped. -/
def tracked (command : Str) : List Str := cut Tracker.next Tracker.splits unquoted command

theorem scan_spec (command : Str) (scan : Scan) : ∃ front last,
    (cut Tracker.next Tracker.splits scan.tracker command).modifyHead (scan.buf ++ ·) = front ++ [last] ∧
      (command.foldl Scan.feed scan).segments = scan.segments ++ front.map strip ∧
      (command.foldl Scan.feed scan).buf = last := by
  induction command generalizing scan with
  | nil => exact ⟨[], scan.buf, by simp [cut], by simp, rfl⟩
  | cons ch command ih =>
    obtain ⟨front, last, hcut, hsegments, hbuf⟩ := ih (scan.feed ch)
    rw [List.foldl_cons, cut]
    cases hsplits : scan.tracker.splits ch with
    | true =>
      have hfeed : scan.feed ch = ⟨scan.segments ++ [strip scan.buf], scan.tracker.next ch, []⟩ := by
        rw [Scan.feed, if_pos hsplits]
      rw [hfeed] at hcut hsegments hbuf ⊢
      refine ⟨scan.buf :: front, last, ?_, ?_, hbuf⟩
      · rw [if_pos rfl, List.modifyHead_cons, List.append_nil, List.cons_append, ← hcut]
        cases cut Tracker.next Tracker.splits (scan.tracker.next ch) command <;> rfl
      · rw [hsegments, List.map_cons, List.append_assoc, List.singleton_append]
    | false =>
      have hfeed : scan.feed ch = ⟨scan.segments, scan.tracker.next ch, scan.buf ++ [ch]⟩ := by
        rw [Scan.feed, hsplits, if_neg Bool.false_ne_true]
      rw [hfeed] at hcut hsegments hbuf ⊢
      refine ⟨front, last, ?_, hsegments, hbuf⟩
      rw [if_neg Bool.false_ne_true, List.modifyHead_modifyHead, ← hcut]
      congr 1
      funext piece
      exact (List.append_assoc scan.buf [ch] piece).symm

theorem filter_tokenize (segs : List Str) :
    (((segs.map strip).filter fun seg => seg ≠ []).map tokenize).filter (fun tokens => tokens ≠ []) =
      (segs.map tokens).filter fun tokens => tokens ≠ [] := by
  induction segs with
  | nil => rfl
  | cons seg segs ih =>
    rw [List.map_cons, List.map_cons, List.filter_cons, List.filter_cons, tokens, ← ih]
    by_cases h : strip seg = []
    · simp [h]
    · simp [h, List.filter_cons]

/-- **The parser**: the words of the tracked segments. -/
theorem parse_pipeline_eq (command : Str) :
    parse_pipeline command = ((tracked command).map tokens).filter fun tokens => tokens ≠ [] := by
  obtain ⟨front, last, hcut, hsegments, hbuf⟩ := scan_spec command ⟨[], unquoted, []⟩
  have htracked : tracked command = front ++ [last] := by
    rw [← hcut, tracked]
    cases cut Tracker.next Tracker.splits unquoted command <;> rfl
  rw [htracked, ← filter_tokenize, parse_pipeline, segments, hsegments, hbuf, List.nil_append, List.map_append]
  by_cases h : strip last = []
  · simp [h]
  · simp [h]

/-! ## One segment -/

theorem mem_emitted {mode : Mode} {c d : CodePoint} (h : d ∈ emitted mode c) : d = c ∨ d = backslash := by
  cases mode with
  | escape inDouble =>
    rw [emitted] at h
    split at h
    · simpa [or_comm] using h
    · exact .inl (List.mem_singleton.mp h)
  | _ =>
    rw [emitted] at h
    split at h
    · cases h
    · exact .inl (List.mem_singleton.mp h)

theorem count_emitted (mode : Mode) (c : CodePoint) :
    (if mode = .plain ∧ blank c = true then [] else emitted mode c).count pipe = if c = pipe then 1 else 0 := by
  by_cases hc : c = pipe
  · subst hc
    rw [if_neg fun h => Bool.false_ne_true h.2, if_pos rfl]
    cases mode with
    | escape inDouble => cases inDouble <;> rfl
    | _ => rfl
  · rw [if_neg hc]
    refine List.count_eq_zero_of_not_mem fun hmem => ?_
    split at hmem
    · cases hmem
    · rcases mem_emitted hmem with rfl | h
      · exact hc rfl
      · cases h

/-- No pipe is lost between the words. -/
theorem count_content (mode : Mode) (s : Str) : (content mode s).count pipe = s.count pipe := by
  induction s generalizing mode with
  | nil => rfl
  | cons c s ih =>
    rw [content, List.count_append, ih, count_emitted, List.count_cons, Nat.add_comm]
    simp

theorem count_space {s : Str} (h : ∀ c ∈ s, c.isSpace = true) : s.count pipe = 0 :=
  List.count_eq_zero_of_not_mem fun hmem => Bool.false_ne_true (h pipe hmem)

theorem count_strip (s : Str) : (strip s).count pipe = s.count pipe := by
  have h := congrArg (List.count pipe) (strip_spec s)
  rw [List.count_append, List.count_append, count_space isSpace_leading, count_space isSpace_trailing] at h
  omega

theorem flatten_words {part : Str} (h : run Shlex.next .plain part = .plain) :
    (words part).flatten = content .plain part := by
  obtain ⟨ws, hws⟩ := Option.isSome_iff_exists.mp ((lex_isSome .plain none part).mpr h)
  rw [words, shlex_split, hws]
  exact flatten_lex hws

theorem tokenize_of_plain {seg : Str} (h : run Shlex.next .plain seg = .plain) : tokenize seg = words seg := by
  obtain ⟨ws, hws⟩ := Option.isSome_iff_exists.mp ((lex_isSome .plain none seg).mpr h)
  rw [tokenize, words, shlex_split, hws]
  rfl

theorem tokenize_of_not_plain {seg : Str} (h : run Shlex.next .plain seg ≠ .plain) : tokenize seg = split seg := by
  have hnone : lex .plain none seg = none :=
    Option.not_isSome_iff_eq_none.mp fun hsome => h ((lex_isSome .plain none seg).mp hsome)
  rw [tokenize, shlex_split, hnone]
  rfl

theorem words_nil_iff {part : Str} (h : run Shlex.next .plain part = .plain) :
    words part = [] ↔ ∀ c ∈ part, blank c = true := by
  obtain ⟨ws, hws⟩ := Option.isSome_iff_exists.mp ((lex_isSome .plain none part).mpr h)
  rw [← shlex_split_nil_iff, words, shlex_split, hws, Option.some_inj]
  rfl

/-- A segment that is not all white space has words. -/
theorem tokens_nil_iff {seg : Str} : tokens seg = [] ↔ strip seg = [] := by
  rw [tokens]
  by_cases h : strip seg = []
  · rw [if_pos h]
    exact iff_of_true rfl h
  · rw [if_neg h]
    refine iff_of_false (fun hnil => ?_) h
    by_cases hplain : run Shlex.next .plain (strip seg) = .plain
    · rw [tokenize_of_plain hplain, words_nil_iff hplain] at hnil
      exact h (strip_eq_nil fun c hc => isSpace_of_blank (hnil c hc))
    · have hflat := flatten_split (strip seg)
      rw [tokenize_of_not_plain hplain] at hnil
      rw [hnil] at hflat
      refine h (strip_eq_nil fun c hc => ?_)
      simpa using List.filter_eq_nil_iff.mp hflat.symm c hc

/-- The characters of the words of a segment. -/
theorem flatten_tokens (seg : Str) : (tokens seg).flatten =
    if run Shlex.next .plain (strip seg) = .plain then content .plain (strip seg)
    else (strip seg).filter fun c => !c.isSpace := by
  rw [tokens]
  by_cases h : strip seg = []
  · rw [if_pos h, h]
    rfl
  · rw [if_neg h]
    by_cases hplain : run Shlex.next .plain (strip seg) = .plain
    · rw [if_pos hplain, tokenize_of_plain hplain, flatten_words hplain]
    · rw [if_neg hplain, tokenize_of_not_plain hplain, flatten_split]

theorem count_tokens (seg : Str) : (tokens seg).flatten.count pipe = seg.count pipe := by
  rw [flatten_tokens, ← count_strip seg]
  split
  · exact count_content .plain (strip seg)
  · exact List.count_filter rfl

theorem count_words {part : Str} (h : run Shlex.next .plain part = .plain) :
    (words part).flatten.count pipe = part.count pipe := by
  rw [flatten_words h, count_content]

/-- The white space around a command is such as `shlex` skips, and none of it is escaped. -/
structure Clean (part : Str) : Prop where
  blanks : ∀ c ∈ leading part ++ trailing part, blank c = true
  unescaped : run Shlex.next .plain (strip part) = .plain

theorem run_part (part : Str) : run Shlex.next .plain part =
    run Shlex.next (run Shlex.next .plain (strip part)) (trailing part) := by
  conv_lhs => rw [← strip_spec part]
  rw [run_append, run_append, run_space isSpace_leading]

theorem content_part (part : Str) : content .plain part = (leading part).filter (fun c => !blank c) ++
    (content .plain (strip part) ++ content (run Shlex.next .plain (strip part)) (trailing part)) := by
  conv_lhs => rw [← strip_spec part]
  rw [content_append, content_append, run_space isSpace_leading, content_space isSpace_leading]

/-- White space after quotes or a backslash that are open closes nothing but the backslash. -/
theorem escape_of_run_space {mode : Mode} {s : Str} (h : ∀ c ∈ s, c.isSpace = true) (hrun : run Shlex.next mode s = .plain) :
    mode = .plain ∨ mode = .escape false ∧ s ≠ [] := by
  have hne : ∀ c ∈ s, c ≠ apostrophe ∧ c ≠ quotation ∧ c ≠ backslash := by
    intro c hc
    refine ⟨?_, ?_, ?_⟩ <;> rintro rfl <;> exact Bool.false_ne_true (h _ hc)
  have hsingle : ∀ s : Str, (∀ c ∈ s, c ≠ apostrophe ∧ c ≠ quotation ∧ c ≠ backslash) →
      run Shlex.next .single s = .single ∧ run Shlex.next .double s = .double := by
    intro s hs
    induction s with
    | nil => exact ⟨rfl, rfl⟩
    | cons c s ih =>
      have ⟨⟨hc, hc', hc''⟩, hrest⟩ := List.forall_mem_cons.mp hs
      show run _ (Shlex.next .single c) s = _ ∧ run _ (Shlex.next .double c) s = _
      rw [Shlex.next, Shlex.next, if_neg hc, if_neg hc', if_neg hc'']
      exact ih hrest
  cases mode with
  | plain => exact .inl rfl
  | single =>
    rw [(hsingle s hne).1] at hrun
    cases hrun
  | double =>
    rw [(hsingle s hne).2] at hrun
    cases hrun
  | escape inDouble =>
    cases s with
    | nil => cases hrun
    | cons c s =>
      cases inDouble with
      | false => exact .inr ⟨rfl, List.cons_ne_nil c s⟩
      | true =>
        have hdouble : run Shlex.next .double s = .plain := hrun
        rw [(hsingle s fun c hc => hne c (List.mem_cons_of_mem _ hc)).2] at hdouble
        cases hdouble

/-- **One segment**: its words are those of the command only if what is stripped is clean. -/
theorem words_eq_iff {part : Str} (h : run Shlex.next .plain part = .plain) : tokens part = words part ↔ Clean part := by
  constructor
  · intro heq
    have hflat := congrArg List.flatten heq
    rw [flatten_tokens, flatten_words h, content_part part] at hflat
    by_cases hplain : run Shlex.next .plain (strip part) = .plain
    · rw [if_pos hplain, hplain, content_space isSpace_trailing] at hflat
      have hlength := congrArg List.length hflat
      simp only [List.length_append] at hlength
      have hleading : (leading part).filter (fun c => !blank c) = [] := List.length_eq_zero_iff.mp (by omega)
      have htrailing : (trailing part).filter (fun c => !blank c) = [] := List.length_eq_zero_iff.mp (by omega)
      refine ⟨fun c hc => ?_, hplain⟩
      rcases List.mem_append.mp hc with hc | hc
      · simpa using List.filter_eq_nil_iff.mp hleading c hc
      · simpa using List.filter_eq_nil_iff.mp htrailing c hc
    · -- the segment ends in a backslash, and what was escaped by it is a white space that is lost
      rw [run_part] at h
      obtain ⟨hescape, hne⟩ := (escape_of_run_space isSpace_trailing h).resolve_left hplain
      obtain ⟨c, back, hback⟩ := List.exists_cons_of_ne_nil hne
      have hmem : c ∈ (strip part).filter fun c => !c.isSpace := by
        rw [if_neg hplain] at hflat
        rw [hflat, hescape, hback]
        refine List.mem_append_right _ (List.mem_append_right _ ?_)
        exact List.mem_append_left _ (List.mem_singleton_self c)
      have hspace : c.isSpace = true := isSpace_trailing c (by rw [hback]; exact List.mem_cons_self)
      have hnot := (List.mem_filter.mp hmem).2
      rw [hspace] at hnot
      cases hnot
  · intro hclean
    have hsplit : shlex_split part = shlex_split (strip part) := by
      conv_lhs => rw [← strip_spec part]
      rw [shlex_split, lex_blank_append fun c hc => hclean.blanks c (List.mem_append_left _ hc),
        lex_append_blank (fun c hc => hclean.blanks c (List.mem_append_right _ hc)) _ _ hclean.unescaped]
      rfl
    rw [words, hsplit, tokens]
    by_cases hstrip : strip part = []
    · rw [if_pos hstrip, hstrip]
      rfl
    · rw [if_neg hstrip, tokenize_of_plain hclean.unescaped, words]

/-- Where no quotes and no backslash are known to the words, none are left open. -/
theorem plain_of_space {seg : Str} (hspace : ∀ c ∈ (tokens seg).flatten, c.isSpace = true) :
    run Shlex.next .plain (strip seg) = .plain := by
  by_contra hplain
  rw [flatten_tokens, if_neg hplain] at hspace
  have hall : ∀ c ∈ strip seg, c.isSpace = true := by
    intro c hc
    by_contra hnot
    exact hnot (hspace c (List.mem_filter.mpr ⟨hc, by simpa using hnot⟩))
  rw [strip_eq_nil hall] at hplain
  exact hplain rfl

/-- A command whose words are white space, as the parser reads it, is white space in all its words. -/
theorem space_words {part : Str} (h : run Shlex.next .plain part = .plain)
    (hspace : ∀ c ∈ (tokens part).flatten, c.isSpace = true) : ∀ c ∈ (words part).flatten, c.isSpace = true := by
  have hplain := plain_of_space hspace
  rw [flatten_tokens, if_pos hplain] at hspace
  intro c hc
  rw [flatten_words h, content_part, hplain, content_space isSpace_trailing, List.mem_append, List.mem_append] at hc
  rcases hc with hc | hc | hc
  · exact isSpace_leading c (List.mem_filter.mp hc).1
  · exact hspace c hc
  · exact isSpace_trailing c (List.mem_filter.mp hc).1

/-- A segment with open quotes, or an open backslash, has words that are not white space. -/
theorem exists_not_space {seg : Str} (h : run Shlex.next .plain seg ≠ .plain) :
    ∃ c ∈ (tokens seg).flatten, c.isSpace = false := by
  by_contra hall
  have hplain : run Shlex.next .plain (strip seg) = .plain := by
    refine plain_of_space fun c hc => ?_
    by_contra hnot
    exact hall ⟨c, hc, by simpa using hnot⟩
  rw [run_part, hplain] at h
  exact h (run_space isSpace_trailing)

/-! ## The law -/

/-- The command is read alike by the tracker and by `shlex`, and nothing is lost around its pipes. -/
structure Tame (command : Str) : Prop where
  aligned : ∀ front back, command = front ++ pipe :: back →
    (run Tracker.next unquoted front = unquoted ↔ run Shlex.next .plain front = .plain)
  clean : ∀ part ∈ parts command, Clean part

theorem plain_parts {mode : Mode} {command : Str} (h : run Shlex.next mode command = .plain) :
    ∀ piece rest, cut Shlex.next separates mode command = piece :: rest →
      run Shlex.next mode piece = .plain ∧ ∀ part ∈ rest, run Shlex.next .plain part = .plain := by
  induction command generalizing mode with
  | nil =>
    intro piece rest hcut
    cases hcut
    exact ⟨h, fun part hp => nomatch hp⟩
  | cons c command ih =>
    intro piece rest hcut
    rw [cut] at hcut
    cases hsep : separates mode c with
    | true =>
      rw [hsep, if_pos rfl] at hcut
      obtain ⟨rfl, rfl⟩ := List.cons.inj hcut
      obtain ⟨hc, hmode⟩ := Bool.and_eq_true_iff.mp hsep
      obtain rfl : c = pipe := eq_of_beq hc
      obtain rfl : mode = .plain := eq_of_beq hmode
      refine ⟨rfl, ?_⟩
      obtain ⟨piece, rest, hrest⟩ :=
        List.exists_cons_of_ne_nil (cut_ne_nil Shlex.next separates (Shlex.next .plain pipe) command)
      obtain ⟨hpiece, hall⟩ := ih h piece rest hrest
      rw [hrest]
      exact List.forall_mem_cons.mpr ⟨hpiece, hall⟩
    | false =>
      rw [hsep, if_neg Bool.false_ne_true] at hcut
      obtain ⟨piece', rest', hrest⟩ :=
        List.exists_cons_of_ne_nil (cut_ne_nil Shlex.next separates (Shlex.next mode c) command)
      rw [hrest, List.modifyHead_cons] at hcut
      obtain ⟨rfl, rfl⟩ := List.cons.inj hcut
      exact ih h piece' rest' hrest

/-- The entries that are not empty. -/
def kept (entries : List (List Str)) : List (List Str) := entries.filter fun entry => entry ≠ []

theorem kept_cons (entry : List Str) (entries : List (List Str)) :
    kept (entry :: entries) = (if entry = [] then [] else [entry]) ++ kept entries := by
  rw [kept, List.filter_cons]
  by_cases h : entry = [] <;> simp [h, kept]

/-- Entries that are white space only. -/
def Spaces (entries : List (List Str)) : Prop := ∀ entry ∈ entries, ∀ c ∈ entry.flatten, c.isSpace = true

/-- **One piece**: what both sides cut off alike. The parser may be behind, but then by white space only. -/
theorem piece_eq {part : Str} (h : run Shlex.next .plain part = .plain) {behind meant parsed : List (List Str)} {Q : Prop}
    (hbehind : Spaces behind) (hrest : ∀ behind, Spaces behind → behind ++ meant = parsed → behind = [] ∧ Q)
    (heq : behind ++ ((if words part = [] then [] else [words part]) ++ meant) =
      (if tokens part = [] then [] else [tokens part]) ++ parsed) :
    behind = [] ∧ tokens part = words part ∧ Q := by
  have hlater : (∀ c ∈ (tokens part).flatten, c.isSpace = true) → words part ≠ [] →
      ∀ behind, Spaces behind → behind ++ words part :: meant = parsed → False := by
    intro hspace _ behind hbehind heq
    have hspaces : Spaces (behind ++ [words part]) := by
      intro entry hentry
      rcases List.mem_append.mp hentry with hentry | hentry
      · exact hbehind entry hentry
      · rw [List.mem_singleton.mp hentry]
        exact space_words h hspace
    have hnil := (hrest _ hspaces (by rw [List.append_assoc, List.singleton_append]; exact heq)).1
    simp at hnil
  by_cases htokens : tokens part = []
  · rw [if_pos htokens] at heq
    by_cases hwords : words part = []
    · rw [if_pos hwords] at heq
      obtain ⟨hnil, hQ⟩ := hrest behind hbehind heq
      exact ⟨hnil, htokens.trans hwords.symm, hQ⟩
    · rw [if_neg hwords] at heq
      exact (hlater (by rw [htokens]; exact fun c hc => nomatch hc) hwords behind hbehind heq).elim
  · have hwords : words part ≠ [] := by
      intro hnil
      rw [words_nil_iff h] at hnil
      refine htokens (tokens_nil_iff.mpr (strip_eq_nil fun c hc => isSpace_of_blank (hnil c ?_)))
      rw [← strip_spec part]
      exact List.mem_append_right _ (List.mem_append_left _ hc)
    rw [if_neg htokens, if_neg hwords] at heq
    cases behind with
    | nil =>
      obtain ⟨hsame, hmeant⟩ := List.cons.inj heq
      exact ⟨rfl, hsame.symm, (hrest [] (fun entry hentry => nomatch hentry) hmeant).2⟩
    | cons entry behind =>
      obtain ⟨rfl, htail⟩ := List.cons.inj heq
      have ⟨hspace, hbehind⟩ := List.forall_mem_cons.mp hbehind
      exact (hlater hspace hwords behind hbehind htail).elim

theorem splits_pipe {t : Tracker} : t.splits pipe = true ↔ t = unquoted := by
  obtain ⟨in_single, in_double⟩ := t
  cases in_single <;> cases in_double <;> decide

theorem separates_pipe {mode : Mode} : separates mode pipe = true ↔ mode = .plain := by
  rw [separates, beq_self_eq_true, Bool.true_and]
  exact beq_iff_eq

/-- **Where the sides differ**: the next entry of the parser is neither what is meant nor white space. -/
theorem not_eq_of_differ {behind meant parsed : List (List Str)} (hbehind : Spaces behind) {part seg : Str}
    (hpart : run Shlex.next .plain part = .plain) (hwords : words part ≠ []) (hcount : seg.count pipe ≠ part.count pipe)
    (hspace : ∃ c ∈ (tokens seg).flatten, c.isSpace = false) :
    behind ++ kept (words part :: meant) ≠ kept (tokens seg :: parsed) := by
  have htokens : tokens seg ≠ [] := by
    rintro hnil
    obtain ⟨c, hc, -⟩ := hspace
    rw [hnil] at hc
    cases hc
  rw [kept_cons, kept_cons, if_neg hwords, if_neg htokens]
  cases behind with
  | nil =>
    intro heq
    have hsame : words part = tokens seg := (List.cons.inj heq).1
    rw [← count_tokens, ← hsame, count_words hpart] at hcount
    exact hcount rfl
  | cons entry behind =>
    intro heq
    have hsame : entry = tokens seg := (List.cons.inj heq).1
    obtain ⟨c, hc, hnot⟩ := hspace
    have hspace := hbehind entry List.mem_cons_self c (hsame ▸ hc)
    exact Bool.false_ne_true (hnot.symm.trans hspace)

theorem count_past (front back : Str) : front.count pipe < (front ++ pipe :: back).count pipe := by
  rw [List.count_append, List.count_cons_self]
  omega

theorem unquoted_of_space {s : Str} (h : ∀ c ∈ s, c.isSpace = true) : run Tracker.next unquoted s = unquoted := by
  induction s with
  | nil => rfl
  | cons c s ih =>
    have ⟨hc, hs⟩ := List.forall_mem_cons.mp h
    have hnext : Tracker.next unquoted c = unquoted := by
      rw [Tracker.next, if_neg fun h => Shlex.ne_of_isSpace hc rfl h.1, if_neg fun h => Shlex.ne_of_isSpace hc rfl h.1]
    show run _ (Tracker.next unquoted c) s = _
    rw [hnext, ih hs]

/-- **The whole command**, from where both sides are outside of quotes. -/
theorem tracked_eq (n : Nat) {command : Str} (hn : command.length < n) (h : run Shlex.next .plain command = .plain)
    (behind : List (List Str)) (hbehind : Spaces behind)
    (heq : behind ++ kept ((parts command).map words) = kept ((tracked command).map tokens)) :
    behind = [] ∧ tracked command = parts command ∧ ∀ part ∈ parts command, tokens part = words part := by
  induction n generalizing command behind with
  | zero => exact absurd hn (Nat.not_lt_zero _)
  | succ n ih =>
    rcases exists_first Tracker.next Tracker.splits Shlex.next separates unquoted .plain command with ⟨htracker,
      hlexer⟩ | ⟨front, c, back, rfl, htracker, hlexer, hc⟩
    · -- no pipe separates
      rw [parts, tracked, cut_of_whole htracker, cut_of_whole hlexer] at *
      rw [List.map_singleton, List.map_singleton, kept_cons, kept_cons] at heq
      obtain ⟨hnil, hsame, -⟩ := piece_eq (Q := True) h hbehind (fun behind _ hnil => ⟨by simpa using hnil, trivial⟩) heq
      exact ⟨hnil, rfl, fun part hpart => List.mem_singleton.mp hpart ▸ hsame⟩
    · have hpipe : c = pipe := by
        rcases hc with hc | hc
        · exact eq_of_beq (Bool.and_eq_true_iff.mp (Bool.and_eq_true_iff.mp hc).1).1
        · exact eq_of_beq (Bool.and_eq_true_iff.mp hc).1
      subst hpipe
      cases hsplits : (run Tracker.next unquoted front).splits pipe with
      | true =>
        have htracked := cut_at htracker hsplits back
        rw [splits_pipe.mp hsplits] at htracked
        cases hseparates : separates (run Shlex.next .plain front) pipe with
        | true =>
          have hplain := separates_pipe.mp hseparates
          have hparts := cut_at hlexer hseparates back
          rw [hplain] at hparts
          have hback : run Shlex.next .plain back = .plain := by
            rw [run_append, hplain] at h
            exact h
          have hlength : back.length < n := by
            rw [List.length_append, List.length_cons] at hn
            omega
          have hsame : tracked (front ++ pipe :: back) = front :: tracked back := htracked
          have hmeant : parts (front ++ pipe :: back) = front :: parts back := hparts
          rw [hsame, hmeant, List.map_cons, List.map_cons, kept_cons, kept_cons] at heq
          obtain ⟨hnil, hfront, hrest, hall⟩ := piece_eq hplain hbehind (ih hlength hback) heq
          rw [hsame, hmeant, hrest]
          exact ⟨hnil, rfl, List.forall_mem_cons.mpr ⟨hfront, hall⟩⟩
        | false =>
          -- the parser splits in quotes, or after a backslash
          obtain ⟨rest, others, hparts⟩ := cut_past hlexer hseparates back
          have hopen : run Shlex.next .plain front ≠ .plain := by
            intro hplain
            rw [separates_pipe.mpr hplain] at hseparates
            cases hseparates
          have hpart := (plain_parts h _ _ hparts).1
          have hwords : words (front ++ pipe :: rest) ≠ [] := by
            rw [Ne, words_nil_iff hpart]
            exact fun hall => Bool.false_ne_true (hall pipe (by simp))
          have hmeant : parts (front ++ pipe :: back) = (front ++ pipe :: rest) :: others := hparts
          have hsame : tracked (front ++ pipe :: back) = front ::
            cut Tracker.next Tracker.splits unquoted back := htracked
          rw [hsame, hmeant, List.map_cons, List.map_cons] at heq
          exact absurd heq (not_eq_of_differ hbehind hpart hwords (Nat.ne_of_lt (count_past front rest))
            (exists_not_space hopen))
      | false =>
        -- the parser takes for quoted what is not
        have hseparates := hc.resolve_left (by rw [hsplits]; exact Bool.false_ne_true)
        have hplain := separates_pipe.mp hseparates
        have hparts := cut_at hlexer hseparates back
        obtain ⟨rest, others, htracked⟩ := cut_past htracker hsplits back
        have hwords : words front ≠ [] := by
          rw [Ne, words_nil_iff hplain]
          intro hall
          rw [splits_pipe.mpr (unquoted_of_space fun c hc => isSpace_of_blank (hall c hc))] at hsplits
          cases hsplits
        have hspace : ∃ c ∈ (tokens (front ++ pipe :: rest)).flatten, c.isSpace = false := by
          refine ⟨pipe, List.count_pos_iff.mp ?_, rfl⟩
          rw [count_tokens]
          exact Nat.lt_of_le_of_lt (Nat.zero_le _) (count_past front rest)
        have hmeant : parts (front ++ pipe :: back) = front :: cut Shlex.next separates _ back := hparts
        have hsame : tracked (front ++ pipe :: back) = (front ++ pipe :: rest) :: others := htracked
        rw [hsame, hmeant, List.map_cons, List.map_cons] at heq
        exact absurd heq (not_eq_of_differ hbehind hplain hwords (Nat.ne_of_gt (count_past front rest)) hspace)

theorem tracked_eq_iff {command : Str} : tracked command = parts command ↔ ∀ front back, command = front ++ pipe :: back →
    (run Tracker.next unquoted front = unquoted ↔ run Shlex.next .plain front = .plain) := by
  rw [tracked, parts, cut_eq_iff]
  constructor
  · intro h front back heq
    rw [← splits_pipe, ← separates_pipe, h front pipe back heq]
  · intro h front c back heq
    by_cases hc : c = pipe
    · subst hc
      rw [Bool.eq_iff_iff, splits_pipe, separates_pipe]
      exact h front back heq
    · rw [Tracker.splits, separates, beq_false_of_ne hc]
      rfl

/-- **The law of pipelines**: exactly the tame commands are parsed as they are meant. -/
theorem parse_pipeline_iff {command : Str} (h : (shlex_split command).isSome = true) :
    parse_pipeline command = pipeline command ↔ Tame command := by
  have hplain : run Shlex.next .plain command = .plain := (lex_isSome .plain none command).mp h
  have hparts : ∀ part ∈ parts command, run Shlex.next .plain part = .plain := by
    obtain ⟨piece, rest, hcut⟩ := List.exists_cons_of_ne_nil (cut_ne_nil Shlex.next separates .plain command)
    have ⟨hpiece, hall⟩ := plain_parts hplain piece rest hcut
    rw [parts, hcut]
    exact List.forall_mem_cons.mpr ⟨hpiece, hall⟩
  rw [parse_pipeline_eq, pipeline]
  constructor
  · intro heq
    obtain ⟨-, hsame, hall⟩ := tracked_eq (command.length + 1) (Nat.lt_succ_self _) hplain []
      (fun entry hentry => nomatch hentry) heq.symm
    exact ⟨tracked_eq_iff.mp hsame, fun part hpart => (words_eq_iff (hparts part hpart)).mp (hall part hpart)⟩
  · intro htame
    rw [tracked_eq_iff.mpr htame.aligned,
      List.map_congr_left fun part hpart => (words_eq_iff (hparts part hpart)).mpr (htame.clean part hpart)]

/-- A search for a word in quotes, with its results counted. -/
theorem parse_pipeline_iff_of_search :
    (shlex_split (py "grep 'a|b' f | wc -l")).isSome = true ∧
      (parse_pipeline (py "grep 'a|b' f | wc -l") = pipeline (py "grep 'a|b' f | wc -l") ↔
        Tame (py "grep 'a|b' f | wc -l")) :=
  ⟨by decide, parse_pipeline_iff (by decide)⟩

/-- A pipe in double quotes, after an escaped quote: the command is torn in two. -/
theorem parse_pipeline_of_escaped_quote :
    shlex_split (py "grep \"\\\"|x\"") = some [py "grep", py "\"|x"] ∧
      parse_pipeline (py "grep \"\\\"|x\"") ≠ pipeline (py "grep \"\\\"|x\"") := by
  constructor <;> decide

end Pipeline
end MaterialOpenWebui
