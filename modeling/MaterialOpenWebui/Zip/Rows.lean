import MaterialOpenWebui.Js.JsonRoundTrip
import MaterialOpenWebui.Lib.Pieces
import MaterialOpenWebui.Zip.Listing

/-!
# `Zip.Rows` — what a listing is made of

A listing is its heading and a line for each entry, and a line is six fields. No field holds a character that ends it, ends a line
or turns the direction of the text, because a name is written in quotes with all of these escaped. So the text comes apart into
the lines and the fields it was made of, and the last field of each is read back as the name.
-/

namespace MaterialOpenWebui
namespace Zip
open Js Guarded

/-! ## Characters -/

/-- The control characters below U+0020 and from U+0080, and those that change the direction of the text. -/
def Forbidden (c : Char) : Prop :=
  c.toNat < 0x20 ∨ 0x80 ≤ c.toNat ∧ c.toNat ≤ 0x9f ∨ c.toNat = 0x61c ∨ c.toNat = 0x200e ∨ c.toNat = 0x200f ∨
    0x202a ≤ c.toNat ∧ c.toNat ≤ 0x202e ∨ 0x2066 ≤ c.toNat ∧ c.toNat ≤ 0x2069

instance (c : Char) : Decidable (Forbidden c) := inferInstanceAs (Decidable (_ ∨ _))

/-- A text without any of them. -/
def Plain (text : List Char) : Prop := ∀ c ∈ text, ¬ Forbidden c

instance (text : List Char) : Decidable (Plain text) := List.decidableBAll _ text

theorem Plain.append {a b : List Char} (ha : Plain a) (hb : Plain b) : Plain (a ++ b) :=
  fun c hc => (List.mem_append.mp hc).elim (ha c) (hb c)

theorem plain_digitChar : ∀ d < 16, ¬ Forbidden d.digitChar := by decide

theorem plain_toDigits {base : Nat} (hpos : 1 < base) (hbase : base ≤ 16) (n : Nat) : Plain (Nat.toDigits base n) := by
  induction n using Nat.strongRecOn with
  | ind n ih =>
    rw [Nat.toDigits_eq_if hpos]
    split
    · rename_i hn
      intro c hc
      rw [List.mem_singleton.mp hc]
      exact plain_digitChar n (by omega)
    · rename_i hn
      refine (ih (n / base) (Nat.div_lt_self (by omega) hpos)).append fun c hc => ?_
      rw [List.mem_singleton.mp hc]
      exact plain_digitChar _ (Nat.lt_of_lt_of_le (Nat.mod_lt n (by omega)) hbase)

theorem plain_hex4 (n : Nat) : Plain (hex4 n) := by
  intro c hc
  simp only [hex4, List.mem_cons, List.not_mem_nil, or_false] at hc
  rcases hc with rfl | rfl | rfl | rfl <;> exact plain_digitChar _ (Nat.mod_lt _ (by decide))

/-- What the escape leaves is no control character. -/
theorem plain_escapeControl {c : Char} (h : 0x20 ≤ c.toNat) : Plain (escapeControl c) := by
  rw [escapeControl]
  split
  · have hmark : Plain ['\x5c', 'u'] := by decide
    exact hmark.append (plain_hex4 c.toNat)
  · rename_i hcontrol
    intro d hd
    rw [List.mem_singleton.mp hd]
    simp only [isControl, Bool.or_eq_true, Bool.and_eq_true, decide_eq_true_eq, beq_iff_eq] at hcontrol
    unfold Forbidden
    omega

/-- A unit is quoted in printable ASCII, or as a character of its own. -/
theorem escapeUnit_spec (u : UInt16) : (∀ c ∈ escapeUnit u, 0x20 ≤ c.toNat ∧ c.toNat < 0x7f) ∨
    IsPlain u ∧ 0x20 ≤ u.toNat ∧ escapeUnit u = [Char.ofNat u.toNat] ∧ Char.ofNat u.toNat ≠ '\x22' ∧
      Char.ofNat u.toNat ≠ '\x5c' := by
  have hdigit : ∀ d < 16, 0x20 ≤ d.digitChar.toNat ∧ d.digitChar.toNat < 0x7f := by decide
  have hshort : ∀ b : Char, 0x20 ≤ b.toNat ∧ b.toNat < 0x7f → ∀ c ∈ ['\x5c', b], 0x20 ≤ c.toNat ∧ c.toNat < 0x7f := by
    intro b hb c hc
    rcases List.mem_pair.mp hc with rfl | rfl
    · decide
    · exact hb
  unfold escapeUnit
  split_ifs with h1 h2 h3 h4 h5 h6 h7 h8
  · exact .inl (hshort _ (by decide))
  · exact .inl (hshort _ (by decide))
  · exact .inl (hshort _ (by decide))
  · exact .inl (hshort _ (by decide))
  · exact .inl (hshort _ (by decide))
  · exact .inl (hshort _ (by decide))
  · exact .inl (hshort _ (by decide))
  · refine .inl fun c hc => ?_
    simp only [hex4, List.mem_cons, List.not_mem_nil, or_false] at hc
    rcases hc with rfl | rfl | rfl | rfl | rfl | rfl
    · decide
    · decide
    all_goals exact hdigit _ (Nat.mod_lt _ (by decide))
  · rw [Bool.or_eq_true, Bool.or_eq_true, not_or, not_or, decide_eq_true_eq, Bool.not_eq_true, Bool.not_eq_true] at h8
    have hu := toNat_bmp h8.1.2 h8.2
    exact .inr ⟨⟨h8.1.2, h8.2⟩, by omega, rfl, ofNat_unit_ne (n := 0x22) h1 hu rfl, ofNat_unit_ne (n := 0x5c) h2 hu rfl⟩

/-- In a quoted text there is no control character below U+0020. -/
theorem le_of_mem_escapeUnit {u : UInt16} {c : Char} (h : c ∈ escapeUnit u) : 0x20 ≤ c.toNat := by
  rcases escapeUnit_spec u with hascii | ⟨hplain, hle, hself, -⟩
  · exact (hascii c h).1
  · rw [hself] at h
    rw [List.mem_singleton.mp h, toNat_bmp hplain.1 hplain.2]
    exact hle

theorem le_of_mem_quoteBody {s : JsString} {c : Char} (h : c ∈ quoteBody s) : 0x20 ≤ c.toNat := by
  fun_induction quoteBody s with
  | case1 => exact absurd h List.not_mem_nil
  | case2 u => exact le_of_mem_escapeUnit h
  | case3 u w s hpair ih =>
    rw [Bool.and_eq_true] at hpair
    rcases List.mem_cons.mp h with heq | h
    · rw [heq, toNat_pairChar hpair.1 hpair.2]
      exact Nat.le_trans (by decide : 0x20 ≤ 0x10000) (Nat.le_trans (Nat.le_add_right _ _) (Nat.le_add_right _ _))
    · exact ih h
  | case4 u w s hpair ih =>
    rcases List.mem_append.mp h with h | h
    · exact le_of_mem_escapeUnit h
    · exact ih h

theorem plain_quotedName (name : JsString) : Plain (quotedName name) := by
  intro d hd
  obtain ⟨c, hc, hd⟩ := List.mem_flatMap.mp hd
  refine plain_escapeControl ?_ d hd
  rcases List.mem_cons.mp hc with rfl | hc
  · decide
  rcases List.mem_append.mp hc with hc | hc
  · exact le_of_mem_quoteBody hc
  · rw [List.mem_singleton.mp hc]
    decide

/-! ## Names -/

theorem flatMap_escapeControl {text : List Char} (h : ∀ c ∈ text, c.toNat < 0x7f) : text.flatMap escapeControl = text := by
  induction text with
  | nil => rfl
  | cons c text ih =>
    have hc := h c List.mem_cons_self
    have hkeep : escapeControl c = [c] := by
      refine if_neg fun hcontrol => ?_
      simp only [isControl, Bool.or_eq_true, Bool.and_eq_true, decide_eq_true_eq, beq_iff_eq] at hcontrol
      omega
    rw [List.flatMap_cons, hkeep, ih fun d hd => h d (List.mem_cons_of_mem c hd)]
    rfl

/-- **One unit** of a name is read back, escaped or not. -/
theorem parseStringBody_unit (u : UInt16) (r : List Char) :
    parseStringBody ((escapeUnit u).flatMap escapeControl ++ r) = (parseStringBody r).map fun p => (u :: p.1, p.2) := by
  rcases escapeUnit_spec u with hascii | ⟨hplain, hle, hself, hq, hb⟩
  · rw [flatMap_escapeControl fun c hc => (hascii c hc).2]
    exact parseStringBody_escapeUnit u r
  · have hn := toNat_bmp hplain.1 hplain.2
    rw [hself, List.flatMap_singleton, escapeControl]
    split
    · rw [hn]
      simp [hex4, parseStringBody, hexUnit_hex4]
    · rw [List.singleton_append, parseStringBody_plain hq hb (by omega), units_bmp hplain.1 hplain.2]
      rfl

theorem escapeControl_pairChar {hi lo : UInt16} (hh : isHigh hi = true) (hl : isLow lo = true) :
    escapeControl (pairChar hi lo) = [pairChar hi lo] := by
  refine if_neg fun hcontrol => ?_
  have hn := toNat_pairChar hh hl
  simp only [isControl, Bool.or_eq_true, Bool.and_eq_true, decide_eq_true_eq, beq_iff_eq] at hcontrol
  omega

theorem parseStringBody_escaped (s : JsString) (r : List Char) :
    parseStringBody ((quoteBody s).flatMap escapeControl ++ '\x22' :: r) = some (s, r) := by
  fun_induction quoteBody s with
  | case1 => exact parseStringBody_close r
  | case2 u =>
    rw [parseStringBody_unit, parseStringBody_close]
    rfl
  | case3 u w s h ih =>
    rw [Bool.and_eq_true] at h
    rw [List.flatMap_cons, escapeControl_pairChar h.1 h.2, List.append_assoc, List.singleton_append,
      parseStringBody_pairChar h.1 h.2, ih]
    rfl
  | case4 u w s h ih =>
    rw [List.flatMap_append, List.append_assoc, parseStringBody_unit, ih]
    rfl

/-- **A quoted name** is a JSON text of the name. -/
theorem reads_quotedName (name : JsString) : Reads (quotedName name) (.str name) := by
  have hquote : quotedName name = '\x22' :: ((quoteBody name).flatMap escapeControl ++ ['\x22']) := by
    have hmark : escapeControl '\x22' = ['\x22'] := by decide
    rw [quotedName, quote, List.flatMap_cons, List.flatMap_append, List.flatMap_singleton, hmark]
    rfl
  intro n hn r _
  cases n with
  | zero => omega
  | succ n =>
    simp [hquote, parseValue, skipWs_cons (c := '\x22') rfl, parseStringBody_escaped]

/-! ## Lines -/

def Entry.fields (e : Entry) : List (List Char) :=
  [e.kind.text, decimal e.compressed, decimal e.uncompressed, decimal e.method, hex8 e.checksum, quotedName e.name]

theorem plain_fields (e : Entry) : ∀ field ∈ e.fields, Plain field := by
  have hkind : ∀ kind : Kind, Plain kind.text := by
    intro kind
    cases kind <;> decide
  have hdecimal : ∀ n, Plain (decimal n) := plain_toDigits (by decide) (by decide)
  have hhex : ∀ n, Plain (hex8 n) := by
    intro n c hc
    rw [hex8, List.leftpad] at hc
    rcases List.mem_append.mp hc with hc | hc
    · rw [(List.mem_replicate.mp hc).2]
      decide
    · exact plain_toDigits (by decide) (by decide) n c hc
  intro field hfield
  simp only [Entry.fields, List.mem_cons, List.not_mem_nil, or_false] at hfield
  rcases hfield with rfl | rfl | rfl | rfl | rfl | rfl
  · exact hkind _
  · exact hdecimal _
  · exact hdecimal _
  · exact hdecimal _
  · exact hhex _
  · exact plain_quotedName _

/-- **A line** comes apart into its fields. -/
theorem splitOn_line (e : Entry) : e.line.splitOn '\t' = e.fields := by
  refine List.splitOn_intercalate '\t' (fun field hfield htab => ?_) (List.cons_ne_nil _ _)
  exact plain_fields e field hfield _ htab (by decide)

/-- Nothing but its separators is forbidden in a line. -/
theorem eq_tab_of_mem_line {e : Entry} {c : Char} (h : c ∈ e.line) (hc : Forbidden c) : c = '\t' :=
  (Pieces.mem_intercalate h).resolve_right fun ⟨field, hfield, hmem⟩ => plain_fields e field hfield c hmem hc

theorem eq_tab_of_mem_heading {entries : Nat} {line : List Char} (hline : line ∈ heading entries) {c : Char} (h : c ∈ line)
    (hc : Forbidden c) : c = '\t' := by
  have hplain : Plain (("ZIP central-directory listing (metadata only; payloads, local headers and CRC32 are not verified).".toList ++
      "Entries: ".toList ++ "kind\tcompressed-bytes\tuncompressed-bytes\tmethod-id\tclaimed-crc32\tquoted-name".toList).filter
        (· != '\t')) := by decide +kernel
  have hwords := fun c hmem (hc : Forbidden c) => by_contra fun htab : c ≠ '\t' =>
    hplain c (List.mem_filter.mpr ⟨hmem, bne_iff_ne.mpr htab⟩) hc
  simp only [heading, List.mem_cons, List.not_mem_nil, or_false] at hline
  rcases hline with rfl | rfl | rfl
  · exact hwords c (List.mem_append_left _ (List.mem_append_left _ h)) hc
  · rcases List.mem_append.mp h with h | h
    · exact hwords c (List.mem_append_left _ (List.mem_append_right _ h)) hc
    · exact absurd hc (plain_toDigits (by decide) (by decide) entries c h)
  · exact hwords c (List.mem_append_right _ h) hc

/-- **A text** comes apart into its lines; nothing follows the last line feed. -/
theorem splitOn_joinLines {lines : List (List Char)} (h : lines ≠ []) (hlines : ∀ line ∈ lines, '\n' ∉ line) :
    (joinLines lines).splitOn '\n' = lines ++ [[]] := by
  rw [joinLines_eq h]
  clear h
  induction lines with
  | nil => exact List.splitOn_nil '\n'
  | cons line lines ih =>
    rw [List.flatMap_cons, List.append_assoc, List.singleton_append,
      List.splitOn_append_cons_self_of_not_mem (hlines line List.mem_cons_self),
        ih fun l hl => hlines l (List.mem_cons_of_mem line hl)]
    rfl

/-! ## The listing -/

/-- The entries of a directory from one position to another, the first of them with that index. -/
inductive Entries (directory : List UInt8) (directoryOffset : Nat) : Nat → Nat → List Entry → Nat → Prop
  | nil (index pos : Nat) : Entries directory directoryOffset index pos [] pos
  | cons {index pos next stop : Nat} {e : Entry} {es : List Entry}
    (h : entry directory directoryOffset index pos = .ok (e, next))
      (rest : Entries directory directoryOffset (index + 1) next es stop) : Entries directory
        directoryOffset index pos (e :: es) stop

theorem walk_spec {directory : List UInt8} {directoryOffset left index : Nat} {s s' : Progress}
    (h : walk directory directoryOffset left index s = .ok s') : ∃ es,
      Entries directory directoryOffset index s.pos es s'.pos ∧
      es.length = left ∧ s'.lines = s.lines ++ es.map Entry.line := by
  induction left generalizing index s with
  | zero =>
    cases h
    exact ⟨[], .nil _ _, rfl, (List.append_nil _).symm⟩
  | succ left ih =>
    obtain ⟨t, ht, h⟩ := bind_eq_ok.mp h
    obtain ⟨⟨e, next⟩, he, ht⟩ := bind_eq_ok.mp ht
    obtain ⟨_, -, ht⟩ := bind_eq_ok.mp ht
    cases ht
    obtain ⟨es, hes, hlength, hlines⟩ := ih h
    refine ⟨e :: es, .cons he hes, congrArg Nat.succ hlength, ?_⟩
    rw [hlines, List.append_assoc]
    rfl

theorem list_spec {directory : List UInt8} {found : Located} {text : List Char} (h : list directory found = .ok text) :
    ∃ es, Entries directory found.directoryOffset 0 0 es directory.length ∧ es.length = found.entries ∧
      text = joinLines (heading found.entries ++ es.map Entry.line) := by
  obtain ⟨s, hs, h⟩ := bind_eq_ok.mp h
  obtain ⟨_, hpos, h⟩ := bind_eq_ok.mp h
  cases h
  obtain ⟨es, hes, hlength, hlines⟩ := walk_spec hs
  rw [Decidable.not_not.mp (refuse_eq_ok.mp hpos)] at hes
  exact ⟨es, hes, hlength, by rw [hlines]⟩

/-- The directory that the end record describes. -/
def directoryOf (file : List UInt8) (found : Located) : List UInt8 :=
    (file.drop found.directoryOffset).take found.directorySize

theorem zipListing_spec {file : List UInt8} {text : List Char} (h : (zipListing file).result = .ok text) :
    ∃ found, (locate file).result = .ok found ∧ list (directoryOf file found) found = .ok text := by
  rw [zipListing, Traced.result_bind] at h
  obtain ⟨found, hfound, h⟩ := bind_eq_ok.mp h
  rw [Traced.result_bind] at h
  obtain ⟨directory, hdirectory, h⟩ := bind_eq_ok.mp h
  obtain ⟨_, -, hdirectory⟩ := bind_eq_ok.mp hdirectory
  cases hdirectory
  refine ⟨found, hfound, ?_⟩
  rw [directoryOf]
  rw [Nat.add_sub_cancel_left] at h
  exact h

/-- **No row is forged.** The text comes apart into the heading and a row for each entry, a row into six fields, of which the last
is read as the name of its entry, and no other character controls anything. -/
theorem zipListing_rows {file : List UInt8} {text : List Char} (h : (zipListing file).result = .ok text) :
    ∃ found es rows, (locate file).result = .ok found ∧
      Entries (directoryOf file found) found.directoryOffset 0 0 es (directoryOf file found).length ∧
        es.length = found.entries ∧
      text.splitOn '\n' = heading found.entries ++ rows ++ [[]] ∧ (heading found.entries ++ rows).length = found.entries + 3 ∧
      List.Forall₂ (fun row e => ∃ fields literal, row.splitOn '\t' = fields ++ [literal] ∧ (fields ++ [literal]).length = 6 ∧
        parse literal = some (.str e.name)) rows es ∧
      ∀ c ∈ text, Forbidden c → c = '\n' ∨ c = '\t' := by
  obtain ⟨found, hfound, hlist⟩ := zipListing_spec h
  obtain ⟨es, hes, hlength, rfl⟩ := list_spec hlist
  have htabs : ∀ line ∈ heading found.entries ++ es.map Entry.line, ∀ c ∈ line, Forbidden c → c = '\t' := by
    intro line hline c hc hforbidden
    rcases List.mem_append.mp hline with hline | hline
    · exact eq_tab_of_mem_heading hline hc hforbidden
    · obtain ⟨e, -, rfl⟩ := List.mem_map.mp hline
      exact eq_tab_of_mem_line hc hforbidden
  refine ⟨found, es, es.map Entry.line, hfound, hes, hlength, ?_, ?_, ?_, ?_⟩
  · refine splitOn_joinLines (List.cons_ne_nil _ _) fun line hline hbreak => ?_
    exact absurd (htabs line hline '\n' hbreak (by decide)) (by decide)
  · rw [List.length_append, List.length_map, hlength]
    exact Nat.add_comm 3 _
  · rw [List.forall₂_map_left_iff, List.forall₂_same]
    exact fun e _ => ⟨e.fields.dropLast, quotedName e.name, splitOn_line e, rfl, (reads_quotedName e.name).parse⟩
  · intro c hc hforbidden
    rcases List.mem_append.mp hc with hc | hc
    · rcases Pieces.mem_intercalate hc with hbreak | ⟨line, hline, hmem⟩
      · exact .inl hbreak
      · exact .inr (htabs line hline c hmem hforbidden)
    · exact .inl (List.mem_singleton.mp hc)

/-- An archive of one empty file, whose name is a tab. -/
def tabArchive : List UInt8 :=
  [0x50, 0x4b, 3, 4] ++ List.replicate 22 0 ++ [1, 0, 0, 0, 9] ++
    ([0x50, 0x4b, 1, 2] ++ List.replicate 24 0 ++ [1, 0] ++ List.replicate 16 0 ++ [9]) ++
    [0x50, 0x4b, 5, 6, 0, 0, 0, 0, 1, 0, 1, 0, 47, 0, 0, 0, 31, 0, 0, 0, 0, 0]

theorem zipListing_rows_of_tab : ∃ found es rows, (locate tabArchive).result = .ok found ∧
    Entries (directoryOf tabArchive found) found.directoryOffset 0 0 es (directoryOf tabArchive found).length ∧
    es.length = found.entries ∧
    (joinLines (heading 1 ++ [Entry.line ⟨.file, 0, 0, 0, 0, [9]⟩])).splitOn '\n' = heading found.entries ++ rows ++ [[]] ∧
    (heading found.entries ++ rows).length = found.entries + 3 ∧
    List.Forall₂ (fun row e => ∃ fields literal, row.splitOn '\t' = fields ++ [literal] ∧ (fields ++ [literal]).length = 6 ∧
      parse literal = some (.str e.name)) rows es ∧
    ∀ c ∈ joinLines (heading 1 ++ [Entry.line ⟨.file, 0, 0, 0, 0, [9]⟩]), Forbidden c → c = '\n' ∨ c = '\t' :=
  zipListing_rows (by decide +kernel)

end Zip
end MaterialOpenWebui
