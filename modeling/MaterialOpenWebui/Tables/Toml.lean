import MaterialOpenWebui.Tables.TomlReader

/-!
# `Tables.Toml` — exports as TOML (`docs/assets/js/formats.js`)

A record is a table, with one line for each of its properties. Strings are escaped in one way and keys in another: of a key,
the quotes are escaped and the backslashes are not.
-/

namespace MaterialOpenWebui
namespace Tables
open Js JsValue Scan

/-! ## The writer -/

def tomlString (s : JsString) : JsString :=
  js "\"" ++ (replaceUnit 0x09 "\\t" <| replaceUnit CR "\\r" <| replaceUnit LF "\\n" <| replaceUnit quote "\\\"" <|
    replaceUnit backslash "\\\\" s) ++ js "\""

/-- The text that an object becomes. -/
def objectText (ps : List (JsString × JsValue)) : JsString := ofChars ((stringify (.obj ps)).getD [])

mutual

def tomlValue : JsValue → JsString
  | .undefined => js "\"\""
  | .null => js "\"\""
  | .bool true => js "true"
  | .bool false => js "false"
  | .num (.finite d) => ofChars d.toText
  | .num _ => js "\"\""
  | .str s => tomlString s
  | .arr vs => js "[" ++ joinWith (js ", ") (tomlElems vs) ++ js "]"
  | .obj ps => tomlString (objectText ps)

def tomlElems : List JsValue → List JsString
  | [] => []
  | v :: vs => tomlValue v :: tomlElems vs

end

def tomlKey (key : JsString) : JsString :=
  if key ≠ [] ∧ key.all isBare then key else js "\"" ++ replaceUnit quote "\\\"" key ++ js "\""

def tomlCell (cell : JsString × JsValue) : JsString := tomlKey cell.1 ++ js " = " ++ tomlValue cell.2

/-- The lines of a record, with the name of its table. -/
def tomlLines (table : JsString) (row : JsValue) : List JsString :=
  [js "[[" ++ table ++ js "]]"] ++ (entriesOf row).map tomlCell ++ [[]]

def toToml (rows : List JsValue) : JsString := joinWith [LF] (rows.flatMap (tomlLines (js "record")))

/-! ## What it means -/

mutual

/-- What TOML has for a value. -/
def tomlOf : JsValue → Toml
  | .undefined => .string []
  | .null => .string []
  | .bool b => .bool b
  | .num (.finite d) => .number (ofChars d.toText)
  | .num _ => .string []
  | .str s => .string s
  | .arr vs => .array (tomlOfElems vs)
  | .obj ps => .string (objectText ps)

def tomlOfElems : List JsValue → List Toml
  | [] => []
  | v :: vs => tomlOf v :: tomlOfElems vs

end

mutual

/-- The strings that are written for a value. -/
def textsOf : JsValue → List JsString
  | .str s => [s]
  | .arr vs => textsOfElems vs
  | .obj ps => [objectText ps]
  | _ => []

def textsOfElems : List JsValue → List JsString
  | [] => []
  | v :: vs => textsOf v ++ textsOfElems vs

end

/-- What a string may have, as escapes or as it is. -/
def isTextUnit (u : UInt16) : Bool := isTomlUnit u || u == LF || u == CR

/-! ## Strings -/

/-- What is written for a character. -/
def tomlEscape (u : UInt16) : JsString :=
  replaceUnit 0x09 "\\t" <| replaceUnit CR "\\r" <| replaceUnit LF "\\n" <| replaceUnit quote "\\\"" <|
    replaceUnit backslash "\\\\" [u]

def EscapedUnit (u : UInt16) : Prop := u = backslash ∨ u = quote ∨ u = LF ∨ u = CR ∨ u = 0x09

theorem tomlEscape_plain {u : UInt16} (hu : ¬ EscapedUnit u) : tomlEscape u = [u] := by
  unfold EscapedUnit at hu
  push Not at hu
  obtain ⟨hb, hq, hl, hr, ht⟩ := hu
  simp [tomlEscape, replaceUnit, hb, hq, hl, hr, ht]

theorem tomlString_eq (s : JsString) : tomlString s = quote :: (s.flatMap tomlEscape ++ [quote]) := by
  have happend : ∀ s, (replaceUnit 0x09 "\\t" <| replaceUnit CR "\\r" <| replaceUnit LF "\\n" <| replaceUnit quote "\\\"" <|
      replaceUnit backslash "\\\\" s) = s.flatMap tomlEscape := by
    intro s
    induction s with
    | nil => rfl
    | cons u s ih =>
      rw [List.flatMap_cons, ← ih]
      show _ = tomlEscape u ++ _
      unfold tomlEscape
      simp only [replaceUnit, ← List.flatMap_append]
      rfl
  unfold tomlString
  rw [happend]
  rfl

/-- **A string** is read back where it has no control characters but those that are escaped, and refused otherwise. -/
theorem readBasic_escaped (s rest : JsString) : readBasic .plain (s.flatMap tomlEscape ++ quote :: rest) =
    if ∀ u ∈ s, isTextUnit u = true then some (s, rest) else none := by
  induction s with
  | nil => rfl
  | cons u s ih =>
    have hunit : readBasic .plain (tomlEscape u ++ (s.flatMap tomlEscape ++ quote :: rest)) =
        if isTextUnit u then onto [u] (readBasic .plain (s.flatMap tomlEscape ++ quote :: rest)) else none := by
      by_cases hu : EscapedUnit u
      · rcases hu with rfl | rfl | rfl | rfl | rfl <;> rfl
      · rw [tomlEscape_plain hu]
        unfold EscapedUnit at hu
        push Not at hu
        obtain ⟨hb, hq, hl, hr, -⟩ := hu
        rw [List.singleton_append, readBasic, if_neg hq, if_neg hb]
        simp [isTextUnit, hl, hr]
    rw [List.flatMap_cons, List.append_assoc, hunit, ih]
    simp only [List.forall_mem_cons]
    by_cases hu : isTextUnit u = true
    · simp only [hu, true_and, if_true]
      split <;> rfl
    · simp only [hu, false_and, if_false, Bool.false_eq_true]

/-! ## Keys -/

/-- What a key may have. -/
def KeyUnits (key : JsString) : Prop := ∀ u ∈ key, isTomlUnit u = true ∧ u ≠ backslash

theorem replaceUnit_cons (u : UInt16) (text : String) (v : UInt16) (s : JsString) :
    replaceUnit u text (v :: s) = (if v = u then js text else [v]) ++ replaceUnit u text s := rfl

theorem readBasic_key {key : JsString} (hkey : KeyUnits key) (rest : JsString) :
    readBasic .plain (replaceUnit quote "\\\"" key ++ quote :: rest) = some (key, rest) := by
  induction key with
  | nil => rfl
  | cons u key ih =>
    obtain ⟨hu, hb⟩ := hkey u List.mem_cons_self
    have hread := ih fun v hv => hkey v (List.mem_cons_of_mem u hv)
    rw [replaceUnit_cons, List.append_assoc]
    by_cases hq : u = quote
    · subst hq
      show onto [quote] (readBasic .plain (replaceUnit quote "\\\"" key ++ quote :: rest)) = _
      rw [hread]
      rfl
    · rw [if_neg hq, List.singleton_append, readBasic, if_neg hq, if_neg hb, if_pos hu, hread]
      rfl

/-- A text in which no backslash comes before the first quote or line feed. -/
def Shielded (s : JsString) : Prop := ∀ a b, s = a ++ backslash :: b → quote ∈ a ∨ LF ∈ a

theorem Shielded.append {s t : JsString} (hs : Shielded s) (ht : Shielded t) : Shielded (s ++ t) := by
  intro a b h
  rcases List.append_eq_append_iff.mp h with ⟨m, rfl, hm⟩ | ⟨m, hm, hrest⟩
  · rcases ht m b hm with h | h
    · exact .inl (List.mem_append_right s h)
    · exact .inr (List.mem_append_right s h)
  · cases m with
    | nil =>
      rw [List.append_nil] at hm
      subst hm
      rcases ht [] b hrest.symm with h | h <;> exact absurd h List.not_mem_nil
    | cons u m =>
      obtain ⟨rfl, -⟩ := List.cons.inj hrest
      exact hs a m hm

theorem shielded_of_notMem {s : JsString} (hs : backslash ∉ s) : Shielded s := by
  rintro a b rfl
  exact absurd (List.mem_append_right a List.mem_cons_self) hs

theorem shielded_cons {u : UInt16} (hu : u = quote ∨ u = LF) (s : JsString) : Shielded (u :: s) := by
  intro a b h
  cases a with
  | nil =>
    obtain ⟨rfl, -⟩ := List.cons.inj h
    rcases hu with hu | hu <;> exact absurd hu (by decide)
  | cons v a =>
    obtain ⟨rfl, -⟩ := List.cons.inj h
    rcases hu with rfl | rfl
    · exact .inl List.mem_cons_self
    · exact .inr List.mem_cons_self

/-- A string in such a text has no backslash. -/
theorem Shielded.readBasic {s c rest : JsString} (hs : Shielded s)
    (h : readBasic .plain s = some (c, rest)) : backslash ∉ c := by
  induction s generalizing c with
  | nil => cases h
  | cons u s ih =>
    rw [Tables.readBasic] at h
    by_cases hq : u = quote
    · rw [if_pos hq] at h
      cases h
      exact List.not_mem_nil
    · have hb : u ≠ backslash := by
        rintro rfl
        rcases hs [] s rfl with h | h <;> exact absurd h List.not_mem_nil
      rw [if_neg hq, if_neg hb] at h
      by_cases hu : isTomlUnit u = true
      · rw [if_pos hu] at h
        obtain ⟨p, hp, heq⟩ := Option.map_eq_some_iff.mp h
        cases heq
        have hlf : u ≠ LF := by
          rintro rfl
          cases hu
        have hrest : Shielded s := by
          rintro a b rfl
          refine (hs (u :: a) b rfl).imp (fun h => ?_) fun h => ?_
          · exact (List.mem_cons.mp h).resolve_left (Ne.symm hq)
          · exact (List.mem_cons.mp h).resolve_left (Ne.symm hlf)
        exact fun hmem => (List.mem_cons.mp hmem).elim (Ne.symm hb) (ih hrest hp)
      · rw [if_neg hu] at h
        cases h

/-- A key ends with a backslash, and what was read for it does not: the quote at its end was escaped. -/
def Overrun (key c : JsString) : Prop := key.getLast? = some backslash ∧ ∃ w, c.getLast? = some w ∧ w ≠ backslash

theorem Overrun.cons {key c : JsString} (h : Overrun key c) (u : UInt16) (more : JsString) :
    Overrun (u :: key) (more ++ c) := by
  obtain ⟨hkey, w, hc, hw⟩ := h
  refine ⟨?_, w, ?_, hw⟩
  · rw [List.getLast?_cons, hkey]
    rfl
  · rw [List.getLast?_append, hc]
    rfl

/-- What can have been read for a key, or for what is left of it. -/
def Outcome (tail : JsString) : Mode → JsString → JsString → JsString → Prop
  | .plain, key, c, rest => (c = key ∧ rest = tail ∧ KeyUnits key) ∨ c.length < key.length ∨ Overrun key c
  | .escaped, key, c, _ => c.length ≤ key.length ∨ Overrun (backslash :: key) c
  | .hex _ _, key, c, _ => c.length ≤ key.length + 1 ∨ Overrun key c

theorem length_units (c : Char) : (units c).length ≤ 2 := by
  rcases units_spec c with ⟨u, -, h, -⟩ | ⟨hi, lo, -, -, h, -⟩
  · rw [h]
    exact Nat.le_succ 1
  · rw [h]
    exact Nat.le_refl 2

/-- What follows one character more that was read. -/
theorem Outcome.bound {tail key c rest : JsString} (h : Outcome tail .plain key c rest) :
    c.length ≤ key.length ∨ Overrun key c := by
  rcases h with ⟨rfl, -, -⟩ | h | h
  · exact .inl (Nat.le_refl _)
  · exact .inl (Nat.le_of_lt h)
  · exact .inr h

/-- **Misreading.** A key is read as itself, or as less, or beyond its end; the induction is on the key, in each of the modes. -/
theorem misread {tail : JsString} (htail : Shielded tail) (key : JsString) : ∀ (mode : Mode) (c rest : JsString),
    readBasic mode (replaceUnit quote "\\\"" key ++ quote :: tail) = some (c, rest) → Outcome tail mode key c rest := by
  induction key with
  | nil =>
    intro mode c rest h
    cases mode with
    | plain =>
      cases h
      exact .inl ⟨rfl, rfl, List.forall_mem_nil _⟩
    | escaped =>
      have h : onto [quote] (readBasic .plain tail) = some (c, rest) := h
      obtain ⟨p, hp, heq⟩ := Option.map_eq_some_iff.mp h
      cases heq
      refine .inr ⟨rfl, (quote :: p.1).getLast (List.cons_ne_nil _ _), List.getLast?_eq_some_getLast _, fun hw => ?_⟩
      have hmem := List.getLast_mem (List.cons_ne_nil quote p.1)
      rw [hw] at hmem
      exact (List.mem_cons.mp hmem).elim (by decide) (htail.readBasic hp)
    | hex n value => cases n <;> cases h
  | cons u key ih =>
    intro mode c rest h
    rw [replaceUnit_cons, List.append_assoc] at h
    by_cases hq : u = quote
    · subst hq
      cases mode with
      | plain =>
        have h : onto [quote] (readBasic .plain (replaceUnit quote "\\\"" key ++ quote :: tail)) = some (c, rest) := h
        obtain ⟨p, hp, heq⟩ := Option.map_eq_some_iff.mp h
        cases heq
        rcases ih .plain p.1 p.2 hp with ⟨hc, hrest, hkey⟩ | hlt | hover
        · exact .inl ⟨congrArg _ hc, hrest, List.forall_mem_cons.mpr ⟨by decide, hkey⟩⟩
        · exact .inr (.inl (Nat.succ_lt_succ hlt))
        · exact .inr (.inr (hover.cons quote [quote]))
      | escaped =>
        cases h
        exact .inl (Nat.succ_le_succ (Nat.zero_le _))
      | hex n value => cases n <;> cases h
    · rw [if_neg hq, List.singleton_append] at h
      cases mode with
      | plain =>
        rw [readBasic, if_neg hq] at h
        by_cases hb : u = backslash
        · rw [if_pos hb] at h
          rcases ih .escaped c rest h with hle | hover
          · exact .inr (.inl (Nat.lt_succ_of_le hle))
          · exact .inr (.inr (hb ▸ hover))
        · rw [if_neg hb] at h
          by_cases hu : isTomlUnit u = true
          · rw [if_pos hu] at h
            obtain ⟨p, hp, heq⟩ := Option.map_eq_some_iff.mp h
            cases heq
            rcases ih .plain p.1 p.2 hp with ⟨hc, hrest, hkey⟩ | hlt | hover
            · exact .inl ⟨congrArg _ hc, hrest, List.forall_mem_cons.mpr ⟨⟨hu, hb⟩, hkey⟩⟩
            · exact .inr (.inl (Nat.succ_lt_succ hlt))
            · exact .inr (.inr (hover.cons u [u]))
          · rw [if_neg hu] at h
            cases h
      | escaped =>
        rw [readBasic] at h
        split at h
        · exact (ih (.hex 3 0) c rest h).imp id fun hover => (hover.cons u []).cons backslash []
        · split at h
          · exact (ih (.hex 7 0) c rest h).imp id fun hover => (hover.cons u []).cons backslash []
          · obtain ⟨v, -, h⟩ := Option.bind_eq_some_iff.mp h
            obtain ⟨p, hp, heq⟩ := Option.map_eq_some_iff.mp h
            cases heq
            exact (ih .plain p.1 p.2 hp).bound.imp Nat.succ_le_succ fun hover => (hover.cons u [v]).cons backslash []
      | hex n value =>
        cases n with
        | zero =>
          rw [readBasic] at h
          obtain ⟨d, -, h⟩ := Option.bind_eq_some_iff.mp h
          split at h
          · obtain ⟨p, hp, heq⟩ := Option.map_eq_some_iff.mp h
            cases heq
            refine (ih .plain p.1 p.2 hp).bound.imp (fun hle => ?_) fun hover => hover.cons u _
            have hunits := length_units (Char.ofNat (16 * value + d))
            rw [List.length_append, List.length_cons]
            omega
          · cases h
        | succ n =>
          rw [readBasic] at h
          obtain ⟨d, -, h⟩ := Option.bind_eq_some_iff.mp h
          exact (ih (.hex n (16 * value + d)) c rest h).imp (fun hle => Nat.le_succ_of_le hle)
            fun hover => hover.cons u []

/-- **A key in quotes** that is read as itself has no backslash. -/
theorem keyUnits_of_readBasic {tail key rest : JsString} (htail : Shielded tail)
    (h : readBasic .plain (replaceUnit quote "\\\"" key ++ quote :: tail) = some (key, rest)) : KeyUnits key := by
  rcases misread htail key .plain key rest h with ⟨-, -, hkey⟩ | hlt | ⟨hlast, w, hw, hne⟩
  · exact hkey
  · exact absurd hlt (Nat.lt_irrefl _)
  · rw [hlast] at hw
    cases hw
    exact absurd rfl hne

/-! ## Values -/

/-- Every string of a value can be written. -/
def TextsOk (texts : List JsString) : Prop := ∀ s ∈ texts, ∀ u ∈ s, isTextUnit u = true

instance (texts : List JsString) : Decidable (TextsOk texts) :=
    inferInstanceAs (Decidable (∀ s ∈ texts, ∀ u ∈ s, isTextUnit u = true))

theorem mem_toText {d : Decimal} {c : Char} (hc : c ∈ d.toText) : c.isDigit = true ∨ c ∈ ['-', '+', '.', 'e'] := by
  have hnumeral : d.digits ≠ 0 → c ∈ numeral d.parts → c.isDigit = true ∨ c ∈ ['-', '+', '.', 'e'] := by
    intro hd hc
    have hp := partsOf_parts hd
    unfold numeral at hc
    rw [List.mem_append, List.mem_append] at hc
    rcases hc with (hc | hc) | hc
    · exact .inl (hp.intDigits c hc)
    · cases hfrac : d.parts.2.1 with
      | nil =>
        rw [hfrac] at hc
        exact absurd hc List.not_mem_nil
      | cons e ds =>
        rw [hfrac] at hc
        rcases List.mem_cons.mp hc with rfl | hc
        · exact .inr (by decide)
        · exact .inl (hp.fracDigits c (hfrac ▸ hc))
    · cases hexp : d.parts.2.2 with
      | none =>
        rw [hexp] at hc
        exact absurd hc List.not_mem_nil
      | some e =>
        rw [hexp] at hc
        rcases List.mem_cons.mp hc with rfl | hc
        · exact .inr (by decide)
        · rcases List.mem_cons.mp hc with rfl | hc
          · right
            split <;> decide
          · exact .inl (isDigit_toDigits hc)
  unfold Decimal.toText at hc
  split at hc
  · rw [List.mem_singleton.mp hc]
    exact .inl rfl
  · rename_i hd
    split at hc
    · rcases List.mem_cons.mp hc with rfl | hc
      · exact .inr (by decide)
      · exact hnumeral hd hc
    · exact hnumeral hd hc

theorem isTokenUnit_toText {d : Decimal} {u : UInt16} (hu : u ∈ ofChars d.toText) : isTokenUnit u = true := by
  obtain ⟨c, hc, hu⟩ := List.mem_flatMap.mp hu
  rcases mem_toText hc with hdigit | hmark
  · have hrange : 48 ≤ c.toNat ∧ c.toNat ≤ 57 := by
      simp only [Char.isDigit, Bool.and_eq_true, decide_eq_true_eq, ge_iff_le, UInt32.le_iff_toNat_le] at hdigit
      exact hdigit
    have hunits : units c = [UInt16.ofNat c.toNat] := if_pos (by omega)
    rw [hunits, List.mem_singleton] at hu
    have hnat : u.toNat = c.toNat := by
      rw [hu, UInt16.toNat_ofNat']
      exact Nat.mod_eq_of_lt (by omega)
    have hlow : 0x30 ≤ u := UInt16.le_iff_toNat_le.mpr (hnat ▸ hrange.1)
    have hhigh : u ≤ 0x39 := UInt16.le_iff_toNat_le.mpr (hnat ▸ hrange.2)
    simp [isTokenUnit, hlow, hhigh]
  · simp only [List.mem_cons, List.not_mem_nil, or_false] at hmark
    rcases hmark with rfl | rfl | rfl | rfl <;> rw [List.mem_singleton.mp hu] <;> decide

theorem ofToken_toText (d : Decimal) : ofToken (ofChars d.toText) = some (.number (ofChars d.toText)) := by
  have hword : ∀ w : String, (∃ c ∈ w.toList, ¬ (c.isDigit = true ∨ c ∈ ['-', '+', '.', 'e'])) → ofChars d.toText ≠ js w := by
    rintro w ⟨c, hc, hno⟩ h
    have htext : d.toText = w.toList := by
      rw [← scalars_ofChars d.toText, h]
      exact scalars_ofChars _
    rw [← htext] at hc
    exact hno (mem_toText hc)
  unfold ofToken
  rw [if_neg (hword "true" ⟨'t', by decide, by decide⟩), if_neg (hword "false" ⟨'a', by decide, by decide⟩), scalars_ofChars]
  have hnumeral := parseNumeral_toText d stops_nil
  rw [List.append_nil] at hnumeral
  rw [hnumeral]
  rfl

theorem toText_ne_nil (d : Decimal) : ofChars d.toText ≠ [] := by
  intro h
  have hnumeral := parseNumeral_toText d stops_nil
  have htext : d.toText = [] := by
    rw [← scalars_ofChars d.toText, h]
    rfl
  rw [htext] at hnumeral
  cases hnumeral

/-- A token, and what ends it. -/
theorem readValue_token {token rest : JsString} (hne : token ≠ []) (htoken : ∀ u ∈ token, isTokenUnit u = true)
    (hrest : ∀ u ∈ rest.head?, isTokenUnit u = false) (n : Nat) :
    readValue (n + 1) (token ++ rest) = (ofToken token).map fun v => (v, rest) := by
  have htake : (token ++ rest).takeWhile isTokenUnit = token := by
    rw [List.takeWhile_append_of_pos htoken]
    cases rest with
    | nil => exact List.append_nil token
    | cons u rest => rw [List.takeWhile_cons, hrest u rfl, if_neg Bool.false_ne_true, List.append_nil]
  have hdrop : (token ++ rest).dropWhile isTokenUnit = rest := by
    rw [List.dropWhile_append_of_pos htoken]
    cases rest with
    | nil => rfl
    | cons u rest => rw [List.dropWhile_cons, hrest u rfl, if_neg Bool.false_ne_true]
  cases token with
  | nil => exact absurd rfl hne
  | cons u token =>
    have hu := htoken u List.mem_cons_self
    have hquote : u ≠ quote := by
      rintro rfl
      cases hu
    have hbracket : u ≠ 0x5b := by
      rintro rfl
      cases hu
    rw [List.cons_append] at htake hdrop ⊢
    rw [readValue, if_neg hquote, if_neg hbracket, htake, hdrop]

theorem readValue_string (s rest : JsString) (n : Nat) : readValue (n + 1) (tomlString s ++ rest) =
    if TextsOk [s] then some (.string s, rest) else none := by
  have hread := readBasic_escaped s rest
  have htexts : TextsOk [s] ↔ ∀ u ∈ s, isTextUnit u = true := List.forall_mem_singleton
  rw [tomlString_eq, List.cons_append, List.append_assoc, List.singleton_append, readValue, if_pos rfl, hread]
  simp only [htexts]
  split <;> rfl

/-- Values do not begin with a blank, nor as an array ends. -/
theorem head_tomlValue (v : JsValue) : ∃ u t, tomlValue v = u :: t ∧ u ≠ 0x5d ∧ u ≠ 0x20 ∧ u ≠ 0x09 := by
  cases v with
  | undefined => exact ⟨_, _, rfl, by decide⟩
  | null => exact ⟨_, _, rfl, by decide⟩
  | bool b => cases b <;> exact ⟨_, _, rfl, by decide⟩
  | num n =>
    cases n with
    | nan => exact ⟨_, _, rfl, by decide⟩
    | infinity neg => exact ⟨_, _, rfl, by decide⟩
    | finite d =>
      obtain ⟨u, t, h⟩ := List.exists_cons_of_ne_nil (toText_ne_nil d)
      have hu : isTokenUnit u = true := isTokenUnit_toText (h ▸ List.mem_cons_self)
      refine ⟨u, t, h, ?_, ?_, ?_⟩
      all_goals
        rintro rfl
        cases hu
  | str s => exact ⟨_, _, tomlString_eq s, by decide⟩
  | arr vs => exact ⟨_, _, rfl, by decide⟩
  | obj ps => exact ⟨_, _, tomlString_eq _, by decide⟩

theorem skipBlank_tomlValue (v : JsValue) (rest : JsString) : skipBlank (tomlValue v ++ rest) = tomlValue v ++ rest := by
  obtain ⟨u, t, h, -, hspace, htab⟩ := head_tomlValue v
  unfold skipBlank
  rw [h, List.cons_append, List.dropWhile_cons, if_neg (by simp [hspace, htab])]

theorem skipBlank_tomlElems (vs : List JsValue) (rest : JsString) :
    skipBlank (joinWith (js ", ") (tomlElems vs) ++ 0x5d :: rest) = joinWith (js ", ") (tomlElems vs) ++ 0x5d :: rest := by
  cases vs with
  | nil => rfl
  | cons v vs =>
    cases vs with
    | nil => exact skipBlank_tomlValue v _
    | cons w vs =>
      show skipBlank (tomlValue v ++ js ", " ++ joinWith (js ", ") (tomlElems (w :: vs)) ++ 0x5d :: rest) =
        tomlValue v ++ js ", " ++ joinWith (js ", ") (tomlElems (w :: vs)) ++ 0x5d :: rest
      rw [List.append_assoc, List.append_assoc, skipBlank_tomlValue]

/-- What may follow a value. -/
def Stop (rest : JsString) : Prop := ∀ u ∈ rest.head?, isTokenUnit u = false

theorem stop_cons {u : UInt16} (hu : isTokenUnit u = false) (rest : JsString) : Stop (u :: rest) := by
  intro v hv
  cases hv
  exact hu

/-- A value is read back where its strings can be written, and refused otherwise. -/
def ReadsBack (v : JsValue) : Prop := ∀ n rest, (tomlValue v).length ≤ n → Stop rest →
  readValue n (tomlValue v ++ rest) = if TextsOk (textsOf v) then some (tomlOf v, rest) else none

theorem textsOk_append (a b : List JsString) : TextsOk (a ++ b) ↔ TextsOk a ∧ TextsOk b := List.forall_mem_append

/-- The elements of an array, each of which is read back. -/
theorem readElems_tomlElems {vs : List JsValue} (h : ∀ v ∈ vs, ReadsBack v) (n : Nat) (rest : JsString)
    (hn : (joinWith (js ", ") (tomlElems vs)).length < n) :
    readElems n (joinWith (js ", ") (tomlElems vs) ++ 0x5d :: rest) =
      if TextsOk (textsOfElems vs) then some (tomlOfElems vs, rest) else none := by
  induction vs generalizing n with
  | nil =>
    cases n with
    | zero => exact absurd hn (Nat.not_lt_zero _)
    | succ n => rfl
  | cons v vs ih =>
    cases n with
    | zero => exact absurd hn (Nat.not_lt_zero _)
    | succ n =>
      obtain ⟨u, t, hhead, hbracket, -⟩ := head_tomlValue v
      have hv := h v List.mem_cons_self
      have hstart : ∀ more, (tomlValue v ++ more).head? ≠ some 0x5d := by
        intro more hmore
        rw [hhead] at hmore
        exact hbracket (Option.some.inj hmore)
      cases vs with
      | nil =>
        have hread := hv n (0x5d :: rest) (Nat.le_of_lt_succ hn) (stop_cons (by decide) rest)
        show readElems (n + 1) (tomlValue v ++ 0x5d :: rest) = _
        rw [readElems, if_neg (hstart _), hread]
        show _ = if TextsOk (textsOf v ++ []) then _ else _
        rw [List.append_nil]
        split <;> rfl
      | cons v' vs =>
        have hjoin : joinWith (js ", ") (tomlElems (v :: v' :: vs)) = tomlValue v ++ js ", " ++
          joinWith (js ", ") (tomlElems (v' :: vs)) := rfl
        rw [hjoin, List.length_append, List.length_append] at hn
        have hlength : (js ", ").length = 2 := rfl
        have hread := hv n (js ", " ++ (joinWith (js ", ") (tomlElems (v' :: vs)) ++ 0x5d :: rest))
          (by omega) (stop_cons (by decide) _)
        have hrest := ih (fun v hv => h v (List.mem_cons_of_mem _ hv)) n (by omega)
        rw [hjoin, List.append_assoc, List.append_assoc, readElems, if_neg (hstart _), hread]
        show _ = if TextsOk (textsOf v ++ textsOfElems (v' :: vs)) then
          some (tomlOf v :: tomlOfElems (v' :: vs), rest) else none
        simp only [textsOk_append]
        by_cases hok : TextsOk (textsOf v)
        · rw [if_pos hok, Option.bind_some]
          show (readElems n (skipBlank (joinWith (js ", ") (tomlElems (v' :: vs)) ++ 0x5d :: rest))).map
            (fun q => (tomlOf v :: q.1, q.2)) = _
          rw [skipBlank_tomlElems, hrest]
          simp only [hok, true_and]
          split <;> rfl
        · rw [if_neg hok, if_neg fun h => hok h.1]
          rfl

/-- **A value** of any kind. -/
theorem readValue_tomlValue (v : JsValue) : ReadsBack v := by
  have hempty : ∀ n rest, 2 ≤ n → readValue n (js "\"\"" ++ rest) = some (.string [], rest) := by
    intro n rest hn
    obtain ⟨m, rfl⟩ : ∃ m, n = m + 1 := ⟨n - 1, by omega⟩
    rfl
  induction v with
  | undefined => exact fun n rest hn _ => hempty n rest hn
  | null => exact fun n rest hn _ => hempty n rest hn
  | bool b =>
    intro n rest hn hrest
    obtain ⟨m, rfl⟩ : ∃ m, n = m + 1 := by
      refine ⟨n - 1, ?_⟩
      have : 1 ≤ (tomlValue (.bool b)).length := by cases b <;> decide
      omega
    cases b with
    | true => exact readValue_token (by decide) (by decide) hrest m
    | false => exact readValue_token (by decide) (by decide) hrest m
  | num k =>
    cases k with
    | nan => exact fun n rest hn _ => hempty n rest hn
    | infinity neg => exact fun n rest hn _ => hempty n rest hn
    | finite d =>
      intro n rest hn hrest
      have hpos : 0 < (ofChars d.toText).length := List.length_pos_iff.mpr (toText_ne_nil d)
      have hn : (ofChars d.toText).length ≤ n := hn
      obtain ⟨m, rfl⟩ : ∃ m, n = m + 1 := ⟨n - 1, by omega⟩
      show readValue (m + 1) (ofChars d.toText ++ rest) = some (.number (ofChars d.toText), rest)
      rw [readValue_token (toText_ne_nil d) (fun u hu => isTokenUnit_toText hu) hrest m, ofToken_toText]
      rfl
  | str s =>
    intro n rest hn _
    have hn : (tomlString s).length ≤ n := hn
    rw [tomlString_eq] at hn
    obtain ⟨m, rfl⟩ : ∃ m, n = m + 1 := ⟨n - 1, by rw [List.length_cons] at hn; omega⟩
    exact readValue_string s rest m
  | arr vs ih =>
    intro n rest hn _
    have hn : ((js "[" ++ joinWith (js ", ") (tomlElems vs)) ++ js "]").length ≤ n := hn
    have hone : (js "[").length = 1 ∧ (js "]").length = 1 := ⟨rfl, rfl⟩
    rw [List.length_append, List.length_append] at hn
    obtain ⟨m, rfl⟩ : ∃ m, n = m + 1 := ⟨n - 1, by omega⟩
    have htext : tomlValue (.arr vs) ++ rest = 0x5b :: (joinWith (js ", ") (tomlElems vs) ++ 0x5d :: rest) := by
      show (js "[" ++ joinWith (js ", ") (tomlElems vs)) ++ js "]" ++ rest = _
      rw [List.append_assoc, List.append_assoc]
      rfl
    rw [htext, readValue, if_neg (by decide), if_pos rfl, skipBlank_tomlElems, readElems_tomlElems ih m rest (by omega)]
    show _ = if TextsOk (textsOfElems vs) then some (Toml.array (tomlOfElems vs), rest) else none
    split <;> rfl
  | obj ps =>
    intro n rest hn _
    have hn : (tomlString (objectText ps)).length ≤ n := hn
    rw [tomlString_eq] at hn
    obtain ⟨m, rfl⟩ : ∃ m, n = m + 1 := ⟨n - 1, by rw [List.length_cons] at hn; omega⟩
    exact readValue_string (objectText ps) rest m

end Tables
end MaterialOpenWebui
