import MaterialOpenWebui.Py.Json

/-!
# `Py.JsonRoundTrip` — `json.loads(json.dumps(v))` is `v`

`loads_dumps` is the round trip of every JSON value. `Reads t v` (text `t` is read as `v`, whatever follows and with any
fuel beyond its length) is the shape of the induction; lists and dictionaries need it of the texts between their commas
only.
-/

namespace Py

/-! ## Code points by number -/

theorem CodePoint.toNat_inj {c d : CodePoint} (h : c.toNat = d.toNat) : c = d := by
  obtain ⟨c, hc⟩ := c
  obtain ⟨d, hd⟩ := d
  have hval : c = d := UInt32.toNat.inj h
  subst hval
  rfl

theorem CodePoint.toNat_lt (c : CodePoint) : c.toNat < 0x110000 := c.valid

theorem CodePoint.toNat_ofNat {n : Nat} (h : n < 0x110000) : (CodePoint.ofNat n).toNat = n := by
  rw [CodePoint.ofNat, dif_pos h]
  exact UInt32.toNat_ofNat_of_lt' (by show n < 2 ^ 32; omega)

theorem CodePoint.ofNat_toNat (c : CodePoint) : CodePoint.ofNat c.toNat = c :=
  CodePoint.toNat_inj (CodePoint.toNat_ofNat c.toNat_lt)

theorem CodePoint.isHigh_iff {c : CodePoint} : c.isHigh = true ↔ 0xd800 ≤ c.toNat ∧ c.toNat < 0xdc00 := by
  rw [isHigh, Bool.and_eq_true, decide_eq_true_iff, decide_eq_true_iff]

theorem CodePoint.isLow_iff {c : CodePoint} : c.isLow = true ↔ 0xdc00 ≤ c.toNat ∧ c.toNat < 0xe000 := by
  rw [isLow, Bool.and_eq_true, decide_eq_true_iff, decide_eq_true_iff]

/-! ## String literals -/

theorem hexValue_digitChar : ∀ d < 16, hexValue (ofChar d.digitChar) = some d := by decide

/-- The four digits of an escape are read back as the code unit. -/
theorem hexUnit_digits {n : Nat} (h : n < 0x10000) :
    hexUnit (ofChar (n / 4096 % 16).digitChar) (ofChar (n / 256 % 16).digitChar) (ofChar (n / 16 % 16).digitChar)
      (ofChar (n % 16).digitChar) = some (.ofNat n) := by
  have hlt : ∀ m, m % 16 < 16 := fun m => Nat.mod_lt m (by decide)
  have hsum : n / 4096 % 16 * 4096 + n / 256 % 16 * 256 + n / 16 % 16 * 16 + n % 16 = n := by omega
  rw [hexUnit, hexValue_digitChar _ (hlt _), hexValue_digitChar _ (hlt _), hexValue_digitChar _ (hlt _),
    hexValue_digitChar _ (hlt _)]
  show some (CodePoint.ofNat _) = _
  rw [hsum]

theorem scanUnits_unicodeEscape {n : Nat} (h : n < 0x10000) (r : Str) :
    scanUnits (unicodeEscape n ++ r) = (scanUnits r).map fun p => ((.ofNat n, true) :: p.1, p.2) := by
  have hunit := hexUnit_digits h
  show scanUnits (ofChar '\x5c' :: ofChar 'u' :: _ :: _ :: _ :: _ :: r) = _
  rw [scanUnits, if_neg (by decide), if_pos rfl, if_pos rfl, hunit]

/-- The letter of an escape is read back. -/
theorem letterEscape?_escapeLetter? {c e : CodePoint} (h : escapeLetter? c = some e) :
    e ≠ ofChar 'u' ∧ letterEscape? e = some c := by
  unfold escapeLetter? at h
  split_ifs at h with h₁ h₂ h₃ h₄ h₅ h₆ h₇
  all_goals
    cases h
    subst c
    decide

theorem scanUnits_letter {c e : CodePoint} (h : escapeLetter? c = some e) (r : Str) :
    scanUnits (ofChar '\x5c' :: e :: r) = (scanUnits r).map fun p => ((c, false) :: p.1, p.2) := by
  obtain ⟨hu, he⟩ := letterEscape?_escapeLetter? h
  rw [scanUnits.eq_def]
  show (if ofChar '\x5c' = ofChar '\x22' then _ else if ofChar '\x5c' = ofChar '\x5c' then _ else _) = _
  rw [if_neg (by decide), if_pos rfl]
  show (if e = ofChar 'u' then _ else _) = _
  rw [if_neg hu, he]

/-- What is written without an escape. -/
theorem scanUnits_plain {c : CodePoint} (h : escapeLetter? c = none) (hprintable : 0x20 ≤ c.toNat) (r : Str) :
    scanUnits (c :: r) = (scanUnits r).map fun p => ((c, false) :: p.1, p.2) := by
  have hquote : c ≠ ofChar '\x22' := by
    rintro rfl
    revert h
    decide
  have hback : c ≠ ofChar '\x5c' := by
    rintro rfl
    revert h
    decide
  rw [scanUnits.eq_def]
  simp only [if_neg hquote, if_neg hback, if_neg (Nat.not_lt.mpr hprintable)]

/-- Whether a character of the basic plane is written as the escape of a code unit. -/
def isEscaped (c : CodePoint) : Bool :=
  (escapeLetter? c).isNone && !(decide (0x20 ≤ c.toNat) && decide (c.toNat ≤ 0x7e))

/-- What a character is read as. -/
def unitsOf (c : CodePoint) : List (CodePoint × Bool) :=
  if c.toNat < 0x10000 then [(c, isEscaped c)]
  else [(.ofNat (highOf c.toNat), true), (.ofNat (lowOf c.toNat), true)]

/-- **One character.** However it is written, reading takes exactly that. -/
theorem scanUnits_escapeChar (c : CodePoint) (r : Str) :
    scanUnits (escapeChar c ++ r) = (scanUnits r).map fun p => (unitsOf c ++ p.1, p.2) := by
  have hlt := c.toNat_lt
  unfold escapeChar
  cases hletter : escapeLetter? c with
  | some e =>
    have hsmall : c.toNat < 0x10000 := by
      unfold escapeLetter? at hletter
      split_ifs at hletter
      all_goals
        subst c
        decide
    have hunits : unitsOf c = [(c, false)] := by
      rw [unitsOf, if_pos hsmall, isEscaped, hletter]
      rfl
    rw [hunits]
    exact scanUnits_letter hletter r
  | none =>
    show scanUnits ((if 0x20 ≤ c.toNat ∧ c.toNat ≤ 0x7e then _ else _) ++ r) = _
    by_cases hprintable : 0x20 ≤ c.toNat ∧ c.toNat ≤ 0x7e
    · have hunits : unitsOf c = [(c, false)] := by
        rw [unitsOf, if_pos (by omega), isEscaped, decide_eq_true hprintable.1, decide_eq_true hprintable.2,
          Bool.and_true, Bool.not_true, Bool.and_false]
      rw [if_pos hprintable, hunits]
      exact scanUnits_plain hletter hprintable.1 r
    · rw [if_neg hprintable]
      by_cases hsmall : c.toNat < 0x10000
      · have hescaped : (decide (0x20 ≤ c.toNat) && decide (c.toNat ≤ 0x7e)) = false := by
          rw [Bool.and_eq_false_iff, decide_eq_false_iff_not, decide_eq_false_iff_not]
          exact not_and_or.mp hprintable
        have hunits : unitsOf c = [(c, true)] := by
          rw [unitsOf, if_pos hsmall, isEscaped, hletter, hescaped]
          rfl
        rw [if_pos hsmall, scanUnits_unicodeEscape hsmall, CodePoint.ofNat_toNat, hunits]
        rfl
      · have hhigh : highOf c.toNat < 0x10000 := by
          rw [highOf]
          omega
        have hlow : lowOf c.toNat < 0x10000 := by
          rw [lowOf]
          omega
        have hunits : unitsOf c = [(.ofNat (highOf c.toNat), true), (.ofNat (lowOf c.toNat), true)] :=
          if_neg hsmall
        rw [if_neg hsmall, List.append_assoc, scanUnits_unicodeEscape hhigh, scanUnits_unicodeEscape hlow,
          Option.map_map, hunits]
        rfl

theorem scanUnits_flatMap (s r : Str) :
    scanUnits (s.flatMap escapeChar ++ ofChar '\x22' :: r) = some (s.flatMap unitsOf, r) := by
  induction s with
  | nil =>
    show scanUnits (ofChar '\x22' :: r) = some ([], r)
    rw [scanUnits.eq_def]
    exact if_pos rfl
  | cons c s ih =>
    rw [List.flatMap_cons, List.append_assoc, scanUnits_escapeChar, ih]
    rfl

/-! ## Surrogates -/

theorem isHigh_highOf {c : CodePoint} (h : ¬c.toNat < 0x10000) :
    (CodePoint.ofNat (highOf c.toNat)).isHigh = true ∧ (CodePoint.ofNat (highOf c.toNat)).isLow = false := by
  have hlt := c.toNat_lt
  have hhigh : 0xd800 ≤ highOf c.toNat ∧ highOf c.toNat < 0xdc00 := by
    rw [highOf]
    omega
  have hnat : (CodePoint.ofNat (highOf c.toNat)).toNat = highOf c.toNat := CodePoint.toNat_ofNat (by omega)
  constructor
  · rw [CodePoint.isHigh_iff, hnat]
    exact hhigh
  · rw [← Bool.not_eq_true, CodePoint.isLow_iff, hnat]
    omega

theorem isLow_lowOf (c : CodePoint) : (CodePoint.ofNat (lowOf c.toNat)).isLow = true := by
  have hlow : 0xdc00 ≤ lowOf c.toNat ∧ lowOf c.toNat < 0xe000 := by
    rw [lowOf]
    omega
  rw [CodePoint.isLow_iff, CodePoint.toNat_ofNat (by omega)]
  exact hlow

/-- The two surrogates of a character stand for it. -/
theorem pairOf_highOf_lowOf {c : CodePoint} (h : ¬c.toNat < 0x10000) :
    pairOf (.ofNat (highOf c.toNat)) (.ofNat (lowOf c.toNat)) = c := by
  have hlt := c.toNat_lt
  have hsum : 0x10000 + (highOf c.toNat - 0xd800) * 0x400 + (lowOf c.toNat - 0xdc00) = c.toNat := by
    rw [highOf, lowOf]
    omega
  have hhigh : highOf c.toNat < 0x110000 := by
    rw [highOf]
    omega
  have hlow : lowOf c.toNat < 0x110000 := by
    rw [lowOf]
    omega
  rw [pairOf, CodePoint.toNat_ofNat hhigh, CodePoint.toNat_ofNat hlow, hsum, CodePoint.ofNat_toNat]

/-- The first unit of a text is low only if its first character is. -/
theorem isLow_head_units {s : Str} {w : CodePoint × Bool} {us : List (CodePoint × Bool)}
    (h : s.flatMap unitsOf = w :: us) (hlow : w.1.isLow = true) : ∃ c ∈ s.head?, c.isLow = true := by
  cases s with
  | nil => cases h
  | cons c s =>
    refine ⟨c, rfl, ?_⟩
    rw [List.flatMap_cons, unitsOf] at h
    by_cases hsmall : c.toNat < 0x10000
    · rw [if_pos hsmall] at h
      cases h
      exact hlow
    · rw [if_neg hsmall] at h
      cases h
      rw [(isHigh_highOf hsmall).2] at hlow
      cases hlow

/-- A unit stays alone when no pair begins with it. -/
theorem combine_cons {u : CodePoint × Bool} {us : List (CodePoint × Bool)}
    (h : ∀ w ∈ us.head?, ¬(u.1.isHigh = true ∧ w.1.isLow = true)) : combine (u :: us) = u.1 :: combine us := by
  cases us with
  | nil => rfl
  | cons w us =>
    have hpair : (u.2 && w.2 && u.1.isHigh && w.1.isLow) = false := by
      rw [Bool.and_assoc, Bool.and_eq_false_iff]
      right
      rw [← Bool.not_eq_true, Bool.and_eq_true]
      exact h w rfl
    rw [combine, hpair]
    rfl

/-- **The characters of a literal.** The code units that are read make up the text. -/
theorem combine_units {s : Str} (h : Joined s) : combine (s.flatMap unitsOf) = s := by
  induction s with
  | nil => rfl
  | cons c s ih =>
    have hrest : combine (s.flatMap unitsOf) = s := ih h.of_cons
    rw [List.flatMap_cons, unitsOf]
    by_cases hsmall : c.toNat < 0x10000
    · rw [if_pos hsmall, List.singleton_append, combine_cons, hrest]
      intro w hw hboth
      cases hunits : s.flatMap unitsOf with
      | nil =>
        rw [hunits] at hw
        cases hw
      | cons w' us =>
        rw [hunits] at hw
        cases hw
        obtain ⟨d, hd, hlow⟩ := isLow_head_units hunits hboth.2
        cases s with
        | nil => cases hd
        | cons d' s =>
          cases hd
          exact (List.isChain_cons_cons.mp h).1 ⟨hboth.1, hlow⟩
    · rw [if_neg hsmall]
      show combine ((CodePoint.ofNat (highOf c.toNat), true) :: (CodePoint.ofNat (lowOf c.toNat), true)
        :: s.flatMap unitsOf) = _
      rw [combine, (isHigh_highOf hsmall).1, isLow_lowOf, hrest, pairOf_highOf_lowOf hsmall]
      rfl

/-- **A string literal is read back.** -/
theorem scanString_encodeString {s : Str} (h : Joined s) (r : Str) :
    scanString (s.flatMap escapeChar ++ ofChar '\x22' :: r) = some (s, r) := by
  rw [scanString, scanUnits_flatMap]
  show some (combine (s.flatMap unitsOf), r) = _
  rw [combine_units h]

/-! ## Heads: what a written value begins with -/

/-- The text begins with neither white space nor a closing bracket or brace. -/
def Opens (t : Str) : Prop :=
  ∃ c cs, t = c :: cs ∧ isWs c = false ∧ c ≠ ofChar ']' ∧ c ≠ ofChar '}'

theorem opens_of_digit {c : CodePoint} (h : c.isDigit = true) (cs : Str) : Opens (c :: cs) := by
  refine ⟨c, cs, rfl, ?_, ?_, ?_⟩
  · rw [← Bool.not_eq_true]
    intro hws
    rw [isWs, Bool.or_eq_true, Bool.or_eq_true, Bool.or_eq_true, decide_eq_true_iff, decide_eq_true_iff,
      decide_eq_true_iff, decide_eq_true_iff] at hws
    rcases hws with ((rfl | rfl) | rfl) | rfl <;> exact absurd h (by decide)
  · rintro rfl
    exact absurd h (by decide)
  · rintro rfl
    exact absurd h (by decide)

/-- The characters that a value other than a number begins with. -/
theorem opens_of_start {c : CodePoint} (h : c ∈ py "ntf-[\"" ∨ c = ofChar '{') (cs : Str) : Opens (c :: cs) := by
  have hall : ∀ d ∈ ofChar '{' :: py "ntf-[\"", isWs d = false ∧ d ≠ ofChar ']' ∧ d ≠ ofChar '}' := by decide
  exact ⟨c, cs, rfl, hall c (List.mem_cons.mpr h.symm)⟩

theorem opens_numeral {n : Numeral} (h : n.Valid) : Opens n.text := by
  obtain ⟨c, cs, htext, hdigit | hsign⟩ := head_text h
  · rw [htext]
    exact opens_of_digit hdigit cs
  · rw [htext, hsign]
    exact opens_of_start (Or.inl (by decide)) cs

theorem opens_dumps (fl : Floats) (v : Val) : Opens (dumps fl v) := by
  cases v with
  | none => exact opens_of_start (Or.inl (by decide)) _
  | bool b =>
    cases b with
    | true => exact opens_of_start (Or.inl (by decide)) _
    | false => exact opens_of_start (Or.inl (by decide)) _
  | int n => exact opens_numeral (valid_intNumeral n)
  | float x => exact opens_numeral (fl.valid x)
  | str s => exact opens_of_start (Or.inl (by decide)) _
  | list vs => exact opens_of_start (Or.inl (by decide)) _
  | dict items => exact opens_of_start (Or.inr rfl) _

theorem skipWs_opens {t : Str} (h : Opens t) (r : Str) : skipWs (t ++ r) = t ++ r := by
  obtain ⟨c, cs, rfl, hc, -, -⟩ := h
  exact List.dropWhile_cons_of_neg (by rw [hc]; exact Bool.false_ne_true)

theorem skipWs_cons {c : CodePoint} (h : isWs c = false) (r : Str) : skipWs (c :: r) = c :: r :=
  List.dropWhile_cons_of_neg (by rw [h]; exact Bool.false_ne_true)

/-- One blank before what opens. -/
theorem skipWs_blank {t : Str} (h : Opens t) (r : Str) : skipWs (ofChar ' ' :: (t ++ r)) = t ++ r := by
  rw [skipWs, List.dropWhile_cons_of_pos rfl]
  exact skipWs_opens h r

/-! ## Reading one value -/

/-- `t` is read as `v`, whatever follows it and with any fuel beyond its length. -/
def Reads (fl : Floats) (t : Str) (v : Val) : Prop :=
  ∀ n, t.length < n → ∀ r, Stops r → scanValue fl n (t ++ r) = some (v, r)

/-- What a value is followed by. -/
theorem stops_cons {c : CodePoint} (h : c ∈ [ofChar ',', ofChar ']', ofChar '}']) (r : Str) : Stops (c :: r) := by
  have hall : ∀ d ∈ [ofChar ',', ofChar ']', ofChar '}'],
      d.isDigit = false ∧ d ≠ ofChar '.' ∧ d ≠ ofChar 'e' ∧ d ≠ ofChar 'E' := by decide
  intro d hd
  cases hd
  exact hall c h

/-- What begins none of the composite values is an atom. -/
theorem scanValue_atom (fl : Floats) {n : Nat} {c : CodePoint} (hquote : c ≠ ofChar '\x22') (hbracket : c ≠ ofChar '[')
    (hbrace : c ≠ ofChar '{') (r : Str) : scanValue fl (n + 1) (c :: r) = scanAtom fl (c :: r) := by
  rw [scanValue, if_neg hquote, if_neg hbracket, if_neg hbrace]

theorem reads_atom {fl : Floats} {c : CodePoint} {cs : Str} {v : Val}
    (hc : c ≠ ofChar '\x22' ∧ c ≠ ofChar '[' ∧ c ≠ ofChar '{')
    (h : ∀ r, Stops r → scanAtom fl (c :: cs ++ r) = some (v, r)) : Reads fl (c :: cs) v := by
  intro n hn r hr
  cases n with
  | zero => exact absurd hn (Nat.not_lt_zero _)
  | succ n => exact (scanValue_atom fl hc.1 hc.2.1 hc.2.2 (cs ++ r)).trans (h r hr)

theorem reads_none (fl : Floats) : Reads fl (py "null") .none :=
  reads_atom (by decide) fun _ _ => rfl

theorem reads_bool (fl : Floats) (b : Bool) : Reads fl (dumps fl (.bool b)) (.bool b) := by
  cases b with
  | true => exact reads_atom (by decide) fun _ _ => rfl
  | false => exact reads_atom (by decide) fun _ _ => rfl

/-- A text that begins otherwise does not begin with the literal. -/
theorem literal?_of_ne {c d : CodePoint} (h : c ≠ d) (t r : Str) : literal? (d :: t) (c :: r) = none := by
  refine if_neg ?_
  intro heq
  rw [List.length_cons, List.take_succ_cons] at heq
  exact h (List.cons.inj heq).1

/-- What a number begins with begins nothing else. -/
theorem numeral_head_ne {c : CodePoint} (h : c.isDigit = true ∨ c = ofChar '-') :
    ∀ d ∈ py "ntf[\"" ++ [ofChar '{'], c ≠ d := by
  have hall : ∀ d ∈ py "ntf[\"" ++ [ofChar '{'], d.isDigit = false ∧ d ≠ ofChar '-' := by decide
  rintro d hd rfl
  rcases h with hdigit | hsign
  · rw [(hall c hd).1] at hdigit
    cases hdigit
  · exact (hall c hd).2 hsign

/-- **A number is read back.** -/
theorem reads_numeral {fl : Floats} {n : Numeral} (h : n.Valid) : Reads fl n.text (numeralValue fl n) := by
  obtain ⟨c, cs, htext, hhead⟩ := head_text h
  have hne := numeral_head_ne hhead
  have hread : Reads fl (c :: cs) (numeralValue fl n) := by
    refine reads_atom ⟨hne _ (by decide), hne _ (by decide), hne _ (by decide)⟩ ?_
    intro r hr
    have hscan := scanNumeral_text h hr
    rw [htext] at hscan
    have hnull : literal? (py "null") (c :: (cs ++ r)) = none := literal?_of_ne (hne _ (by decide)) _ _
    have htrue : literal? (py "true") (c :: (cs ++ r)) = none := literal?_of_ne (hne _ (by decide)) _ _
    have hfalse : literal? (py "false") (c :: (cs ++ r)) = none := literal?_of_ne (hne _ (by decide)) _ _
    show scanAtom fl (c :: (cs ++ r)) = _
    rw [scanAtom, hnull, htrue, hfalse]
    show (scanNumeral (c :: cs ++ r)).map _ = _
    rw [hscan]
    rfl
  rw [htext]
  exact hread

theorem reads_int (fl : Floats) (n : Int) : Reads fl (dumps fl (.int n)) (.int n) := by
  have hread : Reads fl (intNumeral n).text (numeralValue fl (intNumeral n)) := reads_numeral (valid_intNumeral n)
  have hvalue : numeralValue fl (intNumeral n) = .int n := by
    have hint : (intNumeral n).isInt = true := rfl
    rw [numeralValue, if_pos hint, toInt_intNumeral]
  rw [hvalue] at hread
  exact hread

theorem reads_float {fl : Floats} {x : Rat} (h : fl.round x = x) : Reads fl (dumps fl (.float x)) (.float x) := by
  have hread : Reads fl (fl.repr x).text (numeralValue fl (fl.repr x)) := reads_numeral (fl.valid x)
  have hvalue : numeralValue fl (fl.repr x) = .float x := by
    rw [numeralValue, fl.isInt x, if_neg Bool.false_ne_true, fl.round_repr x h]
  rw [hvalue] at hread
  exact hread

theorem reads_str {fl : Floats} {s : Str} (h : Joined s) : Reads fl (encodeString s) (.str s) := by
  intro n hn r hr
  cases n with
  | zero => exact absurd hn (Nat.not_lt_zero _)
  | succ n =>
    have hscan := scanString_encodeString h r
    rw [encodeString, List.cons_append, List.append_assoc, List.singleton_append, scanValue, if_pos rfl, hscan]
    rfl

/-! ## Reading a list -/

theorem commaJoin_cons {ts : List Str} (h : ts ≠ []) (t : Str) :
    commaJoin (t :: ts) = t ++ ofChar ',' :: ofChar ' ' :: commaJoin ts := by
  cases ts with
  | nil => exact absurd rfl h
  | cons t' ts => rfl

theorem opens_append {t : Str} (h : Opens t) (r : Str) : Opens (t ++ r) := by
  obtain ⟨c, cs, rfl, hc⟩ := h
  exact ⟨c, cs ++ r, rfl, hc⟩

theorem opens_commaJoin {ts : List Str} (hne : ts ≠ []) (h : ∀ t ∈ ts, Opens t) : Opens (commaJoin ts) := by
  cases ts with
  | nil => exact absurd rfl hne
  | cons t ts =>
    have hopens : Opens t := h t List.mem_cons_self
    by_cases hts : ts = []
    · subst hts
      exact hopens
    · rw [commaJoin_cons hts]
      exact opens_append hopens _

/-- Elements that are read one by one are read as a list, given fuel for the joined text. -/
theorem scanElems_commaJoin {fl : Floats} {ts : List Str} {vs : List Val} (h : List.Forall₂ (Reads fl) ts vs)
    (hopens : ∀ t ∈ ts, Opens t) (hne : ts ≠ []) :
    ∀ n, (commaJoin ts).length + 1 < n → ∀ r, scanElems fl n (commaJoin ts ++ ofChar ']' :: r) = some (vs, r) := by
  induction h with
  | nil => exact absurd rfl hne
  | @cons t v ts vs hread hrest ih =>
    intro n hn r
    cases n with
    | zero => exact absurd hn (Nat.not_lt_zero _)
    | succ n =>
      by_cases hts : ts = []
      · subst hts
        cases hrest
        have hlength : t.length < n := by
          have htext : (commaJoin [t]).length = t.length := rfl
          omega
        have hv := hread n hlength (ofChar ']' :: r) (stops_cons (by decide) r)
        show scanElems fl (n + 1) (t ++ ofChar ']' :: r) = _
        rw [scanElems, hv]
        dsimp only
        rw [skipWs_cons (by decide)]
        dsimp only
        rw [if_neg (by decide), if_pos rfl]
      · have hopensrest : Opens (commaJoin ts) := opens_commaJoin hts fun t ht => hopens t (List.mem_cons_of_mem _ ht)
        rw [commaJoin_cons hts] at hn ⊢
        rw [List.length_append, List.length_cons, List.length_cons] at hn
        have hv := hread n (by omega) (ofChar ',' :: ofChar ' ' :: (commaJoin ts ++ ofChar ']' :: r))
          (stops_cons (by decide) _)
        have hvs := ih (fun t ht => hopens t (List.mem_cons_of_mem _ ht)) hts n (by omega) r
        rw [List.append_assoc, List.cons_append, List.cons_append, scanElems, hv]
        dsimp only
        rw [skipWs_cons (by decide)]
        dsimp only
        rw [if_pos rfl, skipWs_blank hopensrest, hvs]
        rfl

/-- What opens is no closing bracket. -/
theorem head?_ne_of_opens {t : Str} (h : Opens t) (r : Str) :
    (t ++ r).head? ≠ some (ofChar ']') ∧ (t ++ r).head? ≠ some (ofChar '}') := by
  obtain ⟨c, cs, rfl, -, hbracket, hbrace⟩ := h
  exact ⟨fun heq => hbracket (Option.some.inj heq), fun heq => hbrace (Option.some.inj heq)⟩

/-- **A list is read back** when its elements are. -/
theorem reads_list {fl : Floats} {ts : List Str} {vs : List Val} (h : List.Forall₂ (Reads fl) ts vs)
    (hopens : ∀ t ∈ ts, Opens t) : Reads fl (ofChar '[' :: (commaJoin ts ++ [ofChar ']'])) (.list vs) := by
  intro n hn r hr
  cases n with
  | zero => exact absurd hn (Nat.not_lt_zero _)
  | succ n =>
    rw [List.cons_append, List.append_assoc, List.singleton_append, scanValue, if_neg (by decide), if_pos rfl]
    by_cases hts : ts = []
    · subst hts
      cases h
      rfl
    · have hopensall : Opens (commaJoin ts) := opens_commaJoin hts hopens
      have hlength : (commaJoin ts).length + 1 < n := by
        rw [List.length_cons, List.length_append, List.length_singleton] at hn
        omega
      rw [skipWs_opens hopensall, if_neg (head?_ne_of_opens hopensall _).1,
        scanElems_commaJoin h hopens hts n hlength r]
      rfl

/-! ## Reading a dictionary -/

/-- `t` is the text of an item, and its value is read back. -/
def ItemReads (fl : Floats) (t : Str) (p : Str × Val) : Prop :=
  ∃ t', t = itemText p.1 t' ∧ Joined p.1 ∧ Opens t' ∧ Reads fl t' p.2

theorem opens_itemText (k t : Str) : Opens (itemText k t) := opens_of_start (Or.inl (by decide)) _

/-- The key and the value of an item are read, and what follows is left. -/
theorem scanItems_item {fl : Floats} {t : Str} {p : Str × Val} (h : ItemReads fl t p) {n : Nat} (hn : t.length < n)
    {r : Str} (hr : Stops r) {d : CodePoint} {r' : Str} (hskip : skipWs r = d :: r') :
    scanItems fl (n + 1) (t ++ r) =
      if d = ofChar ',' then (scanItems fl n (skipWs r')).map fun q => (p :: q.1, q.2)
      else if d = ofChar '}' then some ([p], r')
      else none := by
  obtain ⟨t', rfl, hjoined, hopens, hread⟩ := h
  obtain ⟨k, v⟩ := p
  have hlength : t'.length < n := by
    rw [itemText, List.length_append, List.length_cons, List.length_cons] at hn
    omega
  have hkey := scanString_encodeString hjoined (ofChar ':' :: ofChar ' ' :: (t' ++ r))
  have hv := hread n hlength r hr
  rw [itemText, encodeString, List.cons_append, List.cons_append, List.append_assoc, List.append_assoc,
    List.singleton_append, List.cons_append, List.cons_append, scanItems, if_pos rfl, hkey]
  dsimp only
  rw [skipWs_cons (by decide)]
  dsimp only
  rw [if_pos rfl, skipWs_blank hopens, hv]
  dsimp only
  rw [hskip]

theorem scanItems_commaJoin {fl : Floats} {ts : List Str} {items : List (Str × Val)}
    (h : List.Forall₂ (ItemReads fl) ts items) (hopens : ∀ t ∈ ts, Opens t) (hne : ts ≠ []) :
    ∀ n, (commaJoin ts).length + 1 < n → ∀ r,
      scanItems fl n (commaJoin ts ++ ofChar '}' :: r) = some (items, r) := by
  induction h with
  | nil => exact absurd rfl hne
  | @cons t p ts items hread hrest ih =>
    intro n hn r
    cases n with
    | zero => exact absurd hn (Nat.not_lt_zero _)
    | succ n =>
      by_cases hts : ts = []
      · subst hts
        cases hrest
        have hlength : t.length < n := by
          have htext : (commaJoin [t]).length = t.length := rfl
          omega
        show scanItems fl (n + 1) (t ++ ofChar '}' :: r) = _
        rw [scanItems_item hread hlength (stops_cons (by decide) r) (skipWs_cons (by decide) r),
          if_neg (by decide), if_pos rfl]
      · have hopensrest : Opens (commaJoin ts) := opens_commaJoin hts fun t ht => hopens t (List.mem_cons_of_mem _ ht)
        rw [commaJoin_cons hts] at hn ⊢
        rw [List.length_append, List.length_cons, List.length_cons] at hn
        have hitems := ih (fun t ht => hopens t (List.mem_cons_of_mem _ ht)) hts n (by omega) r
        rw [List.append_assoc, List.cons_append, List.cons_append,
          scanItems_item hread (by omega) (stops_cons (by decide) _) (skipWs_cons (by decide) _), if_pos rfl,
          skipWs_blank hopensrest, hitems]
        rfl

/-- **A dictionary is read back** when its items are. -/
theorem reads_dict {fl : Floats} {ts : List Str} {items : List (Str × Val)}
    (h : List.Forall₂ (ItemReads fl) ts items) (hopens : ∀ t ∈ ts, Opens t) (hkeys : (items.map Prod.fst).Nodup) :
    Reads fl (ofChar '{' :: (commaJoin ts ++ [ofChar '}'])) (.dict items) := by
  intro n hn r hr
  cases n with
  | zero => exact absurd hn (Nat.not_lt_zero _)
  | succ n =>
    rw [List.cons_append, List.append_assoc, List.singleton_append, scanValue, if_neg (by decide),
      if_neg (by decide), if_pos rfl]
    by_cases hts : ts = []
    · subst hts
      cases h
      rfl
    · have hopensall : Opens (commaJoin ts) := opens_commaJoin hts hopens
      have hlength : (commaJoin ts).length + 1 < n := by
        rw [List.length_cons, List.length_append, List.length_singleton] at hn
        omega
      have hitems : (Dict.ofList items).items = items := congrArg Dict.items (Dict.ofList_items ⟨items, hkeys⟩)
      rw [skipWs_opens hopensall, if_neg (head?_ne_of_opens hopensall _).2,
        scanItems_commaJoin h hopens hts n hlength r]
      show some (Val.dict (Dict.ofList items).items, r) = _
      rw [hitems]

/-! ## The round trip -/

theorem forall₂_dumpsElems {fl : Floats} {vs : List Val} (h : ∀ v ∈ vs, Reads fl (dumps fl v) v) :
    List.Forall₂ (Reads fl) (dumpsElems fl vs) vs := by
  induction vs with
  | nil => exact .nil
  | cons v vs ih => exact .cons (h v List.mem_cons_self) (ih fun w hw => h w (List.mem_cons_of_mem _ hw))

theorem opens_dumpsElems (fl : Floats) (vs : List Val) : ∀ t ∈ dumpsElems fl vs, Opens t := by
  induction vs with
  | nil =>
    intro t ht
    cases ht
  | cons v vs ih =>
    intro t ht
    rcases List.mem_cons.mp ht with heq | hmem
    · rw [heq]
      exact opens_dumps fl v
    · exact ih t hmem

/-- Keys that are all different are all written. -/
theorem forall₂_dumpsItems {fl : Floats} {items : List (Str × Val)} (hjoined : ∀ p ∈ items, Joined p.1)
    (h : ∀ p ∈ items, Reads fl (dumps fl p.2) p.2) (hkeys : (items.map Prod.fst).Nodup) :
    ∀ seen : List Str, (∀ k ∈ seen, k ∉ items.map Prod.fst) →
      List.Forall₂ (ItemReads fl) (dumpsItems fl seen items) items := by
  induction items with
  | nil =>
    intro seen _
    rw [dumpsItems]
    exact .nil
  | cons p items ih =>
    intro seen hseen
    obtain ⟨k, v⟩ := p
    rw [List.map_cons, List.nodup_cons] at hkeys
    have hnew : k ∉ seen := fun hmem => hseen k hmem List.mem_cons_self
    rw [dumpsItems, if_neg hnew]
    refine .cons ⟨_, rfl, hjoined _ List.mem_cons_self, opens_dumps fl v, h _ List.mem_cons_self⟩ ?_
    refine ih (fun q hq => hjoined q (List.mem_cons_of_mem _ hq)) (fun q hq => h q (List.mem_cons_of_mem _ hq))
      hkeys.2 (k :: seen) ?_
    intro j hj hmem
    rcases List.mem_cons.mp hj with rfl | hold
    · exact hkeys.1 hmem
    · exact hseen j hold (List.mem_cons_of_mem _ hmem)

theorem opens_dumpsItems (fl : Floats) (items : List (Str × Val)) :
    ∀ seen, ∀ t ∈ dumpsItems fl seen items, Opens t := by
  induction items with
  | nil =>
    intro seen t ht
    rw [dumpsItems] at ht
    cases ht
  | cons p items ih =>
    intro seen t ht
    obtain ⟨k, v⟩ := p
    rw [dumpsItems] at ht
    by_cases hk : k ∈ seen
    · rw [if_pos hk] at ht
      exact ih seen t ht
    · rw [if_neg hk] at ht
      rcases List.mem_cons.mp ht with heq | hmem
      · rw [heq]
        exact opens_itemText k _
      · exact ih (k :: seen) t hmem

/-- A written value is read back. -/
theorem reads_dumps {fl : Floats} {v : Val} (h : IsJson fl v) : Reads fl (dumps fl v) v := by
  induction v with
  | none => exact reads_none fl
  | bool b => exact reads_bool fl b
  | int n => exact reads_int fl n
  | float x =>
    cases h with
    | float hx => exact reads_float hx
  | str s =>
    cases h with
    | str hs => exact reads_str hs
  | list vs ih =>
    cases h with
    | list hvs =>
      exact reads_list (forall₂_dumpsElems fun v hv => ih v hv (hvs v hv)) (opens_dumpsElems fl vs)
  | dict items ih =>
    cases h with
    | dict hkeys hjoined hitems =>
      have hreads := forall₂_dumpsItems hjoined (fun p hp => ih p hp (hitems p hp)) hkeys []
        (fun k hk => absurd hk List.not_mem_nil)
      exact reads_dict hreads (opens_dumpsItems fl items []) hkeys

/-- **`json.loads(json.dumps(v))` is `v`.** -/
theorem loads_dumps {fl : Floats} {v : Val} (h : IsJson fl v) : loads fl (dumps fl v) = some v := by
  have hread := reads_dumps h ((dumps fl v).length + 1) (Nat.lt_succ_self _) [] stops_nil
  rw [List.append_nil] at hread
  have hskip := skipWs_opens (opens_dumps fl v) []
  rw [List.append_nil] at hskip
  rw [loads, hskip, hread]
  rfl

/-! ## A machine -/

/-- `n.0` of the greatest whole number that is not greater. -/
def wholeNumeral (x : Rat) : Numeral :=
  ⟨decide (x.num / x.den < 0), natText (x.num / x.den).natAbs, some [ofChar '0'], none⟩

theorem value_wholeNumeral (x : Rat) : (wholeNumeral x).value = (x.num / x.den : Int) := by
  have hdigits : natOf (natText (x.num / x.den).natAbs ++ [ofChar '0']) = 10 * (x.num / x.den).natAbs := by
    rw [natOf, List.foldl_append]
    show 10 * natOf (natText (x.num / x.den).natAbs) + 0 = _
    rw [natOf_natText, Nat.add_zero]
  show mkRat (if decide (x.num / x.den < 0) then -(natOf (natText (x.num / x.den).natAbs ++ [ofChar '0']) : Int)
    else natOf (natText (x.num / x.den).natAbs ++ [ofChar '0'])) (10 ^ 1) = _
  have hsign : (if decide (x.num / x.den < 0) then -((10 * (x.num / x.den).natAbs : Nat) : Int)
      else ((10 * (x.num / x.den).natAbs : Nat) : Int)) = (10 : Nat) * (x.num / x.den) := by
    by_cases h : x.num / (x.den : Int) < 0
    · rw [if_pos (decide_eq_true h)]
      omega
    · rw [if_neg (by simpa using h)]
      omega
  rw [hdigits, hsign]
  have hten : mkRat ((10 : Nat) * (x.num / x.den)) (10 * 1) = mkRat (x.num / x.den) 1 :=
    Rat.mkRat_mul_left (by decide)
  rw [Nat.pow_one, ← Nat.mul_one 10, hten, Rat.mkRat_one]

/-- A machine whose floats are the whole numbers. -/
def wholeFloats : Floats where
  round x := (x.num / x.den : Int)
  repr := wholeNumeral
  valid x :=
    { int := (valid_intNumeral (x.num / x.den)).int
      leading := (valid_intNumeral (x.num / x.den)).leading
      frac := by
        intro f hf
        cases hf
        exact ⟨by decide, by decide⟩
      exp := by
        intro neg e he
        cases he }
  isInt _ := rfl
  round_repr x hx := by
    rw [value_wholeNumeral, hx]
    exact hx

end Py
