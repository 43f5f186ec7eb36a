import MaterialOpenWebui.Js.Json

/-!
# `Js.JsonRoundTrip` — `JSON.parse(JSON.stringify(v))` is `jsonCopy v`

`parse_stringify` is the round trip for every well-formed value, and `stringify_injective` what it says
about texts: two values written the same have the same copy. `Reads t w` (text `t` is read as `w`, whatever
follows and with any fuel beyond its length) is the shape of the induction; arrays and objects only need
it of the texts between their commas.

A copy is a value of its own: copying it again changes nothing (`jsonCopy_jsonCopy`), and its properties are the copies of what
the value has under their names (`get_jsonCopy`).
-/

namespace Js

open JsValue

/-! ## String literals -/

theorem hexValue_digitChar : ∀ d < 16, hexValue d.digitChar = some d := by decide

/-- The four digits of an escape are read back as the unit. -/
theorem hexUnit_hex4 (u : UInt16) :
    hexUnit (u.toNat / 4096 % 16).digitChar (u.toNat / 256 % 16).digitChar
      (u.toNat / 16 % 16).digitChar (u.toNat % 16).digitChar = some u := by
  have hu : u.toNat < 65536 := u.toNat_lt
  have hsum : u.toNat / 4096 % 16 * 4096 + u.toNat / 256 % 16 * 256 + u.toNat / 16 % 16 * 16
      + u.toNat % 16 = u.toNat := by omega
  simp only [hexUnit, hexValue_digitChar _ (Nat.mod_lt _ (by decide : 16 > 0)), hsum, ofNat_toNat_unit]

/-- The closing quote ends the string. -/
theorem parseStringBody_close (r : List Char) : parseStringBody ('\x22' :: r) = some ([], r) := by
  rw [parseStringBody.eq_def]
  simp

/-- A character that needs no escape is read as its own code units. -/
theorem parseStringBody_plain {c : Char} (hq : c ≠ '\x22') (hb : c ≠ '\x5c') (hc : 0x20 ≤ c.toNat)
    (r : List Char) :
    parseStringBody (c :: r) = (parseStringBody r).map (fun p => (units c ++ p.1, p.2)) := by
  have hlt : ¬ c.toNat < 0x20 := by omega
  rw [parseStringBody.eq_def]
  simp only [if_neg hq, if_neg hb, if_neg hlt]

theorem ofNat_unit_ne {u : UInt16} {n : UInt16} (h : u ≠ n) (hu : (Char.ofNat u.toNat).toNat = u.toNat)
    (hn : (Char.ofNat n.toNat).toNat = n.toNat) : Char.ofNat u.toNat ≠ Char.ofNat n.toNat := by
  intro he
  apply h
  have hcc := congrArg Char.toNat he
  rw [hu, hn] at hcc
  exact UInt16.toNat.inj hcc

/-- **One unit.** However a unit is written, reading it consumes exactly that and yields the unit. -/
theorem parseStringBody_escapeUnit (u : UInt16) (r : List Char) :
    parseStringBody (escapeUnit u ++ r) = (parseStringBody r).map (fun p => (u :: p.1, p.2)) := by
  unfold escapeUnit
  split_ifs with h1 h2 h3 h4 h5 h6 h7 h8
  · subst h1; simp [parseStringBody, simpleEscape]
  · subst h2; simp [parseStringBody, simpleEscape]
  · subst h3; simp [parseStringBody, simpleEscape]
  · subst h4; simp [parseStringBody, simpleEscape]
  · subst h5; simp [parseStringBody, simpleEscape]
  · subst h6; simp [parseStringBody, simpleEscape]
  · subst h7; simp [parseStringBody, simpleEscape]
  · simp [hex4, parseStringBody, hexUnit_hex4]
  · simp only [Bool.or_eq_true, decide_eq_true_eq, not_or, Bool.not_eq_true] at h8
    obtain ⟨⟨hge, hh⟩, hl⟩ := h8
    have hu := toNat_bmp hh hl
    have hq : Char.ofNat u.toNat ≠ '\x22' := ofNat_unit_ne (n := 0x22) h1 hu rfl
    have hb : Char.ofNat u.toNat ≠ '\x5c' := ofNat_unit_ne (n := 0x5c) h2 hu rfl
    rw [List.singleton_append, parseStringBody_plain hq hb (by omega), units_bmp hh hl]
    rfl

theorem parseStringBody_pairChar {hi lo : UInt16} (hh : isHigh hi = true) (hl : isLow lo = true)
    (r : List Char) : parseStringBody (pairChar hi lo :: r) =
      (parseStringBody r).map (fun p => (hi :: lo :: p.1, p.2)) := by
  have hn := toNat_pairChar hh hl
  have hq : pairChar hi lo ≠ '\x22' := by
    intro h
    rw [h] at hn
    have : ('\x22' : Char).toNat = 34 := rfl
    omega
  have hb : pairChar hi lo ≠ '\x5c' := by
    intro h
    rw [h] at hn
    have : ('\x5c' : Char).toNat = 92 := rfl
    omega
  rw [parseStringBody_plain hq hb (by omega), units_pairChar hh hl]
  rfl

/-- **A quoted string reads back**, lone surrogates included. -/
theorem parseStringBody_quoteBody (s : JsString) (r : List Char) :
    parseStringBody (quoteBody s ++ '\x22' :: r) = some (s, r) := by
  fun_induction quoteBody s with
  | case1 => exact parseStringBody_close r
  | case2 u => rw [parseStringBody_escapeUnit, parseStringBody_close]; rfl
  | case3 u w s h ih =>
    rw [Bool.and_eq_true] at h
    rw [List.cons_append, parseStringBody_pairChar h.1 h.2, ih]
    rfl
  | case4 u w s h ih =>
    rw [List.append_assoc, parseStringBody_escapeUnit, ih]
    rfl

/-! ## Heads: what a written value begins with -/

/-- The text begins with neither white space nor a closing bracket or brace. -/
def Opens (t : List Char) : Prop :=
  ∃ c cs, t = c :: cs ∧ isWs c = false ∧ c ≠ ']' ∧ c ≠ '}'

theorem opens_of_digit {c : Char} {cs : List Char} (hc : c.isDigit = true) : Opens (c :: cs) := by
  refine ⟨c, cs, rfl, ?_, ?_, ?_⟩
  · by_contra h
    simp only [isWs, Bool.not_eq_false, Bool.or_eq_true, beq_iff_eq] at h
    rcases h with ((rfl | rfl) | rfl) | rfl <;> cases hc
  · rintro rfl
    cases hc
  · rintro rfl
    cases hc

/-- The characters a value other than a number begins with. -/
theorem opens_of_start {c : Char} (hc : c ∈ ['n', 't', 'f', '-', '[', '\x7b', '\x22']) (cs : List Char) :
    Opens (c :: cs) := by
  simp only [List.mem_cons, List.not_mem_nil, or_false] at hc
  refine ⟨c, cs, rfl, ?_⟩
  rcases hc with rfl | rfl | rfl | rfl | rfl | rfl | rfl <;> decide

/-- A rendered number begins with a digit or a minus sign. -/
theorem toText_head (d : Decimal) :
    ∃ c cs, d.toText = c :: cs ∧ (c.isDigit = true ∨ c = '-') := by
  unfold Decimal.toText
  split_ifs with hd hneg
  · exact ⟨'0', [], rfl, Or.inl rfl⟩
  · exact ⟨'-', _, rfl, Or.inr rfl⟩
  · have hp := partsOf_parts hd
    obtain ⟨c, cs, hcs, hc⟩ := numeral_head_ne_minus (f := d.parts.2.1) (x := d.parts.2.2)
      hp.intDigits hp.nonempty []
    exact ⟨c, cs, by simpa using hcs, Or.inl hc⟩

theorem toText_opens (d : Decimal) : Opens d.toText := by
  obtain ⟨c, cs, h, hc | hc⟩ := toText_head d
  · rw [h]
    exact opens_of_digit hc
  · rw [h, hc]
    exact opens_of_start (by simp) cs

theorem stringify_opens {v : JsValue} {t : List Char} (h : stringify v = some t) : Opens t := by
  cases v with
  | undefined => simp [stringify] at h
  | null => cases h; exact opens_of_start (by simp) _
  | bool b =>
    cases b with
    | true => cases h; exact opens_of_start (by simp) _
    | false => cases h; exact opens_of_start (by simp) _
  | num n =>
    cases n with
    | finite d => cases h; exact toText_opens d
    | nan => cases h; exact opens_of_start (by simp) _
    | infinity b => cases h; exact opens_of_start (by simp) _
  | str s => cases h; exact opens_of_start (by simp) _
  | arr vs => cases h; exact opens_of_start (by simp) _
  | obj ps => cases h; exact opens_of_start (by simp) _

theorem skipWs_opens {t : List Char} (h : Opens t) (r : List Char) : skipWs (t ++ r) = t ++ r := by
  obtain ⟨c, cs, rfl, hc, -, -⟩ := h
  simp [skipWs, hc]

theorem skipWs_cons {c : Char} (hc : isWs c = false) (r : List Char) : skipWs (c :: r) = c :: r := by
  simp [skipWs, hc]

/-! ## Reading one value -/

/-- `t` is read as `w`, whatever follows it and with any fuel beyond its length. -/
def Reads (t : List Char) (w : JsValue) : Prop :=
  ∀ n, t.length < n → ∀ r, Stops r → parseValue n (t ++ r) = some (w, r)

/-- A text that is read as a value is a text of it. -/
theorem Reads.parse {t : List Char} {w : JsValue} (h : Reads t w) : parse t = some w := by
  have hr := h (t.length + 1) (by omega) [] stops_nil
  rw [List.append_nil] at hr
  simp [Js.parse, hr, skipWs]

theorem reads_null : Reads nullText .null := by
  intro n hn r _
  cases n with
  | zero => omega
  | succ n => simp [nullText, parseValue, skipWs_cons (c := 'n') rfl]

theorem reads_bool (b : Bool) : ∀ t, stringify (.bool b) = some t → Reads t (.bool b) := by
  intro t ht n hn r _
  cases n with
  | zero => omega
  | succ n =>
    cases b with
    | true => cases ht; simp [parseValue, skipWs_cons (c := 't') rfl]
    | false => cases ht; simp [parseValue, skipWs_cons (c := 'f') rfl]

theorem reads_str (s : JsString) : Reads (quote s) (.str s) := by
  intro n hn r _
  cases n with
  | zero => omega
  | succ n =>
    simp [quote, parseValue, skipWs_cons (c := '\x22') rfl,
      parseStringBody_quoteBody]

theorem reads_num (d : Decimal) : Reads d.toText (.num (.finite d.unsignZero)) := by
  intro n hn r hr
  cases n with
  | zero => omega
  | succ n =>
    have hparse := parseNumeral_toText d hr
    have hskip := skipWs_opens (toText_opens d) r
    obtain ⟨c, cs, hcs, hc⟩ := toText_head d
    rw [parseValue, hskip]
    rw [hcs, List.cons_append] at hparse ⊢
    -- no literal and no bracket begins with a digit or a minus sign
    split
    all_goals first
      | (exfalso; rename_i heq; simp only [List.cons.injEq] at heq
         obtain ⟨rfl, -⟩ := heq
         rcases hc with hc | hc <;> cases hc)
      | skip
    rw [hparse]
    rfl

/-! ## White space between the parts -/

def Blank (ws : List Char) : Prop := ∀ c ∈ ws, isWs c = true

theorem skipWs_blank {ws : List Char} (h : Blank ws) (r : List Char) : skipWs (ws ++ r) = skipWs r :=
  List.dropWhile_append_of_pos h

theorem parseValue_blank {ws : List Char} (h : Blank ws) (n : Nat) (r : List Char) :
    parseValue n (ws ++ r) = parseValue n r := by
  cases n with
  | zero => rfl
  | succ n => rw [parseValue, parseValue, skipWs_blank h]

theorem parseElems_blank {ws : List Char} (h : Blank ws) (n : Nat) (r : List Char) :
    parseElems n (ws ++ r) = parseElems n r := by
  cases n with
  | zero => rfl
  | succ n => rw [parseElems, parseElems, parseValue_blank h]

theorem parseProps_blank {ws : List Char} (h : Blank ws) (n : Nat) (r : List Char) :
    parseProps n (ws ++ r) = parseProps n r := by
  cases n with
  | zero => rfl
  | succ n => rw [parseProps, parseProps, skipWs_blank h]

theorem Reads.blank {ws t : List Char} {w : JsValue} (hws : Blank ws) (h : Reads t w) : Reads (ws ++ t) w := by
  intro n hn r hr
  rw [List.append_assoc, parseValue_blank hws]
  rw [List.length_append] at hn
  exact h n (by omega) r hr

theorem stops_blank {ws : List Char} (hws : Blank ws) {c : Char} (h : c = ',' ∨ c = ']' ∨ c = '}') (r : List Char) :
    Stops (ws ++ c :: r) := by
  cases ws with
  | nil => exact stops_cons h
  | cons c' ws =>
    intro c'' hc
    obtain rfl : c' = c'' := Option.some.inj hc
    have hspace := hws c' List.mem_cons_self
    simp only [isWs, Bool.or_eq_true, beq_iff_eq] at hspace
    rcases hspace with ((rfl | rfl) | rfl) | rfl <;> decide

/-- What a text begins with after white space. -/
def Begins (t : List Char) : Prop := ∃ ws t', t = ws ++ t' ∧ Blank ws ∧ Opens t'

theorem Opens.begins {t : List Char} (h : Opens t) : Begins t := ⟨[], t, rfl, List.forall_mem_nil _, h⟩

/-! ## Reading the inside of an array -/

theorem commas_cons_ne {t : List Char} {ts : List (List Char)} (h : ts ≠ []) :
    commas (t :: ts) = t ++ ',' :: commas ts := by
  cases ts with
  | nil => exact absurd rfl h
  | cons t' ts => rfl

/-- Elements read one by one are read as a list, given fuel for the joined text. -/
theorem parseElems_commas {blank : List Char} (hblank : Blank blank) : ∀ {ts : List (List Char)} {ws : List JsValue},
    List.Forall₂ Reads ts ws → ts ≠ [] → ∀ n, (commas ts).length + 1 < n → ∀ r,
      parseElems n (commas ts ++ (blank ++ ']' :: r)) = some (ws, r) := by
  intro ts ws h
  induction h with
  | nil => intro hne; exact absurd rfl hne
  | @cons t w ts ws hread hrest ih =>
    intro _ n hn r
    cases n with
    | zero => omega
    | succ n =>
      by_cases hts : ts = []
      · subst hts
        cases hrest
        have hv := hread n (by simpa [commas] using hn) (blank ++ ']' :: r) (stops_blank hblank (by simp) r)
        simp [commas, parseElems, hv, skipWs_blank hblank, skipWs_cons (c := ']') rfl]
      · rw [commas_cons_ne hts] at hn ⊢
        simp only [List.length_append, List.length_cons] at hn
        have hv := hread n (by omega) (',' :: (commas ts ++ (blank ++ ']' :: r))) (stops_cons (by simp))
        have hvs := ih hts n (by omega) r
        simp only [List.append_assoc, List.cons_append, parseElems, hv,
          skipWs_cons (c := ',') rfl, hvs, Option.map_some]

theorem commas_head {ts : List (List Char)} (hne : ts ≠ []) (h : ∀ t ∈ ts, Begins t) :
    Begins (commas ts) := by
  cases ts with
  | nil => exact absurd rfl hne
  | cons t ts =>
    obtain ⟨ws, _, rfl, hws, c, cs, rfl, hc⟩ := h t (by simp)
    cases ts with
    | nil => exact ⟨ws, _, rfl, hws, c, cs, rfl, hc⟩
    | cons t' ts => exact ⟨ws, _, List.append_assoc _ _ _, hws, c, _, rfl, hc⟩

theorem reads_arr {blank : List Char} (hblank : Blank blank) {ts : List (List Char)} {ws : List JsValue}
    (h : List.Forall₂ Reads ts ws) (hb : ∀ t ∈ ts, Begins t) : Reads ('[' :: (commas ts ++ (blank ++ [']']))) (.arr ws) := by
  intro n hn r _
  cases n with
  | zero => omega
  | succ n =>
    by_cases hts : ts = []
    · subst hts
      cases h
      simp [commas, parseValue, skipWs_cons (c := '[') rfl, skipWs_blank hblank,
        skipWs_cons (c := ']') rfl]
    · have hlen : (commas ts).length + 1 < n := by
        simp only [List.length_cons, List.length_append, List.length_nil] at hn
        omega
      have hbody := parseElems_commas hblank h hts n hlen r
      obtain ⟨spaces, t, ht, hspaces, hopens⟩ := commas_head hts hb
      rw [ht, List.append_assoc, parseElems_blank hspaces] at hbody
      have hskip := skipWs_opens hopens (blank ++ ']' :: r)
      obtain ⟨c, cs, rfl, -, hc, -⟩ := hopens
      rw [ht]
      simp only [List.cons_append, List.append_assoc, List.nil_append, parseValue,
        skipWs_cons (c := '[') rfl, skipWs_blank hspaces] at hskip hbody ⊢
      rw [hskip]
      split
      · rename_i heq
        simp only [List.cons.injEq] at heq
        exact absurd heq.1 hc
      · rw [hbody]
        rfl

/-! ## Reading the inside of an object -/

/-- `t` is a property text, after white space, whose value part is read as the property's value. -/
def PropReads (t : List Char) (p : JsString × JsValue) : Prop :=
  ∃ ws t', Blank ws ∧ t = ws ++ propText p.1 t' ∧ Reads t' p.2

/-- A property whose value is followed by a comma is read before the rest. -/
theorem parseProps_comma {t : List Char} {k : JsString} {w : JsValue} (h : Reads t w) {n : Nat}
    (hn : (propText k t).length < n + 1) (r : List Char) :
    parseProps (n + 1) (propText k t ++ ',' :: r) =
      (parseProps n r).map (fun p => ((k, w) :: p.1, p.2)) := by
  have hlen : t.length < n := by
    simp only [propText, quote, List.cons_append, List.length_cons, List.length_append] at hn
    omega
  have hname := parseStringBody_quoteBody k (':' :: (t ++ ',' :: r))
  have hv := h n hlen (',' :: r) (stops_cons (by simp))
  simp only [propText, quote, List.cons_append, List.append_assoc, List.nil_append, parseProps,
    skipWs_cons (c := '\x22') rfl, skipWs_cons (c := ':') rfl, hname, hv, skipWs_cons (c := ',') rfl]

/-- The last property. -/
theorem parseProps_brace {blank : List Char} (hblank : Blank blank) {t : List Char} {k : JsString}
    {w : JsValue} (h : Reads t w)
    {n : Nat} (hn : (propText k t).length < n + 1) (r : List Char) :
    parseProps (n + 1) (propText k t ++ (blank ++ '\x7d' :: r)) = some ([(k, w)], r) := by
  have hlen : t.length < n := by
    simp only [propText, quote, List.cons_append, List.length_cons, List.length_append] at hn
    omega
  have hname := parseStringBody_quoteBody k (':' :: (t ++ (blank ++ '\x7d' :: r)))
  have hv := h n hlen (blank ++ '\x7d' :: r) (stops_blank hblank (by simp) r)
  simp only [propText, quote, List.cons_append, List.append_assoc, List.nil_append, parseProps, skipWs_blank hblank,
    skipWs_cons (c := '\x22') rfl, skipWs_cons (c := ':') rfl, hname, hv, skipWs_cons (c := '\x7d') rfl]

theorem parseProps_commas {blank : List Char} (hblank : Blank blank) : ∀ {ts : List (List Char)}
    {ps : List (JsString × JsValue)}, List.Forall₂ PropReads ts ps → ts ≠ [] → ∀ n, (commas ts).length + 1 < n → ∀ r,
      parseProps n (commas ts ++ (blank ++ '}' :: r)) = some (ps, r) := by
  intro ts ps h
  induction h with
  | nil => intro hne; exact absurd rfl hne
  | @cons t p ts ps hread hrest ih =>
    intro _ n hn r
    obtain ⟨ws, t', hws, rfl, hread⟩ := hread
    cases n with
    | zero => omega
    | succ n =>
      by_cases hts : ts = []
      · subst hts
        cases hrest
        simp only [commas, List.length_append] at hn
        rw [commas, List.append_assoc, parseProps_blank hws]
        exact parseProps_brace hblank hread (by omega) r
      · rw [commas_cons_ne hts] at hn ⊢
        simp only [List.length_append, List.length_cons] at hn
        have hps := ih hts n (by omega) r
        rw [List.append_assoc, List.append_assoc, List.cons_append, parseProps_blank hws,
          parseProps_comma hread (by omega)]
        simp only [hps, Option.map_some]

theorem reads_obj {blank : List Char} (hblank : Blank blank) {ts : List (List Char)} {ps : List (JsString × JsValue)}
    (h : List.Forall₂ PropReads ts ps) : Reads ('{' :: (commas ts ++ (blank ++ ['}']))) (.obj (fromEntries ps)) := by
  intro n hn r _
  cases n with
  | zero => omega
  | succ n =>
    cases h with
    | nil =>
      simp [commas, parseValue, skipWs_cons (c := '{') rfl, skipWs_blank hblank,
        skipWs_cons (c := '}') rfl, fromEntries, ownOrder]
    | @cons t p ts ps hread hrest =>
      have hlen : (commas (t :: ts)).length + 1 < n := by
        simp only [List.length_cons, List.length_append, List.length_nil] at hn
        omega
      have hbody := parseProps_commas hblank (.cons hread hrest) (by simp) n hlen r
      have hhead : ∃ ws cs, Blank ws ∧ commas (t :: ts) = ws ++ '\x22' :: cs := by
        obtain ⟨ws, t', hws, rfl, -⟩ := hread
        cases ts with
        | nil => exact ⟨ws, _, hws, rfl⟩
        | cons t'' ts => exact ⟨ws, _, hws, List.append_assoc _ _ _⟩
      obtain ⟨ws, cs, hws, hcs⟩ := hhead
      rw [hcs, List.append_assoc, parseProps_blank hws] at hbody
      rw [hcs]
      simp only [List.cons_append, List.append_assoc, List.nil_append, parseValue,
        skipWs_cons (c := '{') rfl, skipWs_blank hws,
        skipWs_cons (c := '\x22') rfl]
      simp only [List.cons_append] at hbody
      split
      · rename_i heq
        simp at heq
      · rw [hbody]
        rfl

/-! ## The round trip -/

theorem forall₂_elems {vs : List JsValue}
    (ih : ∀ v ∈ vs, ∀ t, stringify v = some t → Reads t (jsonCopy v)) :
    List.Forall₂ Reads (stringifyElems vs) (copyElems vs) := by
  induction vs with
  | nil => exact .nil
  | cons v vs ihvs =>
    refine .cons ?_ (ihvs (fun v hv => ih v (List.mem_cons_of_mem _ hv)))
    cases hs : stringify v with
    | some t => exact ih v (by simp) t hs
    | none =>
      cases v with
      | undefined => exact reads_null
      | bool b => cases b <;> simp [stringify] at hs
      | num n => cases n <;> simp [stringify] at hs
      | _ => simp [stringify] at hs

theorem stringify_eq_none {v : JsValue} (h : stringify v = none) : v = .undefined := by
  cases v with
  | undefined => rfl
  | bool b => cases b <;> simp [stringify] at h
  | num n => cases n <;> simp [stringify] at h
  | _ => simp [stringify] at h

theorem forall₂_props {ps : List (JsString × JsValue)}
    (ih : ∀ p ∈ ps, ∀ t, stringify p.2 = some t → Reads t (jsonCopy p.2)) :
    List.Forall₂ PropReads (stringifyProps ps) (copyProps ps) := by
  induction ps with
  | nil => exact .nil
  | cons p ps ihps =>
    obtain ⟨k, v⟩ := p
    have hrest := ihps (fun p hp => ih p (List.mem_cons_of_mem _ hp))
    cases hs : stringify v with
    | none =>
      have hv := stringify_eq_none hs
      subst hv
      simpa [stringifyProps, copyProps, hs] using hrest
    | some t =>
      have hne : v ≠ .undefined := by
        rintro rfl
        simp [stringify] at hs
      simp only [stringifyProps, hs]
      rw [copyProps]
      · exact .cons ⟨[], t, List.forall_mem_nil _, rfl, ih (k, v) (by simp) t hs⟩ hrest
      · exact hne

theorem opens_elems (vs : List JsValue) : ∀ t ∈ stringifyElems vs, Opens t := by
  induction vs with
  | nil => simp [stringifyElems]
  | cons v vs ih =>
    intro t ht
    rcases List.mem_cons.mp ht with h | h
    · subst h
      cases hs : stringify v with
      | none => exact opens_of_start (by simp) _
      | some t => exact stringify_opens hs
    · exact ih t h

/-- A written value is read back as its copy. -/
theorem reads_stringify (v : JsValue) : ∀ t, stringify v = some t → Reads t (jsonCopy v) := by
  induction v with
  | undefined => intro t h; simp [stringify] at h
  | null => intro t h; cases h; exact reads_null
  | bool b => exact reads_bool b
  | num n =>
    intro t h
    cases n with
    | finite d => cases h; exact reads_num d
    | nan => cases h; exact reads_null
    | infinity b => cases h; exact reads_null
  | str s => intro t h; cases h; exact reads_str s
  | arr vs ih =>
    intro t h
    cases h
    exact reads_arr (List.forall_mem_nil _) (forall₂_elems ih) fun t ht => (opens_elems vs t ht).begins
  | obj ps ih => intro t h; cases h; exact reads_obj (List.forall_mem_nil _) (forall₂_props ih)

/-- **`JSON.parse(JSON.stringify(v))` is the copy.** -/
theorem parse_stringify {v : JsValue} {t : List Char} (h : stringify v = some t) :
    parse t = some (jsonCopy v) := (reads_stringify v t h).parse

/-- **Equal texts, equal copies.** -/
theorem stringify_injective {v w : JsValue} {t : List Char} (hv : stringify v = some t)
    (hw : stringify w = some t) : jsonCopy v = jsonCopy w := by
  have h := parse_stringify hv
  rw [parse_stringify hw] at h
  exact (Option.some.inj h).symm

/-! ## Writing the copy -/

/-- Every object lists its properties in own-property order, each name once. -/
inductive JsValue.Ordered : JsValue → Prop where
  | undefined : Ordered .undefined
  | null : Ordered .null
  | bool (b : Bool) : Ordered (.bool b)
  | num (n : JsNumber) : Ordered (.num n)
  | str (s : JsString) : Ordered (.str s)
  | arr {vs : List JsValue} (h : ∀ v ∈ vs, Ordered v) : Ordered (.arr vs)
  | obj {ps : List (JsString × JsValue)} (hk : (ps.map Prod.fst).Nodup) (ho : InOrder ps)
      (h : ∀ p ∈ ps, Ordered p.2) : Ordered (.obj ps)

theorem toText_unsignZero (d : Decimal) : d.unsignZero.toText = d.toText := by
  unfold Decimal.unsignZero
  split_ifs with h
  · simp [Decimal.toText, h]
  · rfl

/-- The copied properties are those whose value is written. -/
theorem copyProps_eq (ps : List (JsString × JsValue)) : copyProps ps =
    (ps.filter (fun p => (stringify p.2).isSome)).map (fun p => (p.1, jsonCopy p.2)) := by
  induction ps with
  | nil => rfl
  | cons p ps ih =>
    obtain ⟨k, v⟩ := p
    cases hs : stringify v with
    | none =>
      have hv := stringify_eq_none hs
      subst hv
      simpa [copyProps, hs] using ih
    | some t =>
      have hne : v ≠ .undefined := by
        rintro rfl
        simp [stringify] at hs
      rw [copyProps]
      · simp [hs, ih]
      · exact hne

theorem keys_copyProps (ps : List (JsString × JsValue)) :
    ((copyProps ps).map Prod.fst).Sublist (ps.map Prod.fst) := by
  rw [copyProps_eq, List.map_map]
  exact List.filter_sublist.map Prod.fst

theorem inOrder_copyProps {ps : List (JsString × JsValue)} (h : InOrder ps) : InOrder (copyProps ps) := by
  rw [copyProps_eq]
  exact List.pairwise_map.mpr (h.sublist List.filter_sublist)

/-- **The copy is written as the value was**, when objects are in own-property order. -/
theorem stringify_jsonCopy {v : JsValue} (h : v.Ordered) (hv : v ≠ .undefined) :
    stringify (jsonCopy v) = stringify v := by
  induction v with
  | undefined => exact absurd rfl hv
  | null => rfl
  | bool b => cases b <;> rfl
  | num n =>
    cases n with
    | finite d => simp [jsonCopy, stringify, toText_unsignZero]
    | nan => rfl
    | infinity b => rfl
  | str s => rfl
  | arr vs ih =>
    cases h with
    | arr h =>
    have helems : stringifyElems (copyElems vs) = stringifyElems vs := by
      clear hv
      induction vs with
      | nil => rfl
      | cons v vs ihvs =>
        have hrest := ihvs (fun w hw => ih w (List.mem_cons_of_mem _ hw))
          (fun w hw => h w (List.mem_cons_of_mem _ hw))
        simp only [copyElems, stringifyElems, hrest]
        by_cases hu : v = .undefined
        · -- written as `null`, and copied as `null`
          subst hu
          rfl
        · rw [ih v (by simp) (h v (by simp)) hu]
    simp only [jsonCopy, stringify, helems]
  | obj ps ih =>
    cases h with
    | obj hk ho h =>
    have hkeys : ((copyProps ps).map Prod.fst).Nodup := hk.sublist (keys_copyProps ps)
    have hprops : stringifyProps (copyProps ps) = stringifyProps ps := by
      clear hv hk ho hkeys
      induction ps with
      | nil => rfl
      | cons p ps ihps =>
        obtain ⟨k, v⟩ := p
        have hrest := ihps (fun q hq => ih q (List.mem_cons_of_mem _ hq))
          (fun q hq => h q (List.mem_cons_of_mem _ hq))
        by_cases hu : v = .undefined
        · -- neither written nor copied
          subst hu
          simpa [copyProps, stringifyProps, stringify] using hrest
        · have hv := ih (k, v) (by simp) (h (k, v) (by simp)) hu
          rw [copyProps]
          · simp only [stringifyProps, hrest, hv]
          · exact hu
    rw [jsonCopy, fromEntries_of_nodup hkeys, (inOrder_copyProps ho).ownOrder_eq]
    simp only [stringify, hprops]

/-! ## What a copy is -/

theorem map_eq_self_iff {α : Type} {f : α → α} {l : List α} : l.map f = l ↔ ∀ a ∈ l, f a = a := by
  have h : l.map f = l.map id ↔ ∀ a ∈ l, f a = id a := List.map_inj_left
  rwa [List.map_id] at h

/-- Where as many are left, none was dropped. -/
theorem filter_eq_of_map {α : Type} {f : α → α} {q : α → Bool} {l : List α}
    (h : (l.filter q).map f = l) : l.filter q = l := by
  refine List.filter_sublist.eq_of_length ?_
  rw [← List.length_map (f := f), h]

theorem copyElems_eq (vs : List JsValue) : copyElems vs = vs.map jsonCopy := by
  induction vs with
  | nil => rfl
  | cons v vs ih => rw [copyElems, ih, List.map_cons]

theorem jsonCopy_ne_undefined (v : JsValue) : jsonCopy v ≠ .undefined := by
  cases v with
  | num n => cases n <;> simp [jsonCopy]
  | _ => simp [jsonCopy]

theorem copyProps_of_defined {ps : List (JsString × JsValue)} (h : ∀ p ∈ ps, p.2 ≠ .undefined) :
    copyProps ps = ps.map fun p => (p.1, jsonCopy p.2) := by
  rw [copyProps_eq, List.filter_eq_self.mpr]
  intro p hp
  rw [Option.isSome_iff_ne_none]
  exact fun hnone => h p hp (stringify_eq_none hnone)

/-- The copy of an object that is in own-property order and has no `undefined`. -/
theorem jsonCopy_obj {ps : List (JsString × JsValue)} (hk : (ps.map Prod.fst).Nodup) (ho : InOrder ps)
    (h : ∀ p ∈ ps, p.2 ≠ .undefined) : jsonCopy (.obj ps) = .obj (ps.map fun p => (p.1, jsonCopy p.2)) := by
  rw [jsonCopy, fromEntries_of_nodup (hk.sublist (keys_copyProps ps)),
    (inOrder_copyProps ho).ownOrder_eq, copyProps_of_defined h]

theorem jsonCopy_arr_eq_iff {vs : List JsValue} : jsonCopy (.arr vs) = .arr vs ↔ ∀ v ∈ vs, jsonCopy v = v := by
  rw [jsonCopy, copyElems_eq, JsValue.arr.injEq]
  exact ⟨fun h v hv => map_eq_self_iff.mp h v hv, fun h => map_eq_self_iff.mpr h⟩

/-- An object is its copy if it has been one: in order, each name once, and every value a copy. -/
theorem jsonCopy_obj_eq_iff {ps : List (JsString × JsValue)} :
    jsonCopy (.obj ps) = .obj ps ↔ (ps.map Prod.fst).Nodup ∧ InOrder ps ∧ ∀ p ∈ ps, jsonCopy p.2 = p.2 := by
  constructor
  · intro h
    have hps : fromEntries (copyProps ps) = ps := by
      rw [jsonCopy] at h
      exact JsValue.obj.inj h
    have hk : (ps.map Prod.fst).Nodup := hps ▸ nodup_fromEntries _
    have ho : InOrder ps := hps ▸ inOrder_ownOrder _
    rw [fromEntries_of_nodup (hk.sublist (keys_copyProps ps)), (inOrder_copyProps ho).ownOrder_eq, copyProps_eq] at hps
    rw [filter_eq_of_map hps] at hps
    refine ⟨hk, ho, fun p hp => ?_⟩
    exact congrArg Prod.snd (map_eq_self_iff.mp hps p hp)
  · rintro ⟨hk, ho, h⟩
    have hdefined : ∀ p ∈ ps, p.2 ≠ .undefined := fun p hp => h p hp ▸ jsonCopy_ne_undefined p.2
    rw [jsonCopy_obj hk ho hdefined, map_eq_self_iff.mpr]
    intro p hp
    rw [h p hp]

/-- Copying twice is copying once. -/
theorem jsonCopy_jsonCopy (v : JsValue) : jsonCopy (jsonCopy v) = jsonCopy v := by
  induction v with
  | num n =>
    cases n with
    | finite d =>
      simp only [jsonCopy, Decimal.unsignZero]
      split <;> simp [*]
    | _ => rfl
  | arr vs ih =>
    rw [jsonCopy, copyElems_eq, jsonCopy_arr_eq_iff]
    intro w hw
    obtain ⟨v, hv, rfl⟩ := List.mem_map.mp hw
    exact ih v hv
  | obj ps ih =>
    rw [jsonCopy, jsonCopy_obj_eq_iff]
    refine ⟨nodup_fromEntries _, inOrder_ownOrder _, fun p hp => ?_⟩
    have hmem := mem_of_mem_fromEntries hp
    rw [copyProps_eq] at hmem
    obtain ⟨q, hq, rfl⟩ := List.mem_map.mp hmem
    exact ih q (List.mem_filter.mp hq).1
  | _ => rfl

/-! ## Reading the copy -/

/-- A property read from the copy: what was `undefined` is missing, and reads so. -/
def reloaded : JsValue → JsValue
  | .undefined => .undefined
  | v => jsonCopy v

theorem lookup_copyProps {ps : List (JsString × JsValue)} (hk : (ps.map Prod.fst).Nodup) (k : JsString) :
    ((copyProps ps).lookup k).getD .undefined = reloaded ((ps.lookup k).getD .undefined) := by
  induction ps with
  | nil => rfl
  | cons p ps ih =>
    obtain ⟨k', v⟩ := p
    rw [List.map_cons, List.nodup_cons] at hk
    by_cases hu : v = .undefined
    · subst hu
      rw [copyProps, ih hk.2]
      by_cases heq : k = k'
      · subst heq
        -- the name does not come again
        have hnone : ps.lookup k = none := by
          rw [List.lookup_eq_none_iff]
          intro q hq
          have hne : k ≠ q.1 := fun h => hk.1 (List.mem_map.mpr ⟨q, hq, h.symm⟩)
          simpa using hne
        simp [hnone]
      · have hbeq : (k == k') = false := by simpa using heq
        simp [List.lookup_cons, hbeq]
    · rw [copyProps]
      · by_cases heq : k = k'
        · subst heq
          cases v <;> simp_all [reloaded]
        · have hbeq : (k == k') = false := by simpa using heq
          simp only [List.lookup_cons, hbeq]
          exact ih hk.2
      · exact hu

/-- Reading a property of the copy. -/
theorem get_jsonCopy {ps : List (JsString × JsValue)} (hk : (ps.map Prod.fst).Nodup) (k : JsString) :
    (jsonCopy (.obj ps)).get k = reloaded ((JsValue.obj ps).get k) := by
  have hkeys : ((copyProps ps).map Prod.fst).Nodup := hk.sublist (keys_copyProps ps)
  rw [jsonCopy, fromEntries_of_nodup hkeys, JsValue.get, JsValue.get,
    ← lookup_perm hkeys (ownOrder_perm _).symm k]
  exact lookup_copyProps hk k

theorem isSome_stringify (v : JsValue) : (stringify v).isSome = !v.isUndefined := by
  cases h : stringify v with
  | none =>
    rw [stringify_eq_none h]
    rfl
  | some t => cases v <;> first | rfl | cases h

theorem copyProps_eq_reloaded (ps : List (JsString × JsValue)) :
    copyProps ps = (ps.map fun p => (p.1, reloaded p.2)).filter fun p => !p.2.isUndefined := by
  induction ps with
  | nil => rfl
  | cons p ps ih =>
    obtain ⟨k, v⟩ := p
    by_cases hv : v = .undefined
    · rw [hv, copyProps, ih]
      rfl
    · have hcopy : reloaded v = jsonCopy v := by
        cases v <;> first | rfl | exact absurd rfl hv
      have hdefined : (jsonCopy v).isUndefined = false := by
        have hne := jsonCopy_ne_undefined v
        cases hw : jsonCopy v <;> first | rfl | exact absurd hw hne
      rw [copyProps, ih, List.map_cons, List.filter_cons, hcopy, hdefined]
      · rfl
      · exact hv

/-- Objects with the same names have the same copy where it has the same under each. -/
theorem jsonCopy_obj_eq_jsonCopy_iff {ps qs : List (JsString × JsValue)} (hkeys : ps.map Prod.fst = qs.map Prod.fst)
    (hk : (ps.map Prod.fst).Nodup) : jsonCopy (.obj ps) = jsonCopy (.obj qs) ↔
      ∀ name, reloaded ((JsValue.obj ps).get name) = reloaded ((JsValue.obj qs).get name) := by
  constructor
  · intro h name
    rw [← get_jsonCopy hk, h, get_jsonCopy (hkeys ▸ hk)]
  · intro h
    have heq : (ps.map fun p => (p.1, reloaded p.2)) = qs.map fun p => (p.1, reloaded p.2) := by
      refine eq_of_lookup ?_ ?_ fun name => ?_
      · rw [List.map_map, List.map_map]
        exact hkeys
      · rw [List.map_map]
        exact hk
      · rw [lookup_map, lookup_map]
        have hname : reloaded ((ps.lookup name).getD .undefined) = reloaded ((qs.lookup name).getD .undefined) := h name
        cases hp : ps.lookup name with
        | none =>
          rw [lookup_eq_none, hkeys, ← lookup_eq_none] at hp
          rw [hp]
        | some v =>
          cases hq : qs.lookup name with
          | none =>
            rw [lookup_eq_none, ← hkeys, ← lookup_eq_none, hp] at hq
            cases hq
          | some w =>
            rw [hp, hq] at hname
            exact congrArg some hname
    rw [jsonCopy, jsonCopy, copyProps_eq_reloaded, copyProps_eq_reloaded, heq]

end Js
