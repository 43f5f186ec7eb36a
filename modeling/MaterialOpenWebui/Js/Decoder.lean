import MaterialOpenWebui.Js.Bytes

/-!
# `Js.Decoder` — `TextDecoder`

The UTF-8 decoder of the platform, byte by byte: after a first byte it knows how many more a character needs, and in which
range the next of them lies. A byte outside is an error for what was begun, and is read again as a first byte. An error becomes
U+FFFD, or is thrown where the decoder is fatal.
-/

namespace Js

/-! ## Bytes to characters -/

/-- A character that has begun: how many bytes it needs, where the next one lies, and what is known of it. -/
structure Pending where
  needed : Nat
  lower : Nat
  upper : Nat
  point : Nat

inductive First where
  | char (c : Char)
  | lead (p : Pending)
  | bad

/-- What a first byte begins. -/
def first (b : Nat) : First :=
  if b ≤ 0x7f then .char (Char.ofNat b)
  else if 0xc2 ≤ b ∧ b ≤ 0xdf then .lead ⟨1, 0x80, 0xbf, b % 0x20⟩
  else if 0xe0 ≤ b ∧ b ≤ 0xef then .lead ⟨2, if b = 0xe0 then 0xa0 else 0x80, if b = 0xed then 0x9f else 0xbf, b % 0x10⟩
  else if 0xf0 ≤ b ∧ b ≤ 0xf4 then .lead ⟨3, if b = 0xf0 then 0x90 else 0x80, if b = 0xf4 then 0x8f else 0xbf, b % 0x08⟩
  else .bad

def Pending.next (p : Pending) (b : Nat) : Pending := ⟨p.needed - 1, 0x80, 0xbf, p.point * 0x40 + b % 0x40⟩

/-- The characters, with nothing for an error. -/
def decodeFrom : Option Pending → List UInt8 → List (Option Char)
  | none, [] => []
  | some _, [] => [none]
  | none, b :: bs =>
    match first b.toNat with
    | .char c => some c :: decodeFrom none bs
    | .lead p => decodeFrom (some p) bs
    | .bad => none :: decodeFrom none bs
  | some p, b :: bs =>
    if p.lower ≤ b.toNat ∧ b.toNat ≤ p.upper then
      if p.needed = 1 then some (Char.ofNat (p.next b.toNat).point) :: decodeFrom none bs
      else decodeFrom (some (p.next b.toNat)) bs
    else
      none ::
        match first b.toNat with
        | .char c => some c :: decodeFrom none bs
        | .lead p => decodeFrom (some p) bs
        | .bad => none :: decodeFrom none bs

/-! ## The decoder -/

/-- `new TextDecoder('utf-8', { fatal: true, ignoreBOM: true }).decode(bytes)`; `none` where it throws. -/
def decodeFatal (bytes : List UInt8) : Option JsString := ((decodeFrom none bytes).mapM id).map ofChars

/-- Errors are replaced. -/
def decode (bytes : List UInt8) : JsString := ofChars ((decodeFrom none bytes).map fun c => c.getD '\uFFFD')

/-- A mark at the beginning is dropped. -/
def dropBom : JsString → JsString
  | [] => []
  | u :: s => if u = 0xfeff then s else u :: s

/-- `new TextDecoder('utf-8').decode(bytes)` -/
def textDecoder (bytes : List UInt8) : JsString := dropBom (decode bytes)

/-! ## Round trip -/

/-- `s.toWellFormed()`: what is left of a text in bytes. -/
def toWellFormed (s : JsString) : JsString := ofChars (scalars s)

/-- Every surrogate is one of a pair. -/
def WellFormed (s : JsString) : Prop := toWellFormed s = s

instance (s : JsString) : Decidable (WellFormed s) := inferInstanceAs (Decidable (_ = _))

theorem toNat_ofNat_byte {n : Nat} (h : n < 256) : (UInt8.ofNat n).toNat = n := by
  rw [UInt8.toNat_ofNat']
  exact Nat.mod_eq_of_lt h

theorem decodeFrom_lead {n : Nat} {p : Pending} (hn : n < 256) (h : first n = .lead p) (bs : List UInt8) :
    decodeFrom none (.ofNat n :: bs) = decodeFrom (some p) bs := by
  rw [decodeFrom, toNat_ofNat_byte hn, h]

theorem decodeFrom_more {n : Nat} {p : Pending} (hn : n < 256) (hlower : p.lower ≤ n) (hupper : n ≤ p.upper)
    (hneeded : p.needed ≠ 1) (bs : List UInt8) : decodeFrom (some p) (.ofNat n :: bs) = decodeFrom (some (p.next n)) bs := by
  rw [decodeFrom, toNat_ofNat_byte hn, if_pos ⟨hlower, hupper⟩, if_neg hneeded]

theorem decodeFrom_last {n : Nat} {p : Pending} (hn : n < 256) (hlower : p.lower ≤ n) (hupper : n ≤ p.upper)
    (hneeded : p.needed = 1) (bs : List UInt8) :
    decodeFrom (some p) (.ofNat n :: bs) = some (Char.ofNat (p.next n).point) :: decodeFrom none bs := by
  rw [decodeFrom, toNat_ofNat_byte hn, if_pos ⟨hlower, hupper⟩, if_pos hneeded]

/-- **One character** is decoded from its bytes. -/
theorem decodeFrom_char (c : Char) (bs : List UInt8) :
    decodeFrom none (String.utf8EncodeChar c ++ bs) = some c :: decodeFrom none bs := by
  have hvalid : c.toNat < 0xd800 ∨ 0xdfff < c.toNat ∧ c.toNat < 0x110000 := c.valid
  have hc : ∀ n, n = c.toNat → Char.ofNat n = c := by
    rintro n rfl
    exact Char.ofNat_toNat c
  have hv : c.val.toNat = c.toNat := rfl
  rw [String.utf8EncodeChar]
  simp only [hv]
  generalize c.toNat = v at hvalid hc
  split
  · rename_i h1
    have hfirst : first v = .char (Char.ofNat v) := if_pos h1
    rw [List.cons_append, List.nil_append, decodeFrom, toNat_ofNat_byte (by omega), hfirst, hc v rfl]
  split
  · rename_i h1 h2
    have hfirst : first (v / 64 % 0x20 + 0xc0) = .lead ⟨1, 0x80, 0xbf, (v / 64 % 0x20 + 0xc0) % 0x20⟩ := by
      rw [first, if_neg (by omega), if_pos (by omega)]
    simp only [List.cons_append, List.nil_append]
    rw [decodeFrom_lead (by omega) hfirst, decodeFrom_last (by omega) (by show 0x80 ≤ _; omega) (by show _ ≤ 0xbf; omega) rfl]
    congr 2
    apply hc
    show (v / 64 % 0x20 + 0xc0) % 0x20 * 0x40 + (v % 0x40 + 0x80) % 0x40 = v
    omega
  split
  · rename_i h1 h2 h3
    have hfirst : first (v / 4096 % 0x10 + 0xe0) = .lead ⟨2, if v / 4096 % 0x10 + 0xe0 = 0xe0 then 0xa0 else 0x80,
        if v / 4096 % 0x10 + 0xe0 = 0xed then 0x9f else 0xbf, (v / 4096 % 0x10 + 0xe0) % 0x10⟩ := by
      rw [first, if_neg (by omega), if_neg (by omega), if_pos (by omega)]
    simp only [List.cons_append, List.nil_append]
    rw [decodeFrom_lead (by omega) hfirst,
      decodeFrom_more (by omega) (by show ite _ _ _ ≤ _; split <;> omega)
        (by show _ ≤ ite _ _ _; split <;> omega) (by show 2 ≠ 1; decide),
      decodeFrom_last (by omega) (by show 0x80 ≤ _; omega) (by show _ ≤ 0xbf; omega) rfl]
    congr 2
    apply hc
    show ((v / 4096 % 0x10 + 0xe0) % 0x10 * 0x40 + (v / 64 % 0x40 + 0x80) % 0x40) * 0x40 + (v % 0x40 + 0x80) % 0x40 = v
    omega
  · rename_i h1 h2 h3
    have hfirst : first (v / 262144 % 0x08 + 0xf0) = .lead ⟨3, if v / 262144 % 0x08 + 0xf0 = 0xf0 then 0x90 else 0x80,
        if v / 262144 % 0x08 + 0xf0 = 0xf4 then 0x8f else 0xbf, (v / 262144 % 0x08 + 0xf0) % 0x08⟩ := by
      rw [first, if_neg (by omega), if_neg (by omega), if_neg (by omega), if_pos (by omega)]
    simp only [List.cons_append, List.nil_append]
    rw [decodeFrom_lead (by omega) hfirst,
      decodeFrom_more (by omega) (by show ite _ _ _ ≤ _; split <;> omega)
        (by show _ ≤ ite _ _ _; split <;> omega) (by show 3 ≠ 1; decide),
      decodeFrom_more (by omega) (by show 0x80 ≤ _; omega) (by show _ ≤ 0xbf; omega) (by show 3 - 1 ≠ 1; decide),
      decodeFrom_last (by omega) (by show 0x80 ≤ _; omega) (by show _ ≤ 0xbf; omega) rfl]
    congr 2
    apply hc
    show (((v / 262144 % 0x08 + 0xf0) % 0x08 * 0x40 + (v / 4096 % 0x40 + 0x80) % 0x40) * 0x40 +
      (v / 64 % 0x40 + 0x80) % 0x40) *
      0x40 + (v % 0x40 + 0x80) % 0x40 = v
    omega

theorem decodeFrom_chars (cs : List Char) : decodeFrom none (cs.flatMap String.utf8EncodeChar) = cs.map some := by
  induction cs with
  | nil => rfl
  | cons c cs ih => rw [List.flatMap_cons, decodeFrom_char, ih, List.map_cons]

theorem utf8_toList (s : JsString) : (utf8 s).data.toList = (scalars s).flatMap String.utf8EncodeChar := by
  rw [utf8, String.toUTF8_eq_toByteArray, String.toByteArray_ofList, List.utf8Encode, List.toList_data_toByteArray]

/-- **Round trip.** What was encoded is decoded, with U+FFFD for surrogates that stand alone. -/
theorem decode_utf8 (s : JsString) : decode (utf8 s).data.toList = toWellFormed s := by
  rw [decode, utf8_toList, decodeFrom_chars, List.map_map]
  exact congrArg ofChars (List.map_id _)

theorem textDecoder_utf8 {s : JsString} (h : WellFormed s) : textDecoder (utf8 s).data.toList = dropBom s := by
  rw [textDecoder, decode_utf8, h]

/-! ## Parts of a text -/

/-- No surrogate: a character of its own. -/
def IsPlain (u : UInt16) : Prop := isHigh u = false ∧ isLow u = false

instance (u : UInt16) : Decidable (IsPlain u) := inferInstanceAs (Decidable (_ ∧ _))

theorem scalars_plain {u : UInt16} (h : IsPlain u) (s : JsString) : scalars (u :: s) = Char.ofNat u.toNat :: scalars s := by
  cases s with
  | nil =>
    show [if isHigh u || isLow u then _ else _] = _
    rw [h.1, h.2, Bool.or_self, if_neg Bool.false_ne_true]
    rfl
  | cons v s => rw [scalars, h.1, h.2, Bool.false_and, Bool.or_self, if_neg Bool.false_ne_true, if_neg Bool.false_ne_true]

theorem units_spec (c : Char) : (∃ u, IsPlain u ∧ units c = [u] ∧ Char.ofNat u.toNat = c) ∨
    ∃ hi lo, isHigh hi = true ∧ isLow lo = true ∧ units c = [hi, lo] ∧ pairChar hi lo = c := by
  have hvalid : c.toNat < 0xd800 ∨ 0xdfff < c.toNat ∧ c.toNat < 0x110000 := c.valid
  by_cases h : c.toNat < 0x10000
  · have hn : (UInt16.ofNat c.toNat).toNat = c.toNat := by
      rw [UInt16.toNat_ofNat']
      exact Nat.mod_eq_of_lt h
    refine .inl ⟨.ofNat c.toNat, ⟨?_, ?_⟩, if_pos h, ?_⟩
    · rw [← Bool.not_eq_true, isHigh_iff]
      omega
    · rw [← Bool.not_eq_true, isLow_iff]
      omega
    · rw [hn, Char.ofNat_toNat]
  · have hhi : (UInt16.ofNat (0xD800 + (c.toNat - 0x10000) / 0x400)).toNat = 0xD800 + (c.toNat - 0x10000) / 0x400 := by
      rw [UInt16.toNat_ofNat']
      exact Nat.mod_eq_of_lt (by omega)
    have hlo : (UInt16.ofNat (0xDC00 + (c.toNat - 0x10000) % 0x400)).toNat = 0xDC00 + (c.toNat - 0x10000) % 0x400 := by
      rw [UInt16.toNat_ofNat']
      exact Nat.mod_eq_of_lt (by omega)
    refine .inr ⟨_, _, isHigh_iff.mpr (by omega), isLow_iff.mpr (by omega), if_neg h, ?_⟩
    have hsum : 0x10000 + (0xD800 + (c.toNat - 0x10000) / 0x400 - 0xD800) * 0x400 +
        (0xDC00 + (c.toNat - 0x10000) % 0x400 - 0xDC00) = c.toNat := by omega
    rw [pairChar, hhi, hlo, hsum, Char.ofNat_toNat]

theorem scalars_ofChars (cs : List Char) : scalars (ofChars cs) = cs := by
  induction cs with
  | nil => rfl
  | cons c cs ih =>
    rw [ofChars_cons]
    rcases units_spec c with ⟨u, hu, hunits, rfl⟩ | ⟨hi, lo, hhi, hlo, hunits, rfl⟩
    · rw [hunits, List.singleton_append, scalars_plain hu, ih]
    · rw [hunits]
      show scalars (hi :: lo :: ofChars cs) = _
      rw [scalars, hhi, hlo, Bool.and_self, if_pos rfl, ih]

theorem wellFormed_ofChars (cs : List Char) : WellFormed (ofChars cs) := congrArg ofChars (scalars_ofChars cs)

theorem natText_injective : Function.Injective natText := by
  intro m n h
  have hdigits : Nat.toDigits 10 m = Nat.toDigits 10 n := by
    rw [← scalars_ofChars (Nat.toDigits 10 m), ← scalars_ofChars (Nat.toDigits 10 n)]
    exact congrArg scalars h
  rw [← Nat.ofDigitChars_toDigits (b := 10) (n := m) (by decide) (by decide), hdigits,
    Nat.ofDigitChars_toDigits (by decide) (by decide)]

theorem wellFormed_toWellFormed (s : JsString) : WellFormed (toWellFormed s) := wellFormed_ofChars _

theorem ofChars_append (cs ds : List Char) : ofChars (cs ++ ds) = ofChars cs ++ ofChars ds := List.flatMap_append

theorem WellFormed.append {s t : JsString} (hs : WellFormed s) (ht : WellFormed t) : WellFormed (s ++ t) := by
  rw [← hs, ← ht, toWellFormed, toWellFormed, ← ofChars_append]
  exact wellFormed_ofChars _

theorem wellFormed_plain {u : UInt16} (h : IsPlain u) : WellFormed [u] := by
  rw [WellFormed, toWellFormed, scalars_plain h]
  exact (List.append_nil _).trans (units_bmp h.1 h.2)

/-- **At a character of its own** the two parts of a text are on their own. -/
theorem toWellFormed_append {u : UInt16} (h : IsPlain u) (s t : JsString) :
    toWellFormed (s ++ u :: t) = toWellFormed s ++ u :: toWellFormed t := by
  have hscalars : scalars (s ++ u :: t) = scalars s ++ scalars (u :: t) := by
    fun_induction scalars s with
    | case1 => rfl
    | case2 v =>
      show scalars (v :: u :: t) = _
      rw [scalars, h.2, Bool.and_false, if_neg Bool.false_ne_true]
      rfl
    | case3 v w s hpair ih =>
      show scalars (v :: w :: (s ++ u :: t)) = _
      rw [scalars, if_pos hpair, ih]
      rfl
    | case4 v w s hpair ih =>
      show scalars (v :: w :: (s ++ u :: t)) = _
      rw [scalars, if_neg hpair]
      exact congrArg _ ih
  rw [toWellFormed, hscalars, scalars_plain h, ofChars_append, ofChars_cons, units_bmp h.1 h.2]
  rfl

theorem length_toWellFormed (s : JsString) : (toWellFormed s).length = s.length := by
  have hone : ∀ u, (units (if isHigh u || isLow u then '\uFFFD' else Char.ofNat u.toNat)).length = 1 := by
    intro u
    split
    · rfl
    · rename_i hu
      rw [Bool.or_eq_true, not_or, Bool.not_eq_true, Bool.not_eq_true] at hu
      rw [units_bmp hu.1 hu.2]
      rfl
  unfold toWellFormed
  fun_induction scalars s with
  | case1 => rfl
  | case2 u => rw [ofChars_cons, List.length_append, hone]; rfl
  | case3 u v s hpair ih =>
    rw [Bool.and_eq_true] at hpair
    rw [ofChars_cons, List.length_append, units_pairChar hpair.1 hpair.2, ih]
    exact Nat.add_comm _ _
  | case4 u v s hpair ih =>
    rw [ofChars_cons, List.length_append, hone, ih]
    exact Nat.add_comm _ _

theorem wellFormed_append_iff {u : UInt16} (h : IsPlain u) {s t : JsString} :
    WellFormed (s ++ u :: t) ↔ WellFormed s ∧ WellFormed t := by
  constructor
  · intro hall
    rw [WellFormed, toWellFormed_append h] at hall
    obtain ⟨hs, ht⟩ := List.append_inj hall (length_toWellFormed s)
    exact ⟨hs, (List.cons.inj ht).2⟩
  · rintro ⟨hs, ht⟩
    exact hs.append ((wellFormed_plain h).append ht)

theorem wellFormed_plain_append {s : JsString} (hs : ∀ u ∈ s, IsPlain u) {t : JsString} :
    WellFormed (s ++ t) ↔ WellFormed t := by
  induction s with
  | nil => exact Iff.rfl
  | cons u s ih =>
    have hcons : WellFormed ([] ++ u :: (s ++ t)) ↔ WellFormed [] ∧ WellFormed (s ++ t) :=
      wellFormed_append_iff (hs u List.mem_cons_self)
    rw [List.nil_append] at hcons
    rw [List.cons_append, hcons, ih fun v hv => hs v (List.mem_cons_of_mem u hv)]
    exact and_iff_right rfl

/-- Markup between two texts. -/
theorem wellFormed_markup {w : JsString} (hw : w ≠ []) (hall : ∀ u ∈ w, IsPlain u) {s t : JsString} :
    WellFormed (s ++ (w ++ t)) ↔ WellFormed s ∧ WellFormed t := by
  cases w with
  | nil => exact absurd rfl hw
  | cons u w =>
    rw [List.cons_append, wellFormed_append_iff (hall u List.mem_cons_self),
      wellFormed_plain_append fun v hv => hall v (List.mem_cons_of_mem u hv)]

theorem wellFormed_wrapped {a b : JsString} (ha : a ≠ [] ∧ ∀ u ∈ a, IsPlain u)
    (hb : b ≠ [] ∧ ∀ u ∈ b, IsPlain u) {s : JsString} :
    WellFormed (a ++ s ++ b) ↔ WellFormed s := by
  have hend : WellFormed (a ++ s ++ (b ++ [])) ↔ WellFormed (a ++ s) ∧ WellFormed [] := wellFormed_markup hb.1 hb.2
  rw [List.append_nil] at hend
  rw [hend, wellFormed_plain_append ha.2]
  exact and_iff_left rfl

/-- What writes some characters in another way, all of them of their own, leaves the pairs as they are. -/
theorem wellFormed_flatMap {write : UInt16 → JsString}
    (hwrite : ∀ u, write u = [u] ∨ IsPlain u ∧ write u ≠ [] ∧ ∀ v ∈ write u, IsPlain v) (s t : JsString) :
    WellFormed (t ++ s.flatMap write) ↔ WellFormed (t ++ s) := by
  induction s generalizing t with
  | nil => exact Iff.rfl
  | cons u s ih =>
    rw [List.flatMap_cons]
    rcases hwrite u with hu | ⟨hplain, hne, hall⟩
    · rw [hu, List.append_cons t u s, ← ih, List.append_assoc]
    · rw [wellFormed_append_iff hplain]
      have hnil : WellFormed (s.flatMap write) ↔ WellFormed s := ih []
      cases hw : write u with
      | nil => exact absurd hw hne
      | cons v w =>
        rw [hw] at hall
        rw [List.cons_append, wellFormed_append_iff (hall v List.mem_cons_self),
          wellFormed_plain_append fun u hu => hall u (List.mem_cons_of_mem v hu), hnil]

theorem mem_of_mem_dropBom {u : UInt16} {s : JsString} (h : u ∈ dropBom s) : u ∈ s := by
  cases s with
  | nil => exact h
  | cons v s =>
    rw [dropBom] at h
    split at h
    · exact List.mem_cons_of_mem _ h
    · exact h

theorem mem_dropBom {u : UInt16} (hu : u ≠ 0xfeff) {s : JsString} (h : u ∈ s) : u ∈ dropBom s := by
  cases s with
  | nil => exact h
  | cons v s =>
    rw [dropBom]
    split
    · rename_i hv
      exact (List.mem_cons.mp h).resolve_left fun heq => hu (heq.trans hv)
    · exact h

theorem dropBom_append {s : JsString} (h : s ≠ []) (t : JsString) : dropBom (s ++ t) = dropBom s ++ t := by
  obtain ⟨u, s, rfl⟩ := List.exists_cons_of_ne_nil h
  rw [List.cons_append, dropBom, dropBom]
  split <;> rfl

theorem WellFormed.dropBom {s : JsString} (h : WellFormed s) : WellFormed (dropBom s) := by
  cases s with
  | nil => exact h
  | cons u s =>
    rw [Js.dropBom]
    split
    · rename_i hu
      subst hu
      exact ((wellFormed_append_iff (s := []) (by decide)).mp h).2
    · exact h

/-- A character of its own is neither lost nor made. -/
theorem mem_toWellFormed {u : UInt16} (h : IsPlain u) {s : JsString} (hu : u ∈ s) : u ∈ toWellFormed s := by
  obtain ⟨front, back, rfl⟩ := List.append_of_mem hu
  rw [toWellFormed_append h]
  exact List.mem_append_right _ List.mem_cons_self

theorem mem_of_mem_toWellFormed {u : UInt16} (hne : u ≠ 0xfffd) {s : JsString} (hu : u ∈ toWellFormed s) :
    u ∈ s := by
  have hone : ∀ v, u ∈ units (if isHigh v || isLow v then '\uFFFD' else Char.ofNat v.toNat) → u = v := by
    intro v hv
    split at hv
    · exact absurd (List.mem_singleton.mp hv) hne
    · rename_i hplain
      rw [Bool.or_eq_true, not_or, Bool.not_eq_true, Bool.not_eq_true] at hplain
      rw [units_bmp hplain.1 hplain.2] at hv
      exact List.mem_singleton.mp hv
  unfold toWellFormed at hu
  fun_induction scalars s with
  | case1 => exact hu
  | case2 v =>
    rw [ofChars_cons, List.mem_append] at hu
    exact hu.elim (fun hu => List.mem_singleton.mpr (hone v hu)) (fun hu => absurd hu List.not_mem_nil)
  | case3 v w s hpair ih =>
    rw [Bool.and_eq_true] at hpair
    rw [ofChars_cons, List.mem_append, units_pairChar hpair.1 hpair.2] at hu
    exact hu.elim (fun hu => List.mem_append_left s hu) (fun hu => List.mem_append_right [v, w] (ih hu))
  | case4 v w s hpair ih =>
    rw [ofChars_cons, List.mem_append] at hu
    exact hu.elim (fun hu => hone v hu ▸ List.mem_cons_self) (fun hu => List.mem_cons_of_mem _ (ih hu))

end Js
