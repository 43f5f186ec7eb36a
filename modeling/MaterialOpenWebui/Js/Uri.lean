import MaterialOpenWebui.Js.Decoder

/-!
# `Js.Uri` — texts in percent coding

Bytes as `%` and two hexadecimal digits. `encodeURIComponent` leaves letters, digits and some punctuation as they are; a form
writes a space as `+` and leaves less. The first refuses a surrogate that stands alone, and what reads it refuses bytes that are no
text; a form has U+FFFD for both.
-/

namespace Js

/-! ## Bytes -/

/-- A digit in upper case. -/
def upperHex (d : Nat) : UInt16 := .ofNat (if d < 10 then 0x30 + d else 0x37 + d)

/-- The value of a hexadecimal digit of either case. -/
def hexDigit (u : UInt16) : Option Nat :=
  if 0x30 ≤ u ∧ u ≤ 0x39 then some (u.toNat - 0x30)
  else if 0x41 ≤ u ∧ u ≤ 0x46 then some (u.toNat - 0x37)
  else if 0x61 ≤ u ∧ u ≤ 0x66 then some (u.toNat - 0x57)
  else none

/-- The sign before the digits of a byte. -/
def percent : UInt16 := 0x25

def percentByte (b : UInt8) : JsString := [percent, upperHex (b.toNat / 16), upperHex (b.toNat % 16)]

/-- The byte of two digits. -/
def percented (u v : UInt16) : Option UInt8 :=
  (hexDigit u).bind fun high => (hexDigit v).map fun low => .ofNat (16 * high + low)

theorem hexDigit_upperHex : ∀ d < 16, hexDigit (upperHex d) = some d := by decide

theorem percented_byte (b : UInt8) : percented (upperHex (b.toNat / 16)) (upperHex (b.toNat % 16)) = some b := by
  have hb : b.toNat < 256 := b.toNat_lt
  have hsum : 16 * (b.toNat / 16) + b.toNat % 16 = b.toNat := Nat.div_add_mod b.toNat 16
  unfold percented
  rw [hexDigit_upperHex _ (by omega), hexDigit_upperHex _ (Nat.mod_lt _ (by decide)), Option.bind_some, Option.map_some, hsum,
    UInt8.ofNat_toNat]

/-- A letter or a digit. -/
def isAlnum (u : UInt16) : Bool := (0x30 ≤ u && u ≤ 0x39) || (0x41 ≤ u && u ≤ 0x5a) || (0x61 ≤ u && u ≤ 0x7a)

theorem isAlnum_upperHex : ∀ d < 16, isAlnum (upperHex d) = true := by decide

theorem mem_percentByte {b : UInt8} {u : UInt16} (h : u ∈ percentByte b) : u = percent ∨ isAlnum u = true := by
  have hb : b.toNat < 256 := b.toNat_lt
  rcases List.mem_cons.mp h with rfl | h
  · exact .inl rfl
  rcases List.mem_cons.mp h with rfl | h
  · exact .inr (isAlnum_upperHex _ (by omega))
  · rw [List.mem_singleton.mp h]
    exact .inr (isAlnum_upperHex _ (Nat.mod_lt _ (by decide)))

/-! ## Components -/

/-- What `encodeURIComponent` leaves as it is. -/
def isUnreserved (u : UInt16) : Bool := isAlnum u || (js "-_.!~*'()").contains u

/-- A character in a component. -/
def componentChar (c : Char) : JsString :=
  match units c with
  | [u] => if isUnreserved u then [u] else (String.utf8EncodeChar c).flatMap percentByte
  | _ => (String.utf8EncodeChar c).flatMap percentByte

/-- `none` where it throws. -/
def encodeURIComponent (s : JsString) : Option JsString :=
  if WellFormed s then some ((scalars s).flatMap componentChar) else none

/-- Escapes that follow one another are the bytes of a text. -/
def readComponent : List UInt8 → JsString → Option JsString
  | pending, [] => decodeFatal pending
  | pending, u :: s =>
    if u = percent then
      match s with
      | high :: low :: rest => (percented high low).bind fun b => readComponent (pending ++ [b]) rest
      | _ => none
    else (decodeFatal pending).bind fun text => (readComponent [] s).map fun rest => text ++ u :: rest

def decodeURIComponent (s : JsString) : Option JsString := readComponent [] s

theorem readComponent_plain {u : UInt16} (hu : u ≠ percent) (pending : List UInt8) (s : JsString) :
    readComponent pending (u :: s) = (decodeFatal pending).bind fun text => (readComponent [] s).map
      fun rest => text ++ u :: rest := by
  rcases s with _ | ⟨v, _ | ⟨w, s⟩⟩ <;> exact if_neg hu

theorem readComponent_escape {u v : UInt16} {b : UInt8} (h : percented u v = some b) (pending : List UInt8) (s : JsString) :
    readComponent pending (percent :: u :: v :: s) = readComponent (pending ++ [b]) s := by
  show (percented u v).bind _ = _
  rw [h, Option.bind_some]

theorem readComponent_bytes (bytes : List UInt8) (pending : List UInt8) (s : JsString) :
    readComponent pending (bytes.flatMap percentByte ++ s) = readComponent (pending ++ bytes) s := by
  induction bytes generalizing pending with
  | nil => exact congrArg (readComponent · s) (List.append_nil pending).symm
  | cons b bytes ih =>
    rw [List.flatMap_cons, List.append_assoc, List.append_cons pending b bytes, ← ih]
    exact readComponent_escape (percented_byte b) pending _

theorem decodeFatal_chars (cs : List Char) : decodeFatal (cs.flatMap String.utf8EncodeChar) = some (ofChars cs) := by
  have hall : (cs.map some).mapM id = some cs := by
    induction cs with
    | nil => rfl
    | cons c cs ih =>
      rw [List.map_cons, List.mapM_cons, ih]
      rfl
  rw [decodeFatal, decodeFrom_chars, hall]
  rfl

/-- A character is written as it is, or as its bytes. -/
theorem componentChar_spec (c : Char) : (∃ u, units c = [u] ∧ isUnreserved u = true ∧ componentChar c = [u]) ∨
    componentChar c = (String.utf8EncodeChar c).flatMap percentByte := by
  rcases units_spec c with ⟨u, -, hunits, -⟩ | ⟨hi, lo, -, -, hunits, -⟩
  · by_cases hu : isUnreserved u = true
    · refine .inl ⟨u, hunits, hu, ?_⟩
      rw [componentChar, hunits]
      exact if_pos hu
    · refine .inr ?_
      rw [componentChar, hunits]
      exact if_neg hu
  · refine .inr ?_
    rw [componentChar, hunits]

theorem readComponent_chars (cs ps : List Char) :
    readComponent (ps.flatMap String.utf8EncodeChar) (cs.flatMap componentChar) = some (ofChars (ps ++ cs)) := by
  induction cs generalizing ps with
  | nil =>
    rw [List.append_nil]
    exact decodeFatal_chars ps
  | cons c cs ih =>
    rw [List.flatMap_cons]
    rcases componentChar_spec c with ⟨u, hunits, hu, hc⟩ | hc
    · have hne : u ≠ percent := by
        rintro rfl
        exact absurd hu (by decide)
      have hrest : readComponent [] (cs.flatMap componentChar) = some (ofChars cs) := ih []
      rw [hc, List.singleton_append, readComponent_plain hne, decodeFatal_chars, Option.bind_some, hrest, Option.map_some,
        ofChars_append, ofChars_cons, hunits]
      rfl
    · have hbytes : ps.flatMap String.utf8EncodeChar ++ String.utf8EncodeChar c =
        (ps ++ [c]).flatMap String.utf8EncodeChar := by
        rw [List.flatMap_append, List.flatMap_singleton]
      rw [hc, readComponent_bytes, hbytes, ih, List.append_assoc]
      rfl

/-- **Round trip.** A component is read as it was. -/
theorem decode_component {s coded : JsString} (h : encodeURIComponent s = some coded) :
    decodeURIComponent coded = some s := by
  unfold encodeURIComponent at h
  split at h
  · rename_i hs
    cases h
    exact (readComponent_chars (scalars s) []).trans (congrArg some hs)
  · cases h

/-- What a component is written with. -/
theorem mem_component {s coded : JsString} (h : encodeURIComponent s = some coded) {u : UInt16} (hu : u ∈ coded) :
    isUnreserved u = true ∨ u = percent := by
  unfold encodeURIComponent at h
  split at h
  · cases h
    obtain ⟨c, -, hu⟩ := List.mem_flatMap.mp hu
    rcases componentChar_spec c with ⟨v, -, hv, hc⟩ | hc
    · rw [hc, List.mem_singleton] at hu
      exact .inl (hu ▸ hv)
    · rw [hc] at hu
      obtain ⟨b, -, hu⟩ := List.mem_flatMap.mp hu
      rcases mem_percentByte hu with rfl | hu
      · exact .inr rfl
      · exact .inl (by rw [isUnreserved, hu, Bool.true_or])
  · cases h

/-! ## Forms -/

/-- What a form leaves as it is. -/
def isFormUnit (u : UInt16) : Bool := isAlnum u || (js "*-._").contains u

def formByte (b : UInt8) : JsString :=
  if b = 0x20 then js "+" else if isFormUnit b.toUInt16 then [b.toUInt16] else percentByte b

/-- A name or a value as `URLSearchParams` writes it. -/
def formValue (s : JsString) : JsString := (utf8 s).data.toList.flatMap formByte

/-- The byte of the two digits after a sign. -/
def escape? : JsString → Option UInt8
  | high :: low :: _ => percented high low
  | _ => none

/-- The bytes of a name or a value, which is in ASCII in a URL, after `skip` units; a sign without two digits is left as it is. -/
def formBytes : Nat → JsString → List UInt8
  | _, [] => []
  | skip + 1, _ :: s => formBytes skip s
  | 0, u :: s =>
    if u = percent then
      match escape? s with
      | some b => b :: formBytes 2 s
      | none => 0x25 :: formBytes 0 s
    else (if u = 0x2b then 0x20 else u.toUInt8) :: formBytes 0 s

/-- A name or a value as `URLSearchParams` reads it. -/
def readForm (s : JsString) : JsString := decode (formBytes 0 s)

theorem formBytes_plain {u : UInt16} (hu : u ≠ percent) (s : JsString) :
    formBytes 0 (u :: s) = (if u = 0x2b then 0x20 else u.toUInt8) :: formBytes 0 s := if_neg hu

theorem formBytes_formByte (b : UInt8) (s : JsString) : formBytes 0 (formByte b ++ s) = b :: formBytes 0 s := by
  unfold formByte
  split
  · rename_i hb
    subst hb
    exact formBytes_plain (by decide) s
  split
  · rename_i hform
    have hne : ∀ v, isFormUnit v = false → b.toUInt16 ≠ v := by
      rintro v hv rfl
      rw [hv] at hform
      exact absurd hform Bool.false_ne_true
    rw [List.singleton_append, formBytes_plain (hne percent (by decide)),
      if_neg (hne 0x2b (by decide)), UInt8.toUInt8_toUInt16]
  · show formBytes 0 (percent :: upperHex (b.toNat / 16) :: upperHex (b.toNat % 16) :: s) = _
    rw [formBytes, if_pos rfl, escape?, percented_byte]
    rfl

/-- **Round trip.** A value of a form is read as it was, with U+FFFD for surrogates that stand alone. -/
theorem readForm_formValue (s : JsString) : readForm (formValue s) = toWellFormed s := by
  have hbytes : ∀ bytes : List UInt8, formBytes 0 (bytes.flatMap formByte) = bytes := by
    intro bytes
    induction bytes with
    | nil => rfl
    | cons b bytes ih => rw [List.flatMap_cons, formBytes_formByte, ih]
  rw [readForm, formValue, hbytes, decode_utf8]

/-- What a value of a form is written with. -/
theorem mem_formValue {s : JsString} {u : UInt16} (hu : u ∈ formValue s) : isFormUnit u = true ∨ u = percent ∨ u = 0x2b := by
  obtain ⟨b, -, hu⟩ := List.mem_flatMap.mp hu
  unfold formByte at hu
  split at hu
  · exact .inr (.inr (List.mem_singleton.mp hu))
  split at hu
  · rename_i hform
    exact .inl (List.mem_singleton.mp hu ▸ hform)
  · rcases mem_percentByte hu with rfl | hu
    · exact .inr (.inl rfl)
    · exact .inl (by rw [isFormUnit, hu, Bool.true_or])

/-! ## Ends -/

theorem dropWhile_of_forall {α : Type} {p : α → Bool} {s : List α} (h : ∀ a ∈ s, p a = false) : s.dropWhile p = s := by
  cases s with
  | nil => rfl
  | cons a s => rw [List.dropWhile_cons, h a List.mem_cons_self, if_neg Bool.false_ne_true]

theorem trim_of_visible {s : JsString} (h : ∀ u ∈ s, isSpace u = false) : trim s = s := by
  rw [trim, dropWhile_of_forall h, dropWhile_of_forall fun u hu => h u (List.mem_reverse.mp hu), List.reverse_reverse]

end Js
