import MaterialOpenWebui.Js.Text

/-!
# `Js.Bytes` — the bytes of a text, and bytes as text

`TextEncoder` encodes the scalar values of a string, with U+FFFD in place of a surrogate that stands alone.
Bytes are shown as two hexadecimal digits each, so equal texts show equal bytes
(`flatMap_hexByte_injective`).
-/

namespace Js

/-- The scalar values of a string. -/
def scalars : JsString → List Char
  | [] => []
  | [u] => [if isHigh u || isLow u then '\uFFFD' else Char.ofNat u.toNat]
  | u :: v :: s =>
    if isHigh u && isLow v then pairChar u v :: scalars s
    else (if isHigh u || isLow u then '\uFFFD' else Char.ofNat u.toNat) :: scalars (v :: s)

/-- `new TextEncoder().encode(s)`. -/
def utf8 (s : JsString) : ByteArray := (String.ofList (scalars s)).toUTF8

/-- `b.toString(16).padStart(2, '0')` of a byte. -/
def hexByte (b : UInt8) : JsString :=
  ofChars [(b.toNat / 16).digitChar, (b.toNat % 16).digitChar]

theorem length_units_digitChar : ∀ d < 16, (units d.digitChar).length = 1 := by decide

theorem length_hexByte (b : UInt8) : (hexByte b).length = 2 := by
  have hb : b.toNat < 256 := b.toNat_lt
  have h1 := length_units_digitChar (b.toNat / 16) (by omega)
  have h2 := length_units_digitChar (b.toNat % 16) (by omega)
  simp [hexByte, ofChars, h1, h2]

theorem hexByte_injective : Function.Injective hexByte := by
  have hdigit : ∀ i < 16, ∀ j < 16, units i.digitChar = units j.digitChar → i = j := by decide
  intro a b h
  have ha : a.toNat < 256 := a.toNat_lt
  have hb : b.toNat < 256 := b.toNat_lt
  have hlen := length_units_digitChar (a.toNat / 16) (by omega)
  have hlen' := length_units_digitChar (b.toNat / 16) (by omega)
  simp only [hexByte, ofChars_cons] at h
  obtain ⟨hhigh, hlow⟩ := List.append_inj h (by rw [hlen, hlen'])
  have h1 := hdigit _ (by omega) _ (by omega) hhigh
  have h2 := hdigit (a.toNat % 16) (by omega) (b.toNat % 16) (by omega) (by simpa [ofChars] using hlow)
  exact UInt8.toNat_inj.mp (by omega)

/-- Texts made of blocks of two units are equal block by block. -/
theorem flatMap_hexByte_injective : ∀ {l m : List UInt8}, l.flatMap hexByte = m.flatMap hexByte → l = m := by
  intro l
  induction l with
  | nil =>
    intro m h
    cases m with
    | nil => rfl
    | cons b m =>
      have hlen := congrArg List.length h
      simp [length_hexByte] at hlen
      omega
  | cons a l ih =>
    intro m h
    cases m with
    | nil =>
      have hlen := congrArg List.length h
      simp [length_hexByte] at hlen
    | cons b m =>
      rw [List.flatMap_cons, List.flatMap_cons] at h
      obtain ⟨hab, hlm⟩ := List.append_inj h (by rw [length_hexByte, length_hexByte])
      rw [hexByte_injective hab, ih hlm]

end Js
