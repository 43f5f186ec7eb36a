import Mathlib.Data.Nat.Bitwise
import MaterialOpenWebui.Logo.Dimensions

/-!
# `Logo.Headers` — files that end within their header

Most formats are asked for their length before their size is read. A GIF and the three kinds of WebP are not: what is missing of them
reads as zero, and a size comes out all the same.
-/

namespace MaterialOpenWebui
namespace Logo
open Js Guarded

/-! ## Kinds -/

inductive Kind where
  | png
  | gif
  | bmp
  | vp8x
  | vp8
  | vp8l
  | otherWebp
  | jpeg
  | none
deriving DecidableEq

/-- What a file is by its first bytes. -/
def kindOf (u8 : List UInt8) : Kind :=
  if starts u8 0 pngSignature then .png
  else if starts u8 0 gif8 then .gif
  else if starts u8 0 bm then .bmp
  else if starts u8 0 riff ∧ starts u8 8 webp then
    if starts u8 12 vp8x then .vp8x else if starts u8 12 vp8 then .vp8 else if starts u8 12 vp8l then .vp8l else .otherWebp
  else if starts u8 0 jpegStart then .jpeg
  else .none

/-- How long a file has to be for its size to be in it, where it is read without a look at the length. -/
def headerLength : Kind → Nat
  | .gif => 10
  | .vp8x => 30
  | .vp8 => 30
  | .vp8l => 25
  | _ => 0

/-- The file ends before the size that is read. -/
def CutShort (u8 : List UInt8) : Prop := u8.length < headerLength (kindOf u8)

instance (u8 : List UInt8) : Decidable (CutShort u8) := inferInstanceAs (Decidable (_ < _))

section
variable {u8 : List UInt8}

@[simp] theorem result_isWebp : (isWebp u8).result = .ok (starts u8 0 riff && starts u8 8 webp) := by
  rw [isWebp, result_of_ok (result_has 0 riff)]
  cases starts u8 0 riff
  · rfl
  · exact result_has 8 webp

@[simp] theorem inside_isWebp : Inside u8 (isWebp u8) := by
  rw [isWebp, inside_bind]
  refine ⟨inside_has 0 riff, fun found _ => ?_⟩
  split_ifs
  · exact inside_has 8 webp
  · exact inside_pure false

/-- The reader of a kind. -/
def readKind (u8 : List UInt8) : Kind → Reading Dimensions
  | .png => readPng u8
  | .gif => readGif u8
  | .bmp => readBmp u8
  | .jpeg => readJpeg u8 (u8.length + 1) 2
  | .vp8x => readVp8x u8
  | .vp8 => readVp8 u8
  | .vp8l => readVp8l u8
  | .otherWebp => fail webpUnrecognised
  | .none => fail unreadable

/-- The same result, from bytes that are in the file or are not alike. -/
def Same (u8 : List UInt8) (x y : Reading Dimensions) : Prop := x.result = y.result ∧ (Inside u8 x ↔ Inside u8 y)

theorem same_choose {test : Reading Bool} {c : Bool} (htest : test.result = .ok c) (hinside : Inside u8 test)
    {x y z : Reading Dimensions}
    (h : Same u8 (if c = true then x else y) z) : Same u8 (test >>= fun found => if found = true then x else y) z := by
  refine ⟨(result_of_ok htest _).trans h.1, ?_⟩
  rw [inside_bind, htest, and_iff_right hinside]
  simp only [Except.ok.injEq, forall_eq']
  exact h.2

/-- `readDimensions` finds out the kind, and reads that. -/
theorem readDimensions_same : Same u8 (readDimensions u8) (readKind u8 (kindOf u8)) := by
  unfold readDimensions kindOf
  refine same_choose (result_has _ _) (inside_has _ _) ?_
  by_cases hpng : starts u8 0 pngSignature = true
  · rw [if_pos hpng, if_pos hpng]
    exact ⟨rfl, Iff.rfl⟩
  rw [if_neg hpng, if_neg hpng]
  refine same_choose (result_has _ _) (inside_has _ _) ?_
  by_cases hgif : starts u8 0 gif8 = true
  · rw [if_pos hgif, if_pos hgif]
    exact ⟨rfl, Iff.rfl⟩
  rw [if_neg hgif, if_neg hgif]
  refine same_choose (result_has _ _) (inside_has _ _) ?_
  by_cases hbm : starts u8 0 bm = true
  · rw [if_pos hbm, if_pos hbm]
    exact ⟨rfl, Iff.rfl⟩
  rw [if_neg hbm, if_neg hbm]
  refine same_choose result_isWebp inside_isWebp ?_
  by_cases hwebp : starts u8 0 riff = true ∧ starts u8 8 webp = true
  · rw [if_pos (Bool.and_eq_true _ _ ▸ hwebp), if_pos hwebp]
    refine same_choose (result_has _ _) (inside_has _ _) ?_
    by_cases hvp8x : starts u8 12 vp8x = true
    · rw [if_pos hvp8x, if_pos hvp8x]
      exact ⟨rfl, Iff.rfl⟩
    rw [if_neg hvp8x, if_neg hvp8x]
    refine same_choose (result_has _ _) (inside_has _ _) ?_
    by_cases hvp8 : starts u8 12 vp8 = true
    · rw [if_pos hvp8, if_pos hvp8]
      exact ⟨rfl, Iff.rfl⟩
    rw [if_neg hvp8, if_neg hvp8]
    refine same_choose (result_has _ _) (inside_has _ _) ?_
    by_cases hvp8l : starts u8 12 vp8l = true
    · rw [if_pos hvp8l, if_pos hvp8l]
      exact ⟨rfl, Iff.rfl⟩
    · rw [if_neg hvp8l, if_neg hvp8l]
      exact ⟨rfl, Iff.rfl⟩
  rw [if_neg (fun h => hwebp ((Bool.and_eq_true _ _).mp h)), if_neg hwebp]
  refine same_choose (result_has _ _) (inside_has _ _) ?_
  by_cases hjpeg : starts u8 0 jpegStart = true
  · rw [if_pos hjpeg, if_pos hjpeg]
    exact ⟨rfl, Iff.rfl⟩
  · rw [if_neg hjpeg, if_neg hjpeg]
    exact ⟨rfl, Iff.rfl⟩

theorem inside_readGif : Inside u8 (readGif u8) ↔ 10 ≤ u8.length := by
  have hframes : Inside u8 (gifFrames u8 (u8.length - 13) 13) := by
    by_cases hlen : 13 ≤ u8.length
    · exact inside_gifFrames (by omega)
    · have hnone : u8.length - 13 = 0 := by omega
      rw [hnone]
      exact inside_pure 0
  obtain ⟨frames, hresult⟩ := exists_gifFrames u8 (u8.length - 13) 13
  simp only [readGif, inside_bind, inside_le16, inside_pure, hresult, result_le16, Except.ok.injEq,
    forall_eq', and_true, hframes,
    true_and]
  omega

theorem inside_readVp8x : Inside u8 (readVp8x u8) ↔ 30 ≤ u8.length := by
  simp only [readVp8x, inside_bind, inside_le24, inside_byteAt, inside_pure, result_le24, result_byteAt,
    Except.ok.injEq, forall_eq',
    and_true]
  omega

theorem inside_readVp8 : Inside u8 (readVp8 u8) ↔ 30 ≤ u8.length := by
  simp only [readVp8, inside_bind, inside_le16, inside_pure, result_le16, Except.ok.injEq, forall_eq', and_true]
  omega

theorem inside_readVp8l : Inside u8 (readVp8l u8) ↔ 25 ≤ u8.length := by
  simp only [readVp8l, inside_bind, inside_le32, inside_pure, implies_true, and_true]
  omega

/-- **What is read is in the file**, if the file does not end within its header. -/
theorem inside_readDimensions : Inside u8 (readDimensions u8) ↔ ¬ CutShort u8 := by
  rw [readDimensions_same.2, CutShort, Nat.not_lt]
  cases kindOf u8 with
  | png => exact iff_of_true inside_readPng (Nat.zero_le _)
  | gif => exact inside_readGif
  | bmp => exact iff_of_true inside_readBmp (Nat.zero_le _)
  | vp8x => exact inside_readVp8x
  | vp8 => exact inside_readVp8
  | vp8l => exact inside_readVp8l
  | otherWebp => exact iff_of_true (inside_fail _) (Nat.zero_le _)
  | jpeg => exact iff_of_true (inside_readJpeg _ _) (Nat.zero_le _)
  | none => exact iff_of_true (inside_fail _) (Nat.zero_le _)

/-! ## The size that comes out -/

/-- Width and height where a file that is cut short has them, and zero for what it does not have. -/
def sizeOf (u8 : List UInt8) : Kind → Nat × Nat
  | .gif => (byte u8 6 + 256 * byte u8 7, byte u8 8 + 256 * byte u8 9)
  | .vp8x =>
    (1 + (byte u8 24 + 256 * byte u8 25 + 65536 * byte u8 26), 1 + (byte u8 27 + 256 * byte u8 28 + 65536 * byte u8 29))
  | .vp8 => ((byte u8 26 + 256 * byte u8 27) % 16384, (byte u8 28 + 256 * byte u8 29) % 16384)
  | .vp8l =>
    let bits := byte u8 21 + 256 * byte u8 22 + 65536 * byte u8 23 + 16777216 * byte u8 24
    (bits % 16384 + 1, bits / 16384 % 16384 + 1)
  | _ => (0, 0)

theorem byte_lt (pos : Nat) : byte u8 pos < 256 := by
  unfold byte
  cases u8[pos]? with
  | none => exact Nat.zero_lt_succ _
  | some b => exact UInt8.toNat_lt b

/-- Bytes do not overlap, so the bit operations add them up. -/
theorem or_shiftLeft {low : Nat} (n k : Nat) (h : low < 2 ^ k) : low ||| n <<< k = low + 2 ^ k * n := by
  rw [Nat.or_comm, ← Nat.shiftLeft_add_eq_or_of_lt h, Nat.shiftLeft_eq, Nat.add_comm, Nat.mul_comm]

theorem le16_value (pos : Nat) : byte u8 pos ||| byte u8 (pos + 1) <<< 8 = byte u8 pos + 256 * byte u8 (pos + 1) :=
  or_shiftLeft _ 8 (byte_lt pos)

theorem le24_value (pos : Nat) : byte u8 pos ||| byte u8 (pos + 1) <<< 8 ||| byte u8 (pos + 2) <<< 16 =
    byte u8 pos + 256 * byte u8 (pos + 1) + 65536 * byte u8 (pos + 2) := by
  have h₀ : byte u8 pos < 256 := byte_lt _
  have h₁ : byte u8 (pos + 1) < 256 := byte_lt _
  rw [le16_value]
  exact or_shiftLeft _ 16 (by omega)

theorem le32_value (pos : Nat) :
    byte u8 pos ||| byte u8 (pos + 1) <<< 8 ||| byte u8 (pos + 2) <<< 16 ||| byte u8 (pos + 3) <<< 24 =
      byte u8 pos + 256 * byte u8 (pos + 1) + 65536 * byte u8 (pos + 2) + 16777216 * byte u8 (pos + 3) := by
  have h₀ : byte u8 pos < 256 := byte_lt _
  have h₁ : byte u8 (pos + 1) < 256 := byte_lt _
  have h₂ : byte u8 (pos + 2) < 256 := byte_lt _
  rw [le24_value]
  exact or_shiftLeft _ 24 (by omega)

theorem and_14 (n : Nat) : n &&& 0x3fff = n % 16384 := Nat.and_two_pow_sub_one_eq_mod n 14

/-- **A size comes out** of a file that is cut short, whatever is missing. -/
theorem readDimensions_size (h : CutShort u8) : ∃ frames format,
    (readDimensions u8).result = .ok ⟨(sizeOf u8 (kindOf u8)).1, (sizeOf u8 (kindOf u8)).2, frames, format⟩ := by
  rw [readDimensions_same.1]
  unfold CutShort at h
  cases hkind : kindOf u8 with
  | gif =>
    obtain ⟨frames, hframes⟩ := exists_gifFrames u8 (u8.length - 13) 13
    refine ⟨max 1 frames, .gif, (result_of_ok hframes _).trans ?_⟩
    show Except.ok (Dimensions.mk _ _ _ _) = _
    rw [le16_value, le16_value]
    rfl
  | vp8x =>
    refine ⟨if byte u8 20 &&& 0x02 ≠ 0 then 2 else 1, .webp, ?_⟩
    show Except.ok (Dimensions.mk (1 + _) (1 + _) _ _) = _
    rw [le24_value, le24_value]
    rfl
  | vp8 =>
    refine ⟨1, .webp, ?_⟩
    show Except.ok (Dimensions.mk (_ &&& 0x3fff) (_ &&& 0x3fff) _ _) = _
    rw [le16_value, le16_value, and_14, and_14]
    rfl
  | vp8l =>
    refine ⟨1, .webp, ?_⟩
    show Except.ok (Dimensions.mk ((_ &&& 0x3fff) + 1) ((_ >>> 14 &&& 0x3fff) + 1) _ _) = _
    rw [le32_value, and_14, and_14, Nat.shiftRight_eq_div_pow]
    rfl
  | _ =>
    rw [hkind] at h
    exact absurd h (Nat.not_lt_zero _)

end

end Logo
end MaterialOpenWebui
