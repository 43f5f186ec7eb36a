import MaterialOpenWebui.Js.Bytes
import Mathlib.Data.List.Induction
import Mathlib.Data.List.Perm.Basic

/-!
# `Qr.Codewords` — the codewords of a QR code (`app/js/core/qr.js`)

A text is written as bytes behind a mode and a count, padded to the capacity of the smallest version that holds it, and cut
into blocks; each block gets error-correction bytes of its own, and the bytes of all blocks are interleaved.

What comes after, the placement of the codewords and the masks, is in `Qr.Placement`.
-/

namespace MaterialOpenWebui
namespace Qr
open Js

/-! ## GF(256) -/

/-- `x <<= 1; if (x & 0x100) x ^= 0x11d`. -/
def double (x : Nat) : Nat :=
  let x := x <<< 1
  if x &&& 0x100 ≠ 0 then x ^^^ 0x11d else x

structure Tables where
  x : Nat
  EXP : List UInt8
  LOG : List UInt8

/-- One turn of the first loop of `initTables`. -/
def Tables.fill (t : Tables) (i : Nat) : Tables where
  x := double t.x
  EXP := t.EXP.set i (.ofNat t.x)
  LOG := t.LOG.set t.x (.ofNat i)

def initTables : Tables :=
  let t := (List.range 255).foldl Tables.fill ⟨1, List.replicate 512 0, List.replicate 256 0⟩
  { t with EXP := (List.range' 255 257).foldl (fun EXP i => EXP.set i (EXP.getD (i - 255) 0)) t.EXP }

def EXP (i : Nat) : UInt8 := initTables.EXP.getD i 0

def LOG (x : UInt8) : Nat := (initTables.LOG.getD x.toNat 0).toNat

def gfMul (a b : UInt8) : UInt8 := if a = 0 ∨ b = 0 then 0 else EXP (LOG a + LOG b)

/-! ## Reed–Solomon -/

/-- One turn of the inner loop of `rsGenerator`. -/
def spread (poly : List UInt8) (e : UInt8) (next : List UInt8) (j : Nat) : List UInt8 :=
  let next := next.set j (next.getD j 0 ^^^ gfMul (poly.getD j 0) e)
  next.set (j + 1) (next.getD (j + 1) 0 ^^^ poly.getD j 0)

def rsGenerator (degree : Nat) : List UInt8 :=
  (List.range degree).foldl (fun poly i =>
    (List.range poly.length).foldl (spread poly (EXP i)) (List.replicate (poly.length + 1) 0)) [1]

/-- One turn of the loop of `rsEncode`: the bytes are moved down by one, and a multiple of the generator is added. -/
def rsTurn (gen : List UInt8) (eccLength : Nat) (result : List UInt8) (byte : UInt8) : List UInt8 :=
  let factor := byte ^^^ result.getD 0 0
  let result := result.tail ++ result.getLast?.toList
  let result := result.set (eccLength - 1) 0
  result.zipIdx.map fun p => p.1 ^^^ gfMul (gen.getD (p.2 + 1) 0) factor

def rsEncode (data : List UInt8) (eccLength : Nat) : List UInt8 :=
  data.foldl (rsTurn (rsGenerator eccLength) eccLength) (List.replicate eccLength 0)

/-! ## Versions -/

structure Version where
  total : Nat
  eccLength : Nat
  g1 : Nat
  g1cw : Nat
  g2 : Nat
  g2cw : Nat
  deriving DecidableEq

def VERSIONS : Nat → Option Version
  | 1 => some ⟨26, 10, 1, 16, 0, 0⟩
  | 2 => some ⟨44, 16, 1, 28, 0, 0⟩
  | 3 => some ⟨70, 26, 1, 44, 0, 0⟩
  | 4 => some ⟨100, 18, 2, 32, 0, 0⟩
  | 5 => some ⟨134, 24, 2, 43, 0, 0⟩
  | 6 => some ⟨172, 16, 4, 27, 0, 0⟩
  | 7 => some ⟨196, 18, 4, 31, 0, 0⟩
  | 8 => some ⟨242, 22, 2, 38, 2, 39⟩
  | 9 => some ⟨292, 22, 3, 36, 2, 37⟩
  | 10 => some ⟨346, 26, 4, 43, 1, 44⟩
  | _ => none

def Version.dataCapacity (v : Version) : Nat := v.g1 * v.g1cw + v.g2 * v.g2cw

def countBits (version : Nat) : Nat := if version < 10 then 8 else 16

/-- The first version that is large enough; `none` where it throws. -/
def chooseVersion (byteLength : Nat) : Option (Nat × Version) :=
  ((List.range' 1 10).filterMap fun v => (VERSIONS v).map fun spec => (v, spec)).find? fun p =>
    4 + countBits p.1 + byteLength * 8 ≤ p.2.dataCapacity * 8

/-- The version in which `encode` draws a text, if it does. -/
def accepts (text : JsString) : Option (Nat × Version) :=
  if text = [] then none else chooseVersion (utf8 text).size

/-! ## Bits -/

def push (bits : List Bool) (value length : Nat) : List Bool :=
  bits ++ (List.range length).reverse.map fun i => decide ((value >>> i) &&& 1 = 1)

def toBytes (bits : List Bool) : List UInt8 :=
  bits.zipIdx.foldl (fun out p =>
    if p.1 then out.set (p.2 >>> 3) (out.getD (p.2 >>> 3) 0 ||| UInt8.ofNat (0x80 >>> (p.2 &&& 7))) else out)
    (List.replicate ((bits.length + 7) / 8) 0)

/-! ## Codewords -/

def PADS : List UInt8 := [0xec, 0x11]

/-- The bytes of a text up to the capacity of a version. -/
def paddedData (text : JsString) (version : Nat) (spec : Version) : List UInt8 :=
  let bytes := (utf8 text).data.toList
  let capacity := spec.dataCapacity
  let bits := push [] 0b0100 4
  let bits := push bits bytes.length (countBits version)
  let bits := bytes.foldl (fun bits b => push bits b.toNat 8) bits
  let bits := push bits 0 (min 4 (capacity * 8 - bits.length))
  let bits := bits ++ List.replicate ((8 - bits.length % 8) % 8) false
  let data := toBytes bits
  data ++ (List.range (capacity - data.length)).map fun padIndex => PADS.getD (padIndex % 2) 0

/-- `count` slices of `cw` bytes each. -/
def slices (data : List UInt8) (cw : Nat) : Nat → Nat → List (List UInt8)
  | 0, _ => []
  | count + 1, offset => (data.drop offset).take cw :: slices data cw count (offset + cw)

def dataBlocks (text : JsString) (version : Nat) (spec : Version) : List (List UInt8) :=
  let data := paddedData text version spec
  slices data spec.g1cw spec.g1 0 ++ slices data spec.g2cw spec.g2 (spec.g1 * spec.g1cw)

/-- The first byte of every block that has one, then the second, and so on. -/
def interleave (blocks : List (List UInt8)) (length : Nat) : List UInt8 :=
  (List.range length).flatMap fun i => blocks.filterMap fun b => b[i]?

def buildCodewords (text : JsString) (version : Nat) (spec : Version) : List UInt8 :=
  let blocks := dataBlocks text version spec
  let eccBlocks := blocks.map fun b => rsEncode b spec.eccLength
  interleave blocks ((blocks.map List.length).foldl max 0) ++ interleave eccBlocks spec.eccLength

theorem flatMap_getElem? {β : Type} {l : List β} {m : Nat} (h : l.length ≤ m) :
    ((List.range m).flatMap fun i => l[i]?.toList) = l := by
  induction l generalizing m with
  | nil => simp
  | cons x l ih =>
    obtain ⟨m, rfl⟩ := Nat.exists_eq_add_one.mpr (Nat.zero_lt_of_lt h)
    rw [List.range_succ_eq_map, List.flatMap_cons, List.flatMap_map]
    simp only [List.getElem?_cons_zero, List.getElem?_cons_succ, Option.toList_some, List.singleton_append]
    rw [ih (Nat.le_of_succ_le_succ h)]

/-- Interleaving keeps every byte of blocks that are not too long. -/
theorem interleave_perm {blocks : List (List UInt8)} {m : Nat} (h : ∀ b ∈ blocks, b.length ≤ m) :
    (interleave blocks m).Perm blocks.flatten := by
  induction blocks with
  | nil => simp [interleave]
  | cons b blocks ih =>
    have hrest := ih fun b' hb' => h b' (List.mem_cons_of_mem b hb')
    have hsplit : interleave (b :: blocks) m =
        (List.range m).flatMap fun i => b[i]?.toList ++ blocks.filterMap fun b => b[i]? := by
      refine List.flatMap_congr fun i _ => ?_
      cases hi : b[i]? <;> simp [hi]
    rw [hsplit, List.flatten_cons]
    refine (List.flatMap_append_perm _ _ _).symm.trans ?_
    rw [flatMap_getElem? (h b List.mem_cons_self)]
    exact hrest.append_left b

theorem le_foldl_max {l : List Nat} {x : Nat} (m : Nat) (h : x ∈ l ∨ x ≤ m) : x ≤ l.foldl max m := by
  induction l generalizing m with
  | nil => exact h.resolve_left List.not_mem_nil
  | cons y l ih =>
    refine ih (max m y) ?_
    rcases h with h | h
    · rcases List.mem_cons.mp h with rfl | h
      · exact .inr (Nat.le_max_right _ _)
      · exact .inl h
    · exact .inr (Nat.le_trans h (Nat.le_max_left _ _))

theorem length_rsTurn (gen : List UInt8) (eccLength : Nat) (result : List UInt8) (byte : UInt8) :
    (rsTurn gen eccLength result byte).length = result.length := by
  cases result with
  | nil => rfl
  | cons r result =>
    obtain ⟨last, hlast⟩ := Option.isSome_iff_exists.mp (List.getLast?_isSome.mpr (List.cons_ne_nil r result))
    simp [rsTurn, hlast]

theorem length_rsEncode (data : List UInt8) (eccLength : Nat) : (rsEncode data eccLength).length = eccLength := by
  rw [rsEncode]
  induction data using List.reverseRecOn with
  | nil => exact List.length_replicate
  | append_singleton data byte ih => rw [List.foldl_append, List.foldl_cons, List.foldl_nil, length_rsTurn, ih]

/-- **Every byte of every block** is among the codewords, and nothing else. -/
theorem buildCodewords_perm (text : JsString) (version : Nat) (spec : Version) :
    (buildCodewords text version spec).Perm ((dataBlocks text version spec).flatten ++
      ((dataBlocks text version spec).map fun b => rsEncode b spec.eccLength).flatten) := by
  refine List.Perm.append (interleave_perm ?_) (interleave_perm ?_)
  · intro b hb
    exact le_foldl_max 0 (.inl (List.mem_map_of_mem hb))
  · intro b hb
    obtain ⟨data, -, rfl⟩ := List.mem_map.mp hb
    exact Nat.le_of_eq (length_rsEncode data spec.eccLength)

end Qr
end MaterialOpenWebui
