import MaterialOpenWebui.Js.Text
import MaterialOpenWebui.Lib.Guarded

/-!
# `Logo.Dimensions` — the size of an image from its header (`app/js/core/logo.js`)

`readDimensions` decides whether a file may go to a decoder, so it reads the few bytes of the header itself. A byte beyond the end of the
file is `undefined`, which the bit operations take for zero: nothing fails there. Each access is recorded, so that it can be asked
whether what was read is in the file.
-/

namespace MaterialOpenWebui
namespace Logo
open Js Guarded

/-! ## Accesses -/

inductive Failure where
  | thrown (message : JsString)
  /-- The loop has not come to an end in the turns it was given. -/
  | unfinished
deriving DecidableEq

/-- A computation on a file, with the offsets of the bytes it looks at. -/
abbrev Reading (α : Type) := Traced Nat Failure α

def fail {α : Type} (message : String) : Reading α := Traced.lift (.error (.thrown (js message)))

/-- `u8[pos]`, as a number. -/
def byte (u8 : List UInt8) (pos : Nat) : Nat := (u8[pos]?).elim 0 UInt8.toNat

def byteAt (u8 : List UInt8) (pos : Nat) : Reading Nat := Traced.ask pos (.ok (byte u8 pos))

/-- The bytes from `pos` on, up to the first that differs. -/
def hasFrom (u8 : List UInt8) : Nat → List Nat → Reading Bool
  | _, [] => pure true
  | pos, b :: bytes => do
    let found ← byteAt u8 pos
    if found ≠ b then pure false else hasFrom u8 (pos + 1) bytes

def has (u8 : List UInt8) (pos : Nat) (bytes : List Nat) : Reading Bool :=
  if u8.length < pos + bytes.length then pure false else hasFrom u8 pos bytes

def be32 (u8 : List UInt8) (pos : Nat) : Reading Nat := do
  let a ← byteAt u8 pos
  let b ← byteAt u8 (pos + 1)
  let c ← byteAt u8 (pos + 2)
  let d ← byteAt u8 (pos + 3)
  return a <<< 24 ||| b <<< 16 ||| c <<< 8 ||| d

def le16 (u8 : List UInt8) (pos : Nat) : Reading Nat := do
  let a ← byteAt u8 pos
  let b ← byteAt u8 (pos + 1)
  return a ||| b <<< 8

def le24 (u8 : List UInt8) (pos : Nat) : Reading Nat := do
  let a ← byteAt u8 pos
  let b ← byteAt u8 (pos + 1)
  let c ← byteAt u8 (pos + 2)
  return a ||| b <<< 8 ||| c <<< 16

def le32 (u8 : List UInt8) (pos : Nat) : Reading Nat := do
  let a ← byteAt u8 pos
  let b ← byteAt u8 (pos + 1)
  let c ← byteAt u8 (pos + 2)
  let d ← byteAt u8 (pos + 3)
  return a ||| b <<< 8 ||| c <<< 16 ||| d <<< 24

/-! ## Formats -/

inductive Format where
  | png
  | gif
  | bmp
  | webp
  | jpeg
deriving DecidableEq

structure Dimensions where
  width : Nat
  height : Nat
  frames : Nat
  format : Format
deriving DecidableEq

def pngSignature : List Nat := [0x89, 0x50, 0x4e, 0x47, 0x0d, 0x0a, 0x1a, 0x0a]
def ihdr : List Nat := [0x49, 0x48, 0x44, 0x52]
def acTL : List Nat := [0x61, 0x63, 0x54, 0x4c]
def gif8 : List Nat := [0x47, 0x49, 0x46, 0x38]
def bm : List Nat := [0x42, 0x4d]
def riff : List Nat := [0x52, 0x49, 0x46, 0x46]
def webp : List Nat := [0x57, 0x45, 0x42, 0x50]
def vp8x : List Nat := [0x56, 0x50, 0x38, 0x58]
def vp8 : List Nat := [0x56, 0x50, 0x38, 0x20]
def vp8l : List Nat := [0x56, 0x50, 0x38, 0x4c]
def jpegStart : List Nat := [0xff, 0xd8, 0xff]

/-- The frames of an APNG, from the first chunk that announces them; `turns` is how many offsets are left. -/
def apngFrames (head : List UInt8) : Nat → Nat → Reading Nat
  | 0, _ => pure 1
  | turns + 1, i => do
    if ← has head i acTL then
      let frames ← be32 head (i + 4)
      return if frames = 0 then 2 else frames
    else apngFrames head turns (i + 1)

def pngMisplaced : String := "The PNG signature is present but the IHDR header is not where a PNG puts it."

/-- IHDR is always the first chunk, at a fixed offset. -/
def readPng (u8 : List UInt8) : Reading Dimensions := do
  if u8.length < 24 then fail pngMisplaced
  else if ← has u8 12 ihdr then
    let head := u8.take 4096
    -- `i` runs from 8 while `i + 8 < head.length`
    let frames ← apngFrames head (head.length - 16) 8
    let width ← be32 u8 16
    let height ← be32 u8 20
    return ⟨width, height, frames, .png⟩
  else fail pngMisplaced

/-- The image separators from `i` on. -/
def gifFrames (u8 : List UInt8) : Nat → Nat → Reading Nat
  | 0, _ => pure 0
  | turns + 1, i => do
    let b ← byteAt u8 i
    let frames ← gifFrames u8 turns (i + 1)
    return if b = 0x2c then frames + 1 else frames

def readGif (u8 : List UInt8) : Reading Dimensions := do
  let frames ← gifFrames u8 (u8.length - 13) 13
  let width ← le16 u8 6
  let height ← le16 u8 8
  return ⟨width, height, max 1 frames, .gif⟩

/-- The height is signed, negative for rows from the top down. -/
def readBmp (u8 : List UInt8) : Reading Dimensions := do
  if u8.length < 26 then fail "The BMP header is truncated."
  else
    let height ← le32 u8 22
    let width ← le32 u8 18
    return ⟨width, if height < 2 ^ 31 then height else 2 ^ 32 - height, 1, .bmp⟩

/-- Extended. -/
def readVp8x (u8 : List UInt8) : Reading Dimensions := do
  let width ← le24 u8 24
  let height ← le24 u8 27
  let flags ← byteAt u8 20
  return ⟨1 + width, 1 + height, if flags &&& 0x02 ≠ 0 then 2 else 1, .webp⟩

/-- Lossy. -/
def readVp8 (u8 : List UInt8) : Reading Dimensions := do
  let width ← le16 u8 26
  let height ← le16 u8 28
  return ⟨width &&& 0x3fff, height &&& 0x3fff, 1, .webp⟩

/-- Lossless: 14 bits each. -/
def readVp8l (u8 : List UInt8) : Reading Dimensions := do
  let bits ← le32 u8 21
  return ⟨(bits &&& 0x3fff) + 1, ((bits >>> 14) &&& 0x3fff) + 1, 1, .webp⟩

def webpUnrecognised : String := "The WebP container carries no recognised bitstream."

/-- Three kinds, each with its size somewhere else. -/
def readWebp (u8 : List UInt8) : Reading Dimensions := do
  if ← has u8 12 vp8x then readVp8x u8
  else if ← has u8 12 vp8 then readVp8 u8
  else if ← has u8 12 vp8l then readVp8l u8
  else fail webpUnrecognised

/-- Markers without a length that the walk steps over. -/
def isStandalone (marker : Nat) : Bool := marker = 0xd8 ∨ marker = 0x01 ∨ 0xd0 ≤ marker ∧ marker ≤ 0xd7

def isFrame (marker : Nat) : Bool :=
  0xc0 ≤ marker ∧ marker ≤ 0xcf ∧ marker ≠ 0xc4 ∧ marker ≠ 0xc8 ∧ marker ≠ 0xcc

def be16 (u8 : List UInt8) (pos : Nat) : Reading Nat := do
  let a ← byteAt u8 pos
  let b ← byteAt u8 (pos + 1)
  return a <<< 8 ||| b

inductive Turn where
  | next (i : Nat)
  | frame
  | stop
deriving DecidableEq

/-- One turn of the walk over the markers. -/
def jpegTurn (u8 : List UInt8) (i : Nat) : Reading Turn := do
  let b ← byteAt u8 i
  if b ≠ 0xff then return .next (i + 1)
  else
    let marker ← byteAt u8 (i + 1)
    if isStandalone marker then return .next (i + 2)
    else
      let length ← be16 u8 (i + 2)
      return if isFrame marker then .frame else if length < 2 then .stop else .next (i + (2 + length))

def noFrame : Reading Dimensions := fail "The JPEG carries no start-of-frame marker, so its size cannot be read."

/-- The size lives in whichever start of a frame comes first. -/
def readJpeg (u8 : List UInt8) : Nat → Nat → Reading Dimensions
  | 0, _ => Traced.lift (.error .unfinished)
  | turns + 1, i => do
    if i + 9 < u8.length then
      match ← jpegTurn u8 i with
      | .next j => readJpeg u8 turns j
      | .frame =>
        let width ← be16 u8 (i + 7)
        let height ← be16 u8 (i + 5)
        return ⟨width, height, 1, .jpeg⟩
      | .stop => noFrame
    else noFrame

def isWebp (u8 : List UInt8) : Reading Bool := do
  if ← has u8 0 riff then has u8 8 webp else pure false

def unreadable : String := "That is not an image format this can read the size of."

/-- Width, height and frame count read from the file's own header. -/
def readDimensions (u8 : List UInt8) : Reading Dimensions := do
  if ← has u8 0 pngSignature then readPng u8
  else if ← has u8 0 gif8 then readGif u8
  else if ← has u8 0 bm then readBmp u8
  else if ← isWebp u8 then readWebp u8
  else if ← has u8 0 jpegStart then readJpeg u8 (u8.length + 1) 2
  else fail unreadable

/-! ## What is read -/

section
variable {α β : Type} {u8 : List UInt8}

/-- Every byte that is looked at is in the file. -/
def Inside (u8 : List UInt8) (x : Reading α) : Prop := ∀ pos ∈ x.trace, pos < u8.length

@[simp] theorem inside_pure (a : α) : Inside u8 (pure a : Reading α) := fun _ h => absurd h List.not_mem_nil

@[simp] theorem inside_fail (message : String) : Inside u8 (fail message : Reading α) := fun _ h => absurd h List.not_mem_nil

@[simp] theorem inside_byteAt {pos : Nat} : Inside u8 (byteAt u8 pos) ↔ pos < u8.length :=
  ⟨fun h => h pos List.mem_cons_self, fun h _ hpos => List.mem_singleton.mp hpos ▸ h⟩

/-- **The bind rule.** -/
@[simp] theorem inside_bind {x : Reading α} {f : α → Reading β} :
    Inside u8 (x >>= f) ↔ Inside u8 x ∧ ∀ a, x.result = .ok a → Inside u8 (f a) := by
  have htrace : (x >>= f).trace = (Traced.bind x f).trace := rfl
  unfold Inside
  rw [htrace, Traced.bind]
  cases x.result with
  | error e => exact ⟨fun h => ⟨h, fun a ha => by cases ha⟩, And.left⟩
  | ok a =>
    simp only [List.forall_mem_append, Except.ok.injEq, forall_eq']

@[simp] theorem result_pure (a : α) : (pure a : Reading α).result = .ok a := rfl

@[simp] theorem result_byteAt (pos : Nat) : (byteAt u8 pos).result = .ok (byte u8 pos) := rfl

/-- A computation that does not fail, and what comes after it. -/
theorem result_of_ok {x : Reading α} {a : α} (h : x.result = .ok a) (f : α → Reading β) :
    (x >>= f).result = (f a).result := by
  rw [Traced.result_bind, h]
  rfl

/-- It does not fail, looks at nothing beyond the file, and yields a value that has the property. -/
def Safe (u8 : List UInt8) (P : α → Prop) (x : Reading α) : Prop := ∃ a, x.result = .ok a ∧ Inside u8 x ∧ P a

theorem safe_pure {P : α → Prop} {a : α} (h : P a) : Safe u8 P (pure a : Reading α) := ⟨a, rfl, inside_pure a, h⟩

theorem Safe.bind {P : α → Prop} {Q : β → Prop} {x : Reading α} {f : α → Reading β} (hx : Safe u8 P x)
    (hf : ∀ a, P a → Safe u8 Q (f a)) :
    Safe u8 Q (x >>= f) := by
  obtain ⟨a, ha, hinside, hP⟩ := hx
  obtain ⟨b, hb, hrest, hQ⟩ := hf a hP
  refine ⟨b, (result_of_ok ha f).trans hb, inside_bind.mpr ⟨hinside, fun a' ha' => ?_⟩, hQ⟩
  cases ha.symm.trans ha'
  exact hrest

/-- The file has the bytes there. -/
def starts (u8 : List UInt8) (pos : Nat) (bytes : List Nat) : Bool :=
  pos + bytes.length ≤ u8.length ∧ ((u8.drop pos).take bytes.length).map UInt8.toNat = bytes

theorem length_of_starts {pos : Nat} {bytes : List Nat} (h : starts u8 pos bytes = true) : pos + bytes.length ≤ u8.length :=
  (of_decide_eq_true h).1

theorem byte_of_starts {pos b : Nat} {bytes : List Nat} (h : starts u8 pos (b :: bytes) = true) : byte u8 pos = b := by
  obtain ⟨hlen, heq⟩ := of_decide_eq_true h
  rw [List.length_cons] at hlen heq
  have hpos : pos < u8.length := by omega
  rw [List.drop_eq_getElem_cons hpos, List.take_succ_cons, List.map_cons, List.cons.injEq] at heq
  rw [byte, List.getElem?_eq_getElem hpos, Option.elim_some, heq.1]

theorem starts_eq_false {pos b c : Nat} {bytes : List Nat} (hb : byte u8 pos = c) (hne : b ≠ c) :
    starts u8 pos (b :: bytes) = false := by
  rw [← Bool.not_eq_true]
  exact fun h => hne ((byte_of_starts h).symm.trans hb)

theorem hasFrom_eq (bytes : List Nat) {pos : Nat} (h : pos + bytes.length ≤ u8.length) :
    (hasFrom u8 pos bytes).result = .ok (starts u8 pos bytes) ∧ Inside u8 (hasFrom u8 pos bytes) := by
  induction bytes generalizing pos with
  | nil => exact ⟨congrArg Except.ok (decide_eq_true ⟨h, rfl⟩).symm, inside_pure true⟩
  | cons b bytes ih =>
    rw [List.length_cons] at h
    have hpos : pos < u8.length := by omega
    have hnext : pos + 1 + bytes.length ≤ u8.length := by omega
    obtain ⟨hresult, hinside⟩ := ih hnext
    have hbyte : byte u8 pos = (u8[pos]).toNat := by rw [byte, List.getElem?_eq_getElem hpos, Option.elim_some]
    have hstarts : starts u8 pos (b :: bytes) = (byte u8 pos = b && starts u8 (pos + 1) bytes) := by
      unfold starts
      rw [Bool.eq_iff_iff, Bool.and_eq_true]
      simp only [decide_eq_true_eq, List.drop_eq_getElem_cons hpos, List.length_cons, List.take_succ_cons, List.map_cons,
        List.cons.injEq, hbyte]
      exact ⟨fun hall => ⟨hall.2.1, by omega, hall.2.2⟩, fun hall => ⟨h, hall.1, hall.2.2⟩⟩
    refine ⟨?_, ?_⟩
    · rw [hasFrom, result_of_ok (result_byteAt pos), hstarts]
      by_cases hb : byte u8 pos = b
      · rw [if_neg (not_not.mpr hb), hresult, hb, decide_eq_true rfl, Bool.true_and]
      · rw [if_pos hb, decide_eq_false hb, Bool.false_and]
        rfl
    · rw [hasFrom, inside_bind, inside_byteAt]
      refine ⟨hpos, fun found _ => ?_⟩
      split_ifs
      · exact inside_pure false
      · exact hinside

/-- What a file has is looked for in the file only. -/
theorem has_eq (pos : Nat) (bytes : List Nat) :
    (has u8 pos bytes).result = .ok (starts u8 pos bytes) ∧ Inside u8 (has u8 pos bytes) := by
  unfold has
  split_ifs with h
  · have hstarts : starts u8 pos bytes = false := decide_eq_false fun hall => Nat.not_le_of_lt h hall.1
    rw [hstarts]
    exact ⟨rfl, inside_pure false⟩
  · exact hasFrom_eq bytes (Nat.le_of_not_lt h)

@[simp] theorem result_has (pos : Nat) (bytes : List Nat) : (has u8 pos bytes).result = .ok (starts u8 pos bytes) :=
  (has_eq pos bytes).1

@[simp] theorem inside_has (pos : Nat) (bytes : List Nat) : Inside u8 (has u8 pos bytes) := (has_eq pos bytes).2

theorem safe_has (pos : Nat) (bytes : List Nat) : Safe u8 (· = starts u8 pos bytes) (has u8 pos bytes) :=
  ⟨_, result_has pos bytes, inside_has pos bytes, rfl⟩

@[simp] theorem inside_le16 {pos : Nat} : Inside u8 (le16 u8 pos) ↔ pos + 1 < u8.length := by
  simp only [le16, inside_bind, inside_byteAt, inside_pure, result_byteAt, Except.ok.injEq, forall_eq', and_true]
  omega

@[simp] theorem inside_be16 {pos : Nat} : Inside u8 (be16 u8 pos) ↔ pos + 1 < u8.length := by
  simp only [be16, inside_bind, inside_byteAt, inside_pure, result_byteAt, Except.ok.injEq, forall_eq', and_true]
  omega

@[simp] theorem inside_le24 {pos : Nat} : Inside u8 (le24 u8 pos) ↔ pos + 2 < u8.length := by
  simp only [le24, inside_bind, inside_byteAt, inside_pure, result_byteAt, Except.ok.injEq, forall_eq', and_true]
  omega

@[simp] theorem inside_le32 {pos : Nat} : Inside u8 (le32 u8 pos) ↔ pos + 3 < u8.length := by
  simp only [le32, inside_bind, inside_byteAt, inside_pure, result_byteAt, Except.ok.injEq, forall_eq', and_true]
  omega

@[simp] theorem inside_be32 {pos : Nat} : Inside u8 (be32 u8 pos) ↔ pos + 3 < u8.length := by
  simp only [be32, inside_bind, inside_byteAt, inside_pure, result_byteAt, Except.ok.injEq, forall_eq', and_true]
  omega

@[simp] theorem result_le16 (pos : Nat) : (le16 u8 pos).result = .ok (byte u8 pos ||| byte u8 (pos + 1) <<< 8) := rfl

@[simp] theorem result_be16 (pos : Nat) : (be16 u8 pos).result = .ok (byte u8 pos <<< 8 ||| byte u8 (pos + 1)) := rfl

@[simp] theorem result_le24 (pos : Nat) :
    (le24 u8 pos).result = .ok (byte u8 pos ||| byte u8 (pos + 1) <<< 8 ||| byte u8 (pos + 2) <<< 16) := rfl

@[simp] theorem result_le32 (pos : Nat) : (le32 u8 pos).result =
    .ok (byte u8 pos ||| byte u8 (pos + 1) <<< 8 ||| byte u8 (pos + 2) <<< 16 ||| byte u8 (pos + 3) <<< 24) := rfl

theorem Inside.of_take {α : Type} {n : Nat} {x : Reading α} (h : Inside (u8.take n) x) : Inside u8 x :=
  fun pos hpos => Nat.lt_of_lt_of_le (h pos hpos) (List.length_take_le' n u8)

theorem inside_apngFrames {turns i : Nat} (h : i + turns + 8 ≤ u8.length) : Inside u8 (apngFrames u8 turns i) := by
  induction turns generalizing i with
  | zero => exact inside_pure 1
  | succ turns ih =>
    rw [apngFrames, inside_bind]
    refine ⟨inside_has i acTL, fun found _ => ?_⟩
    split_ifs
    · rw [inside_bind, inside_be32]
      exact ⟨by omega, fun frames _ => inside_pure _⟩
    · exact ih (by omega)

theorem inside_gifFrames {turns i : Nat} (h : i + turns ≤ u8.length) : Inside u8 (gifFrames u8 turns i) := by
  induction turns generalizing i with
  | zero => exact inside_pure 0
  | succ turns ih =>
    rw [gifFrames, inside_bind, inside_byteAt]
    refine ⟨by omega, fun b _ => ?_⟩
    rw [inside_bind]
    exact ⟨ih (by omega), fun frames _ => inside_pure _⟩

theorem exists_gifFrames (u8 : List UInt8) (turns i : Nat) : ∃ frames, (gifFrames u8 turns i).result = .ok frames := by
  induction turns generalizing i with
  | zero => exact ⟨0, rfl⟩
  | succ turns ih =>
    obtain ⟨frames, hrest⟩ := ih (i + 1)
    exact ⟨_, (result_of_ok (result_byteAt i) _).trans (result_of_ok hrest _)⟩

theorem inside_readPng : Inside u8 (readPng u8) := by
  unfold readPng
  split_ifs with hshort
  · exact inside_fail _
  rw [inside_bind]
  refine ⟨inside_has 12 ihdr, fun found _ => ?_⟩
  split_ifs
  · have htake : (u8.take 4096).length = min 4096 u8.length := List.length_take
    have hframes : Inside u8 (apngFrames (u8.take 4096) ((u8.take 4096).length - 16) 8) :=
      (inside_apngFrames (by omega)).of_take
    simp only [inside_bind, inside_be32, inside_pure, implies_true, and_true]
    exact ⟨hframes, fun _ _ => ⟨by omega, fun _ _ => by omega⟩⟩
  · exact inside_fail _

theorem inside_readBmp : Inside u8 (readBmp u8) := by
  unfold readBmp
  split_ifs with hshort
  · exact inside_fail _
  · simp only [inside_bind, inside_le32, inside_pure, implies_true, and_true]
    exact ⟨by omega, fun _ _ => by omega⟩

theorem inside_jpegTurn {i : Nat} (h : i + 9 < u8.length) : Inside u8 (jpegTurn u8 i) := by
  rw [jpegTurn, inside_bind, inside_byteAt]
  refine ⟨by omega, fun b _ => ?_⟩
  split_ifs
  · exact inside_pure _
  rw [inside_bind, inside_byteAt]
  refine ⟨by omega, fun marker _ => ?_⟩
  by_cases hstandalone : isStandalone marker = true
  · rw [if_pos hstandalone]
    exact inside_pure _
  · rw [if_neg hstandalone, inside_bind, inside_be16]
    exact ⟨by omega, fun length _ => inside_pure _⟩

/-- The walk stays where ten bytes are left. -/
theorem inside_readJpeg (turns i : Nat) : Inside u8 (readJpeg u8 turns i) := by
  induction turns generalizing i with
  | zero => exact fun _ h => absurd h List.not_mem_nil
  | succ turns ih =>
    rw [readJpeg]
    split_ifs with h
    · rw [inside_bind]
      refine ⟨inside_jpegTurn h, fun turn _ => ?_⟩
      cases turn with
      | next j => exact ih j
      | stop => exact inside_fail _
      | frame =>
        simp only [inside_bind, inside_be16, inside_pure, implies_true, and_true]
        exact ⟨by omega, fun _ _ => by omega⟩
    · exact inside_fail _

end

end Logo
end MaterialOpenWebui
