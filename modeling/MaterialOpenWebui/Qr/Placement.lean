import Mathlib.Algebra.GroupWithZero.Nat
import MaterialOpenWebui.Js.Decoder
import MaterialOpenWebui.Qr.Codewords

/-!
# `Qr.Placement` — the matrix of a QR code (`src/app/js/core/qr.js`)

The codewords go into a square of modules around the patterns that a reader looks for, bit by bit along a path that winds up and
down in columns of two. Each of eight masks is tried on them, and the one with the lowest penalty stays. The decoder walks back.
-/

namespace MaterialOpenWebui
namespace Qr
open Js

/-! ## The matrix -/

/-- A module is dark, light or nothing yet. -/
structure Matrix where
  size : Nat
  modules : Nat → Nat → Option Bool

/-- What a module counts as where it is asked for its truth. -/
def truthy (v : Option Bool) : Bool := v == some true

def Matrix.set (m : Matrix) (row col : Nat) (v : Bool) : Matrix :=
  { m with modules := fun r c => if r = row ∧ c = col then some v else m.modules r c }

def emptyMatrix (size : Nat) : Matrix := ⟨size, fun _ _ => none⟩

/-- All pairs of two lists, the first one in the outer loop. -/
def loops (rows cols : List Nat) : List (Nat × Nat) := rows.flatMap fun r => cols.map fun c => (r, c)

/-- The loop runs from -1 to 7; the two counters here are one more. -/
def placeFinder (m : Matrix) (row col : Nat) : Matrix :=
  (loops (List.range 9) (List.range 9)).foldl (fun m p =>
    let r : Int := p.1 - 1
    let c : Int := p.2 - 1
    let rr := row + r
    let cc := col + c
    if rr < 0 ∨ m.size ≤ rr ∨ cc < 0 ∨ m.size ≤ cc then m
    else m.set rr.toNat cc.toNat
      (decide (0 ≤ r ∧ r ≤ 6 ∧ (c = 0 ∨ c = 6) ∨ 0 ≤ c ∧ c ≤ 6 ∧ (r = 0 ∨ r = 6) ∨ 2 ≤ r ∧ r ≤ 4 ∧ 2 ≤ c ∧ c ≤ 4))) m

def ALIGNMENT : Nat → List Nat
  | 2 => [6, 18]
  | 3 => [6, 22]
  | 4 => [6, 26]
  | 5 => [6, 30]
  | 6 => [6, 34]
  | 7 => [6, 22, 38]
  | 8 => [6, 24, 42]
  | 9 => [6, 26, 46]
  | 10 => [6, 28, 50]
  | _ => []

/-- The centres of the alignment patterns, without the three finder corners. -/
def alignmentCentres (version size : Nat) : List (Nat × Nat) :=
  (loops (ALIGNMENT version) (ALIGNMENT version)).filter fun p =>
    !(decide (p.1 = 6 ∧ p.2 = 6 ∨ p.1 = 6 ∧ p.2 = size - 7 ∨ p.1 = size - 7 ∧ p.2 = 6))

/-- The loop runs from -2 to 2; the two counters here are two more. -/
def placeAlignment (m : Matrix) (centre : Nat × Nat) : Matrix :=
  (loops (List.range 5) (List.range 5)).foldl (fun m p =>
    let dr : Int := p.1 - 2
    let dc : Int := p.2 - 2
    m.set (centre.1 + p.1 - 2) (centre.2 + p.2 - 2) (max dr.natAbs dc.natAbs != 1)) m

def placeFunctionPatterns (m : Matrix) (version : Nat) : Matrix :=
  let m := placeFinder m 0 0
  let m := placeFinder m 0 (m.size - 7)
  let m := placeFinder m (m.size - 7) 0
  let m := (List.range' 8 (m.size - 16)).foldl (fun m i => (m.set 6 i (i % 2 == 0)).set i 6 (i % 2 == 0)) m
  let m := (alignmentCentres version m.size).foldl placeAlignment m
  m.set (m.size - 8) 8 true

/-- `if (m.modules[row][col] === null) m.modules[row][col] = false` -/
def Matrix.reserve (m : Matrix) (row col : Nat) : Matrix := if m.modules row col = none then m.set row col false else m

def reserveFormat (m : Matrix) : Matrix :=
  let m := (List.range 9).foldl (fun m i => (m.reserve 8 i).reserve i 8) m
  (List.range 8).foldl (fun m i => (m.reserve 8 (m.size - 1 - i)).reserve (m.size - 1 - i) 8) m

def distance (a b : Nat) : Nat := max a b - min a b

def isFunction (version size row col : Nat) : Bool :=
  decide (row = 6 ∨ col = 6) || decide (row < 9 ∧ col < 9) || decide (row < 9 ∧ size - 8 ≤ col) ||
    decide (size - 8 ≤ row ∧ col < 9) ||
    (alignmentCentres version size).any fun p => decide (distance row p.1 ≤ 2 ∧ distance col p.2 ≤ 2)

/-! ## The path -/

/-- The right one of each two columns; the vertical timing column is skipped. -/
def rightsFrom : Nat → Nat → List Nat
  | 0, _ => []
  | fuel + 1, right =>
    if right < 1 then []
    else
      let right := if right = 6 then 5 else right
      right :: rightsFrom fuel (right - 2)

def rights (size : Nat) : List Nat := rightsFrom size (size - 1)

/-- The modules of columns, the first of them upward or not. -/
def columnsFrom (size : Nat) : Bool → List Nat → List (Nat × Nat)
  | _, [] => []
  | upward, right :: rest =>
    ((List.range size).flatMap fun step =>
      let row := if upward then size - 1 - step else step
      [(row, right), (row, right - 1)]) ++ columnsFrom size (!upward) rest

def zigzag (size : Nat) : List (Nat × Nat) := columnsFrom size true (rights size)

/-- The bit of the codewords, and 0 after the last of them. -/
def dataBit (codewords : List UInt8) (bitIndex : Nat) : Bool :=
  match codewords[bitIndex >>> 3]? with
  | none => false
  | some byte => decide ((byte.toNat >>> (7 - (bitIndex &&& 7))) &&& 1 = 1)

def placeBit (version : Nat) (codewords : List UInt8) (s : Matrix × Nat) (p : Nat × Nat) : Matrix × Nat :=
  if isFunction version s.1.size p.1 p.2 then s else (s.1.set p.1 p.2 (dataBit codewords s.2), s.2 + 1)

def placeData (m : Matrix) (version : Nat) (codewords : List UInt8) : Matrix :=
  ((zigzag m.size).foldl (placeBit version codewords) (m, 0)).1

/-! ## Masks and format -/

def MASKS : Nat → Nat → Nat → Bool
  | 0, r, c => (r + c) % 2 == 0
  | 1, r, _ => r % 2 == 0
  | 2, _, c => c % 3 == 0
  | 3, r, c => (r + c) % 3 == 0
  | 4, r, c => (r / 2 + c / 3) % 2 == 0
  | 5, r, c => r * c % 2 + r * c % 3 == 0
  | 6, r, c => (r * c % 2 + r * c % 3) % 2 == 0
  | _, r, c => ((r + c) % 2 + r * c % 3) % 2 == 0

def applyMask (m : Matrix) (version maskIndex : Nat) : Matrix :=
  { m with modules := fun r c =>
      if r < m.size ∧ c < m.size ∧ isFunction version m.size r c = false ∧
        MASKS maskIndex r c then some (!truthy (m.modules r c))
      else m.modules r c }

/-- Level M. -/
def FORMAT_EC : Nat := 0b00

def formatBits (maskIndex : Nat) : Nat :=
  let data := (FORMAT_EC <<< 3) ||| maskIndex
  let rem := (List.range 10).foldl (fun rem _ => (rem <<< 1) ^^^ ((rem >>> 9) * 0x537)) data
  ((data <<< 10) ||| rem) ^^^ 0x5412

/-- Where the first copy has a bit. -/
def formatCell (i : Nat) : Nat × Nat :=
  if i < 6 then (8, i) else if i = 6 then (8, 7) else if i = 7 then (8, 8) else if i = 8 then (7, 8) else (14 - i, 8)

/-- Where the duplicate copy has it. -/
def duplicateCell (size i : Nat) : Nat × Nat := if i < 8 then (8, size - 1 - i) else (size - 15 + i, 8)

def placeFormatBit (bits : Nat) (m : Matrix) (i : Nat) : Matrix :=
  let bit := decide ((bits >>> i) &&& 1 = 1)
  let m := m.set (formatCell i).1 (formatCell i).2 bit
  m.set (duplicateCell m.size i).1 (duplicateCell m.size i).2 bit

def placeFormat (m : Matrix) (maskIndex : Nat) : Matrix :=
  let m := (List.range 15).foldl (placeFormatBit (formatBits maskIndex)) m
  m.set (m.size - 8) 8 true

/-- The word in the first copy. -/
def formatWord (modules : Nat → Nat → Option Bool) : Nat :=
  (List.range 15).foldl (fun bits i => if truthy (modules (formatCell i).1 (formatCell i).2)
    then bits ||| (1 <<< i) else bits) 0

/-- The level and the mask. -/
def readFormat (modules : Nat → Nat → Option Bool) : Nat × Nat :=
  let data := (formatWord modules ^^^ 0x5412) >>> 10
  ((data >>> 3) &&& 0b11, data &&& 0b111)

/-! ## The choice -/

def Matrix.line (m : Matrix) (transpose : Bool) (a : Nat) : List (Option Bool) :=
  (List.range m.size).map fun b => if transpose then m.modules b a else m.modules a b

structure Run where
  prev : Option Bool
  run : Nat
  score : Nat

def Run.turn (s : Run) (cur : Option Bool) : Run :=
  if cur = s.prev then ⟨cur, s.run + 1, s.score + if s.run + 1 = 5 then 3 else if 5 < s.run + 1 then 1 else 0⟩
  else ⟨cur, 1, s.score⟩

/-- Rule 1: runs of five or more. -/
def runScore : List (Option Bool) → Nat
  | [] => 0
  | v :: line => (line.foldl Run.turn ⟨v, 1, 0⟩).score

def Matrix.isBlock (m : Matrix) (r c : Nat) : Bool :=
  let v := m.modules r c
  v == m.modules r (c + 1) && v == m.modules (r + 1) c && v == m.modules (r + 1) (c + 1)

def PATTERN : List Bool := [true, false, true, true, true, false, true, false, false, false, false]

/-- Rule 3: finder-like patterns. -/
def patternScore (line : List (Option Bool)) : Nat :=
  40 * (List.range (line.length + 1 - PATTERN.length)).countP fun b => (line.drop b).take PATTERN.length == PATTERN.map some

def penalty (m : Matrix) : Nat :=
  let lines := (List.range m.size).map (m.line false) ++ (List.range m.size).map (m.line true)
  let blocks := (loops (List.range (m.size - 1)) (List.range (m.size - 1))).countP fun p => m.isBlock p.1 p.2
  let dark := (loops (List.range m.size) (List.range m.size)).countP fun p => truthy (m.modules p.1 p.2)
  -- `dark * 100 / (size * size)` is a whole number wherever the rounding of the quotient could matter
  let balance := ((dark * 100 : Int) - 50 * (m.size * m.size)).natAbs / (5 * (m.size * m.size)) * 10
  (lines.map runScore).sum + 3 * blocks + (lines.map patternScore).sum + balance

structure Symbol where
  size : Nat
  modules : Nat → Nat → Option Bool
  version : Nat
  mask : Nat

def candidate (base : Matrix) (version mask : Nat) : Matrix := placeFormat (applyMask base version mask) mask

structure Best where
  mask : Nat
  matrix : Matrix
  score : Nat

/-- `if (!best || score < best.score)` -/
def tryMask (base : Matrix) (version : Nat) (best : Option Best) (mask : Nat) : Option Best :=
  let matrix := candidate base version mask
  let score := penalty matrix
  match best with
  | none => some ⟨mask, matrix, score⟩
  | some b => if score < b.score then some ⟨mask, matrix, score⟩ else some b

def bestOf (base : Matrix) (version : Nat) : Option Best := (List.range 8).foldl (tryMask base version) none

def sizeFor (version : Nat) : Nat := version * 4 + 17

def baseMatrix (text : JsString) (version : Nat) (spec : Version) : Matrix :=
  let base := reserveFormat (placeFunctionPatterns (emptyMatrix (sizeFor version)) version)
  placeData base version (buildCodewords text version spec)

/-- `none` where it throws. -/
def encode (text : JsString) : Option Symbol :=
  (accepts text).bind fun p =>
    (bestOf (baseMatrix text p.1 p.2) p.1).map fun best => ⟨sizeFor p.1, best.matrix.modules, p.1, best.mask⟩

/-! ## Reading -/

/-- The bits along the path. -/
def pathBits (version size : Nat) (modules : Nat → Nat → Option Bool) : List Bool :=
  ((zigzag size).filter fun p => !isFunction version size p.1 p.2).map fun p => truthy (modules p.1 p.2)

/-- Eight bits each, as many as are complete. -/
def interleavedBytes : List Bool → List UInt8
  | b7 :: b6 :: b5 :: b4 :: b3 :: b2 :: b1 :: b0 :: bits =>
    .ofNat ([b7, b6, b5, b4, b3, b2, b1, b0].foldl (fun byte bit => (byte <<< 1) ||| bit.toNat) 0) :: interleavedBytes bits
  | _ => []

/-- A byte for every block that is not complete; beyond the end it reads as 0. -/
def dealRow (interleaved : List UInt8) (i : Nat) : List (Nat × List UInt8) → Nat → List (Nat × List UInt8) × Nat
  | [], index => ([], index)
  | (length, block) :: blocks, index =>
    if i < length then
      let rest := dealRow interleaved i blocks (index + 1)
      ((length, block ++ [interleaved.getD index 0]) :: rest.1, rest.2)
    else
      let rest := dealRow interleaved i blocks index
      ((length, block) :: rest.1, rest.2)

def deinterleave (interleaved : List UInt8) (blockLengths : List Nat) : List (List UInt8) :=
  let blocks := blockLengths.map fun length => (length, ([] : List UInt8))
  (((List.range (blockLengths.foldl max 0)).foldl (fun s i => dealRow interleaved i s.1 s.2) (blocks, 0)).1).map Prod.snd

/-- The bit at a position, 0 beyond the end. -/
def bitAt (data : List UInt8) (bitPos : Nat) : Nat := ((data.getD (bitPos >>> 3) 0).toNat >>> (7 - (bitPos &&& 7))) &&& 1

def readBits (data : List UInt8) (bitPos n : Nat) : Nat :=
    (List.range n).foldl (fun v i => (v <<< 1) ||| bitAt data (bitPos + i)) 0

/-- What is read from the data in byte mode; `none` where it throws. -/
def readText (data : List UInt8) (version : Nat) : Option JsString :=
  if readBits data 0 4 ≠ 0b0100 then none
  else
    let count := readBits data 4 (countBits version)
    some (textDecoder ((List.range count).map fun i => .ofNat (readBits data (4 + countBits version + 8 * i) 8)))

def unmask (version size mask : Nat) (modules : Nat → Nat → Option Bool) : Nat → Nat → Option Bool := fun r c =>
  if isFunction version size r c then modules r c
  else if MASKS mask r c then some (!truthy (modules r c)) else modules r c

def blockLengths (spec : Version) : List Nat := List.replicate spec.g1 spec.g1cw ++ List.replicate spec.g2 spec.g2cw

/-- `none` where it throws. -/
def decode (size : Nat) (modules : Nat → Nat → Option Bool) : Option JsString :=
  let version := (size - 17) / 4
  if (size - 17) % 4 ≠ 0 then none
  else
    (VERSIONS version).bind fun spec =>
      let format := readFormat modules
      if format.1 ≠ FORMAT_EC then none
      else
        let interleaved := interleavedBytes (pathBits version size (unmask version size format.2 modules))
        readText (deinterleave interleaved (blockLengths spec)).flatten version

end Qr
end MaterialOpenWebui
