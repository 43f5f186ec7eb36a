import Mathlib.Data.List.Basic
import Mathlib.Data.Nat.Bitwise
import Mathlib.Tactic.Ring

/-!
# `Lib.BitString` — numbers and bytes as bits, the most significant first
-/

namespace BitString

/-! ## Numbers -/

/-- The low `n` bits. -/
def bitsOf (n value : Nat) : List Bool := (List.range n).reverse.map value.testBit

def ofBits (bits : List Bool) : Nat := bits.foldl (fun v b => 2 * v + b.toNat) 0

@[simp] theorem length_bitsOf (n value : Nat) : (bitsOf n value).length = n := by simp [bitsOf]

theorem bitsOf_succ (n value : Nat) : bitsOf (n + 1) value = value.testBit n :: bitsOf n value := by
  rw [bitsOf, List.range_succ, List.reverse_append]
  rfl

theorem bitsOf_congr {n v w : Nat} (h : ∀ i < n, v.testBit i = w.testBit i) : bitsOf n v = bitsOf n w := by
  apply List.map_congr_left
  intro i hi
  apply h
  rwa [List.mem_reverse, List.mem_range] at hi

/-- The bits above and the bits below. -/
theorem bitsOf_add (m n value : Nat) : bitsOf (m + n) value = bitsOf m (value >>> n) ++ bitsOf n value := by
  induction m with
  | zero => rw [Nat.zero_add]; rfl
  | succ m ih =>
    rw [Nat.add_right_comm, bitsOf_succ, bitsOf_succ, ih, Nat.testBit_shiftRight, Nat.add_comm n m]
    rfl

/-- **A register** that is shifted to make room for `n` bits: of its own it keeps at least `m`, whatever goes over. -/
theorem bitsOf_shift (width : Nat) {m n v w : Nat} (hw : w < 2 ^ n) (hwidth : m + n ≤ width) :
    bitsOf (m + n) ((v <<< n) % 2 ^ width ||| w) = bitsOf m v ++ bitsOf n w := by
  have hhigh : ∀ i < m, (((v <<< n) % 2 ^ width ||| w) >>> n).testBit i = v.testBit i := by
    intro i hi
    have hover : w.testBit (n + i) = false :=
      Nat.testBit_lt_two_pow (lt_of_lt_of_le hw (Nat.pow_le_pow_right (by omega) (by omega)))
    rw [Nat.testBit_shiftRight, Nat.testBit_or, Nat.testBit_mod_two_pow, Nat.testBit_shiftLeft, hover]
    simp [show n + i < width by omega]
  have hlow : ∀ i < n, ((v <<< n) % 2 ^ width ||| w).testBit i = w.testBit i := by
    intro i hi
    rw [Nat.testBit_or, Nat.testBit_mod_two_pow, Nat.testBit_shiftLeft]
    simp [show ¬n ≤ i by omega]
  rw [bitsOf_add, bitsOf_congr hhigh, bitsOf_congr hlow]

theorem getElem?_bitsOf {n p : Nat} (h : p < n) (value : Nat) : (bitsOf n value)[p]? = some (value.testBit (n - 1 - p)) := by
  have hp : p < (List.range n).reverse.length := by simpa using h
  rw [bitsOf, List.getElem?_map, List.getElem?_eq_getElem hp, List.getElem_reverse, List.getElem_range, List.length_range]
  rfl

theorem ofBits_append (bits rest : List Bool) : ofBits (bits ++ rest) = ofBits bits * 2 ^ rest.length + ofBits rest := by
  have hfold : ∀ (rest : List Bool) (v : Nat), rest.foldl (fun v b => 2 * v + b.toNat) v =
    v * 2 ^ rest.length + ofBits rest := by
    intro rest
    induction rest with
    | nil => intro v; simp [ofBits]
    | cons b rest ih =>
      intro v
      have hcons : ofBits (b :: rest) = (2 * 0 + b.toNat) * 2 ^ rest.length + ofBits rest := ih _
      rw [List.foldl_cons, ih, hcons, List.length_cons, Nat.pow_succ]
      ring
  rw [ofBits, List.foldl_append, hfold]
  rfl

theorem ofBits_cons (b : Bool) (bits : List Bool) : ofBits (b :: bits) = b.toNat * 2 ^ bits.length + ofBits bits := by
  rw [← List.singleton_append, ofBits_append]
  congr 2
  exact Nat.zero_add _

/-- **The number** of its bits. -/
theorem ofBits_bitsOf (n value : Nat) : ofBits (bitsOf n value) = value % 2 ^ n := by
  induction n with
  | zero => simp [bitsOf, ofBits, Nat.mod_one]
  | succ n ih =>
    rw [bitsOf_succ, ofBits_cons, ih, length_bitsOf, Nat.mod_pow_succ, Nat.toNat_testBit]
    ring

/-! ## Bytes -/

def byteBits (b : UInt8) : List Bool := bitsOf 8 b.toNat

theorem length_flatMap_byteBits (bytes : List UInt8) : (bytes.flatMap byteBits).length = 8 * bytes.length := by
  induction bytes with
  | nil => rfl
  | cons b bytes ih =>
    rw [List.flatMap_cons, List.length_append, ih, byteBits, length_bitsOf, List.length_cons]
    omega

/-- Where a bit of the bytes is. -/
theorem getElem?_byteBits (bytes : List UInt8) {p : Nat} (h : p < 8 * bytes.length) :
    (bytes.flatMap byteBits)[p]? = some ((bytes.getD (p / 8) 0).toNat.testBit (7 - p % 8)) := by
  induction bytes generalizing p with
  | nil => exact absurd h (Nat.not_lt_zero p)
  | cons b bytes ih =>
    rw [List.flatMap_cons]
    by_cases hp : p < 8
    · rw [List.getElem?_append_left (by rw [byteBits, length_bitsOf]; exact hp), byteBits, getElem?_bitsOf hp,
        Nat.div_eq_of_lt hp, Nat.mod_eq_of_lt hp]
      rfl
    · have hlength : (byteBits b).length = 8 := length_bitsOf 8 _
      rw [List.length_cons] at h
      rw [List.getElem?_append_right (by omega), hlength, ih (by omega)]
      have hdiv : p / 8 = (p - 8) / 8 + 1 := by omega
      have hmod : (p - 8) % 8 = p % 8 := by omega
      rw [hdiv, hmod]
      rfl

/-- The bytes of bits, as far as they are complete. -/
def bytesOf : List Bool → List UInt8
  | b7 :: b6 :: b5 :: b4 :: b3 :: b2 :: b1 :: b0 :: bits => .ofNat (ofBits [b7, b6, b5, b4, b3, b2, b1, b0]) :: bytesOf bits
  | _ => []

theorem bytesOf_byteBits (b : UInt8) (bits : List Bool) : bytesOf (byteBits b ++ bits) = b :: bytesOf bits := by
  have hbits : byteBits b = [b.toNat.testBit 7, b.toNat.testBit 6, b.toNat.testBit 5, b.toNat.testBit 4, b.toNat.testBit 3,
    b.toNat.testBit 2, b.toNat.testBit 1, b.toNat.testBit 0] := rfl
  have hvalue : ofBits (byteBits b) = b.toNat := by
    rw [byteBits, ofBits_bitsOf]
    exact Nat.mod_eq_of_lt b.toNat_lt
  rw [hbits] at hvalue ⊢
  show UInt8.ofNat (ofBits _) :: bytesOf bits = _
  rw [hvalue, UInt8.ofNat_toNat]

theorem bytesOf_short {bits : List Bool} (h : bits.length < 8) : bytesOf bits = [] := by
  match bits with
  | [] | [_] | [_, _] | [_, _, _] | [_, _, _, _] | [_, _, _, _, _] | [_, _, _, _, _, _] | [_, _, _, _, _, _, _] => rfl
  | _ :: _ :: _ :: _ :: _ :: _ :: _ :: _ :: _ =>
    simp only [List.length_cons] at h
    omega

/-- **The bytes** of their bits. -/
theorem bytesOf_flatMap (bytes : List UInt8) (bits : List Bool) :
    bytesOf (bytes.flatMap byteBits ++ bits) = bytes ++ bytesOf bits := by
  induction bytes with
  | nil => rfl
  | cons b bytes ih => rw [List.flatMap_cons, List.append_assoc, bytesOf_byteBits, ih, List.cons_append]

end BitString
