import Mathlib.Algebra.Order.Ring.Nat

/-!
# `Lib.LittleEndian` — numbers in so many bytes, the lowest first

`write k n` is `n` in `k` bytes, and `read k` takes one from a position of a buffer, if all its bytes are there.
-/

namespace LittleEndian

def write : Nat → Nat → List UInt8
  | 0, _ => []
  | k + 1, n => .ofNat n :: write k (n / 256)

def value : List UInt8 → Nat
  | [] => 0
  | b :: bytes => b.toNat + 256 * value bytes

/-- `none` where the number would reach over the end. -/
def read (k : Nat) (bytes : List UInt8) (pos : Nat) : Option Nat :=
  if pos + k ≤ bytes.length then some (value ((bytes.drop pos).take k)) else none

@[simp] theorem length_write (k n : Nat) : (write k n).length = k := by
  induction k generalizing n with
  | zero => rfl
  | succ k ih => rw [write, List.length_cons, ih]

theorem value_write (k n : Nat) : value (write k n) = n % 256 ^ k := by
  induction k generalizing n with
  | zero => rw [Nat.pow_zero, Nat.mod_one]; rfl
  | succ k ih =>
    have hbyte : (UInt8.ofNat n).toNat = n % 256 := UInt8.toNat_ofNat'
    rw [write, value, ih, hbyte, Nat.pow_succ', Nat.mod_mul]

theorem value_lt (bytes : List UInt8) : value bytes < 256 ^ bytes.length := by
  induction bytes with
  | nil => exact Nat.one_pos
  | cons b bytes ih =>
    have hb : b.toNat < 256 := b.toNat_lt
    rw [value, List.length_cons, Nat.pow_succ']
    omega

/-- Inside the buffer, there is a number of that size. -/
theorem exists_read {k : Nat} {bytes : List UInt8} {pos : Nat} (h : pos + k ≤ bytes.length) :
    ∃ n < 256 ^ k, read k bytes pos = some n := by
  have hlength : ((bytes.drop pos).take k).length = k := by
    rw [List.length_take, List.length_drop]
    omega
  have hlt := value_lt ((bytes.drop pos).take k)
  rw [hlength] at hlt
  exact ⟨_, hlt, if_pos h⟩

/-- What stands before a buffer shifts the positions. -/
theorem read_append (k : Nat) (front bytes : List UInt8) (pos : Nat) :
    read k (front ++ bytes) (front.length + pos) = read k bytes pos := by
  rw [read, read, List.length_append, List.drop_append, List.drop_eq_nil_of_le (Nat.le_add_right _ _), List.nil_append,
    Nat.add_sub_cancel_left]
  by_cases h : pos + k ≤ bytes.length
  · rw [if_pos h, if_pos (by omega)]
  · rw [if_neg h, if_neg (by omega)]

/-- A number is read where it was found. -/
theorem read_drop {k n : Nat} {bytes rest : List UInt8} {pos : Nat} (hk : 0 < k) (hn : n < 256 ^ k)
    (h : bytes.drop pos = write k n ++ rest) : read k bytes pos = some n := by
  have hlength := congrArg List.length h
  rw [List.length_drop, List.length_append, length_write] at hlength
  rw [read, if_pos (by omega), h, List.take_left' (length_write k n), value_write, Nat.mod_eq_of_lt hn]

/-- The first byte of a number. -/
theorem getElem?_of_read {k : Nat} {bytes : List UInt8} {pos n : Nat} (h : read (k + 1) bytes pos = some n) :
    ∃ b, bytes[pos]? = some b ∧ b.toNat = n % 256 := by
  rw [read] at h
  split at h
  · rename_i hle
    obtain ⟨b, rest, hdrop⟩ := List.exists_cons_of_ne_nil (l := bytes.drop pos) (by
      intro hnil
      have hlength := congrArg List.length hnil
      rw [List.length_drop, List.length_nil] at hlength
      omega)
    have hb : b.toNat < 256 := b.toNat_lt
    rw [hdrop, List.take_succ_cons, value] at h
    cases h
    refine ⟨b, ?_, by omega⟩
    have hget := congrArg (fun l : List UInt8 => l[0]?) hdrop
    rw [List.getElem?_drop] at hget
    exact hget
  · exact nomatch h

end LittleEndian
