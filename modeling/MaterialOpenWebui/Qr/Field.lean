import MaterialOpenWebui.Qr.Codewords
import Mathlib.Algebra.Field.ZMod
import Mathlib.Algebra.Module.ZMod
import Mathlib.RingTheory.AdjoinRoot
import Mathlib.Tactic.ComputeDegree
import Mathlib.Tactic.LinearCombination

/-!
# `Qr.Field` — what the tables of GF(256) compute

A byte stands for the element of `GF`, polynomials over GF(2) modulo `0x11d`, that has its bits as coefficients. Adding is
`^`, doubling is multiplying by the root `α`, and so the tables are the powers of `α` and their logarithms: `gfMul` is
multiplication (`symbol_gfMul`).
-/

namespace MaterialOpenWebui
namespace Qr
open Polynomial

/-! ## The field -/

noncomputable def modulus : (ZMod 2)[X] := X ^ 8 + X ^ 4 + X ^ 3 + X ^ 2 + 1

abbrev GF := AdjoinRoot modulus

noncomputable def α : GF := AdjoinRoot.root modulus

theorem monic_modulus : modulus.Monic := by
  unfold modulus
  monicity!

theorem degree_modulus : modulus.degree = 8 := by
  unfold modulus
  compute_degree!

instance : Nontrivial GF := AdjoinRoot.nontrivial modulus (by rw [degree_modulus]; decide)

theorem modulus_root : α ^ 8 + α ^ 4 + α ^ 3 + α ^ 2 + 1 = 0 := by
  have h : AdjoinRoot.mk modulus (X ^ 8 + X ^ 4 + X ^ 3 + X ^ 2 + 1) = 0 := AdjoinRoot.mk_self
  simp only [map_add, map_pow, AdjoinRoot.mk_X, map_one] at h
  exact h

/-- The bits of a number below `2 ^ 9`, as coefficients. -/
noncomputable def value (n : Nat) : GF := ∑ i ∈ Finset.range 9, if n.testBit i then α ^ i else 0

@[simp] theorem value_zero : value 0 = 0 := by simp [value]

@[simp] theorem value_one : value 1 = 1 := by
  rw [value, Finset.sum_range_succ']
  simp [Nat.testBit_succ]

theorem value_xor (a b : Nat) : value (a ^^^ b) = value a + value b := by
  rw [value, value, value, ← Finset.sum_add_distrib]
  refine Finset.sum_congr rfl fun i _ => ?_
  rw [Nat.testBit_xor]
  cases a.testBit i <;> cases b.testBit i <;> simp [ZModModule.add_self]

theorem value_byte {x : Nat} (hx : x < 256) : value x = ∑ i ∈ Finset.range 8, if x.testBit i then α ^ i else 0 := by
  have htop : x.testBit 8 = false := Nat.testBit_lt_two_pow hx
  rw [value, Finset.sum_range_succ, htop, if_neg Bool.false_ne_true, add_zero]

theorem value_shiftLeft {x : Nat} (hx : x < 256) : value (x <<< 1) = α * value x := by
  have hlow : (x <<< 1).testBit 0 = false := by simp
  have hbits : ∀ i, (x <<< 1).testBit (i + 1) = x.testBit i := by
    intro i
    simp [Nat.testBit_shiftLeft]
  rw [value_byte hx, value, Finset.sum_range_succ', hlow, if_neg Bool.false_ne_true, add_zero, Finset.mul_sum]
  refine Finset.sum_congr rfl fun i _ => ?_
  rw [hbits, mul_ite, mul_zero, pow_succ']

theorem value_modulus : value 0x11d = 0 := by
  have hbits : (List.range 9).map (Nat.testBit 0x11d) = [true, false, true, true, true, false, false, false, true] := by
    decide
  simp only [List.range_succ, List.range_zero, List.nil_append, List.map_cons, List.map_nil,
    List.cons_append, List.cons.injEq] at hbits
  obtain ⟨h0, h1, h2, h3, h4, h5, h6, h7, h8, -⟩ := hbits
  simp only [value, Finset.sum_range_succ, Finset.sum_range_zero, h0, h1, h2, h3, h4, h5, h6, h7, h8]
  simp only [if_true, Bool.false_eq_true, if_false, add_zero, zero_add, pow_zero]
  linear_combination modulus_root

theorem double_spec : ∀ x < 256, double x < 256 ∧ (x ≠ 0 → double x ≠ 0) := by decide +kernel

/-- **Doubling** is multiplying by the root. -/
theorem value_double {x : Nat} (hx : x < 256) : value (double x) = α * value x := by
  rw [← value_shiftLeft hx]
  show value (if x <<< 1 &&& 0x100 ≠ 0 then x <<< 1 ^^^ 0x11d else x <<< 1) = _
  split
  · rw [value_xor, value_modulus, add_zero]
  · rfl

/-- The bits of a byte, as a polynomial. -/
noncomputable def bitPoly (n : Nat) : (ZMod 2)[X] := ∑ i ∈ Finset.range 8, if n.testBit i then X ^ i else 0

theorem coeff_bitPoly (n i : Nat) : (bitPoly n).coeff i = if i < 8 ∧ n.testBit i = true then 1 else 0 := by
  have hterm : ∀ j, (if n.testBit j then (X ^ j : (ZMod 2)[X]) else 0).coeff i =
      if i = j then (if n.testBit j then 1 else 0) else 0 := by
    intro j
    cases n.testBit j <;> simp [coeff_X_pow]
  rw [bitPoly, finsetSum_coeff]
  simp only [hterm, Finset.sum_ite_eq, Finset.mem_range]
  by_cases hi : i < 8 <;> simp [hi]

/-- Only zero stands for zero. -/
theorem eq_zero_of_value {n : Nat} (hn : n < 256) (h : value n = 0) : n = 0 := by
  have hmk : AdjoinRoot.mk modulus (bitPoly n) = 0 := by
    rw [← h, value_byte hn, bitPoly, map_sum]
    refine Finset.sum_congr rfl fun i _ => ?_
    rw [apply_ite (AdjoinRoot.mk modulus), map_pow, AdjoinRoot.mk_X, map_zero]
    rfl
  have hdegree : (bitPoly n).degree < modulus.degree := by
    rw [degree_modulus]
    refine (degree_lt_iff_coeff_zero _ 8).mpr ?_
    intro i hi
    rw [coeff_bitPoly, if_neg fun hand => Nat.not_lt.mpr hi hand.1]
  have hpoly : bitPoly n = 0 := by
    by_contra hne
    exact AdjoinRoot.mk_ne_zero_of_degree_lt monic_modulus hne hdegree hmk
  apply Nat.eq_of_testBit_eq
  intro i
  have hcoeff := coeff_bitPoly n i
  rw [hpoly, coeff_zero] at hcoeff
  rw [Nat.zero_testBit]
  by_cases hi : i < 8
  · by_contra hbit
    rw [if_pos ⟨hi, eq_true_of_ne_false hbit⟩] at hcoeff
    exact zero_ne_one hcoeff
  · have hpow : n < 2 ^ i := Nat.lt_of_lt_of_le hn (Nat.pow_le_pow_right (n := 2) (by decide) (Nat.not_lt.mp hi))
    exact Nat.testBit_lt_two_pow hpow

theorem value_injective {a b : Nat} (ha : a < 256) (hb : b < 256) (h : value a = value b) : a = b := by
  have hsum : value (a ^^^ b) = 0 := by rw [value_xor, h, ZModModule.add_self]
  have hxor : a ^^^ b = 0 := eq_zero_of_value (Nat.xor_lt_two_pow (n := 8) ha hb) hsum
  calc a = a ^^^ b ^^^ b := by rw [Nat.xor_assoc, Nat.xor_self, Nat.xor_zero]
    _ = b := by rw [hxor, Nat.zero_xor]

/-! ## The tables -/

/-- What is written at a place of the table. -/
def power (k : Nat) : Nat := double^[k] 1

theorem power_succ (k : Nat) : power (k + 1) = double (power k) := Function.iterate_succ_apply' ..

theorem power_spec (k : Nat) : power k < 256 ∧ power k ≠ 0 ∧ value (power k) = α ^ k := by
  induction k with
  | zero => exact ⟨by decide, by decide, by rw [pow_zero]; exact value_one⟩
  | succ k ih =>
    obtain ⟨hlt, hne, hvalue⟩ := ih
    rw [power_succ]
    exact ⟨(double_spec _ hlt).1, (double_spec _ hlt).2 hne, by rw [value_double hlt, hvalue, pow_succ']⟩

theorem α_pow_255 : α ^ 255 = 1 := by
  have hone : power 255 = 1 := by decide +kernel
  rw [← (power_spec 255).2.2, hone, value_one]

theorem power_ne_one {k : Nat} (hk : k < 254) : power (k + 1) ≠ 1 := by
  have hall : ∀ x ∈ (List.range 254).map fun k => double^[k] 2, x ≠ 1 := by
    rw [List.range_map_iterate]
    decide +kernel
  exact hall _ (List.mem_map.mpr ⟨k, List.mem_range.mpr hk, rfl⟩)

/-- The powers below 255 differ: the root has no smaller order. -/
theorem power_inj {i j : Nat} (hij : i < j) (hj : j < 255) : power i ≠ power j := by
  intro h
  have hi := (power_spec i).2.2
  have hpow : α ^ i * α ^ (j - i) = α ^ i := by
    rw [← pow_add, Nat.add_sub_cancel' (Nat.le_of_lt hij), ← (power_spec j).2.2, ← h, hi]
  have hunit : α ^ (255 - i) * α ^ i = 1 := by
    rw [← pow_add, Nat.sub_add_cancel (by omega), α_pow_255]
  have hone : value (power (j - i)) = value 1 := by
    rw [(power_spec (j - i)).2.2, value_one]
    calc α ^ (j - i) = α ^ (255 - i) * (α ^ i * α ^ (j - i)) := by rw [← mul_assoc, hunit, one_mul]
      _ = 1 := by rw [hpow, hunit]
  obtain ⟨k, hk⟩ := Nat.exists_eq_add_one.mpr (Nat.sub_pos_of_lt hij)
  rw [hk] at hone
  exact power_ne_one (by omega) (value_injective (power_spec _).1 (by decide) hone)

theorem power_injOn {i j : Nat} (hi : i < 255) (hj : j < 255) (h : power i = power j) : i = j := by
  rcases Nat.lt_trichotomy i j with hlt | heq | hlt
  · exact absurd h (power_inj hlt hj)
  · exact heq
  · exact absurd h.symm (power_inj hlt hi)

theorem nodup_powers : ((List.range 255).map power).Nodup :=
  List.nodup_range.map_on fun _ hi _ hj h => power_injOn (List.mem_range.mp hi) (List.mem_range.mp hj) h

/-- Every byte other than zero is a power. -/
theorem exists_power {a : Nat} (ha : a < 256) (hne : a ≠ 0) : ∃ k < 255, power k = a := by
  have hsub : (List.range 255).map power ⊆ List.range' 1 255 := by
    intro x hx
    obtain ⟨k, -, rfl⟩ := List.mem_map.mp hx
    have := power_spec k
    rw [List.mem_range'_1]
    omega
  have hperm := (List.subperm_of_subset nodup_powers hsub).perm_of_length_le (by simp)
  have hmem : a ∈ (List.range 255).map power := by
    rw [hperm.mem_iff, List.mem_range'_1]
    omega
  obtain ⟨k, hk, rfl⟩ := List.mem_map.mp hmem
  exact ⟨k, List.mem_range.mp hk, rfl⟩

/-- The tables after `k` turns of the first loop. -/
structure Filled (t : Tables) (k : Nat) : Prop where
  x : t.x = power k
  lengths : t.EXP.length = 512 ∧ t.LOG.length = 256
  exp : ∀ i < k, t.EXP.getD i 0 = .ofNat (power i)
  log : ∀ i < k, t.LOG.getD (power i) 0 = .ofNat i

theorem getD_set {β : Type} (l : List β) (i : Nat) (x : β) (j : Nat) (d : β) :
    (l.set i x).getD j d = if i = j ∧ i < l.length then x else l.getD j d := by
  rw [List.getD_eq_getElem?_getD, List.getElem?_set, List.getD_eq_getElem?_getD]
  by_cases hij : i = j
  · subst hij
    by_cases hlt : i < l.length <;> simp [hlt]
  · simp [hij]

theorem filled_fill {t : Tables} {k : Nat} (h : Filled t k) (hk : k < 255) : Filled (t.fill k) (k + 1) := by
  have hlt := (power_spec k).1
  constructor
  · show double t.x = power (k + 1)
    rw [power_succ, h.x]
  · rw [Tables.fill, List.length_set, List.length_set]
    exact h.lengths
  · intro i hi
    show (t.EXP.set k (.ofNat t.x)).getD i 0 = _
    rw [getD_set, h.lengths.1, h.x]
    by_cases hik : k = i
    · subst hik
      rw [if_pos ⟨rfl, by omega⟩]
    · rw [if_neg fun hand => hik hand.1]
      exact h.exp i (by omega)
  · intro i hi
    show (t.LOG.set t.x (.ofNat k)).getD (power i) 0 = _
    rw [getD_set, h.lengths.2, h.x]
    by_cases hik : k = i
    · subst hik
      rw [if_pos ⟨rfl, hlt⟩]
    · -- no later power is written over an earlier one
      have hne : power k ≠ power i := fun heq => hik (power_injOn hk (by omega) heq)
      rw [if_neg fun hand => hne hand.1]
      exact h.log i (by omega)

theorem filled_range {k : Nat} (hk : k ≤ 255) :
    Filled ((List.range k).foldl Tables.fill ⟨1, List.replicate 512 0, List.replicate 256 0⟩) k := by
  induction k with
  | zero =>
    refine ⟨rfl, ⟨List.length_replicate, List.length_replicate⟩, ?_, ?_⟩
    · intro i hi
      omega
    · intro i hi
      omega
  | succ k ih =>
    rw [List.range_succ, List.foldl_append]
    exact filled_fill (ih (by omega)) (by omega)

/-- The element that a byte stands for. -/
noncomputable def symbol (b : UInt8) : GF := value b.toNat

@[simp] theorem symbol_zero : symbol 0 = 0 := value_zero

@[simp] theorem symbol_one : symbol 1 = 1 := value_one

theorem symbol_xor (a b : UInt8) : symbol (a ^^^ b) = symbol a + symbol b := by
  rw [symbol, UInt8.toNat_xor]
  exact value_xor ..

theorem symbol_power (k : Nat) : symbol (.ofNat (power k)) = α ^ k := by
  obtain ⟨hlt, -, hvalue⟩ := power_spec k
  rw [symbol, UInt8.toNat_ofNat_of_lt' hlt, hvalue]

/-- The second loop writes the powers once more. -/
theorem extend_spec {l : List UInt8} (hlength : l.length = 512) (hpowers : ∀ i < 255, symbol (l.getD i 0) = α ^ i)
    {k : Nat} (hk : 255 + k ≤ 512) :
    ((List.range' 255 k).foldl (fun EXP i => EXP.set i (EXP.getD (i - 255) 0)) l).length = 512 ∧
    ∀ i < 255 + k, symbol (((List.range' 255 k).foldl (fun EXP i => EXP.set i (EXP.getD (i - 255) 0)) l).getD i 0) =
      α ^ i := by
  induction k with
  | zero => exact ⟨hlength, hpowers⟩
  | succ k ih =>
    obtain ⟨hlength', hall⟩ := ih (by omega)
    rw [List.range'_concat, List.foldl_append, Nat.one_mul]
    refine ⟨by rw [List.foldl_cons, List.foldl_nil, List.length_set, hlength'], ?_⟩
    intro i hi
    rw [List.foldl_cons, List.foldl_nil, getD_set, hlength']
    by_cases hik : 255 + k = i
    · rw [if_pos ⟨hik, by omega⟩, ← hik, Nat.add_sub_cancel_left, hall k (by omega), pow_add, α_pow_255, one_mul]
    · rw [if_neg fun hand => hik hand.1]
      exact hall i (by omega)

theorem initTables_spec : ∃ t, Filled t 255 ∧ initTables.LOG = t.LOG ∧
    initTables.EXP = (List.range' 255 257).foldl (fun EXP i => EXP.set i (EXP.getD (i - 255) 0)) t.EXP := by
  have hfilled := filled_range (Nat.le_refl 255)
  unfold initTables
  generalize (List.range 255).foldl Tables.fill ⟨1, List.replicate 512 0, List.replicate 256 0⟩ = t at hfilled ⊢
  refine ⟨t, hfilled, rfl, ?_⟩
  dsimp only

/-- **The table of powers.** -/
theorem symbol_EXP {i : Nat} (hi : i < 512) : symbol (EXP i) = α ^ i := by
  obtain ⟨t, hfilled, -, hEXP⟩ := initTables_spec
  have hpowers : ∀ j < 255, symbol (t.EXP.getD j 0) = α ^ j := by
    intro j hj
    rw [hfilled.exp j hj, symbol_power]
  rw [EXP, hEXP]
  exact (extend_spec hfilled.lengths.1 hpowers (by decide)).2 i hi

/-- **The table of logarithms.** -/
theorem LOG_spec {a : UInt8} (ha : a ≠ 0) : LOG a < 255 ∧ symbol a = α ^ LOG a := by
  have hne : a.toNat ≠ 0 := fun h => ha (UInt8.toNat_inj.mp h)
  obtain ⟨k, hk, hpower⟩ := exists_power a.toNat_lt hne
  have hlog : LOG a = k := by
    obtain ⟨t, hfilled, hLOG, -⟩ := initTables_spec
    rw [LOG, ← hpower, hLOG, hfilled.log k hk, UInt8.toNat_ofNat_of_lt' (by show k < 256; omega)]
  rw [hlog, symbol, ← hpower]
  exact ⟨hk, (power_spec k).2.2⟩

/-! ## Multiplication -/

theorem symbol_gfMul (a b : UInt8) : symbol (gfMul a b) = symbol a * symbol b := by
  rw [gfMul]
  split
  · rename_i hzero
    rcases hzero with rfl | rfl <;> simp
  · rename_i hne
    rw [not_or] at hne
    obtain ⟨hla, ha⟩ := LOG_spec hne.1
    obtain ⟨hlb, hb⟩ := LOG_spec hne.2
    rw [symbol_EXP (by omega), ha, hb, pow_add]

/-! ## Multiplication without the tables -/

/-- The sum of the doublings of one byte at the bits of the other. -/
def product (a b : Nat) : Nat := (List.range 8).foldl (fun s i => if b.testBit i then s ^^^ double^[i] a else s) 0

theorem iterate_double {a : Nat} (ha : a < 256) (i : Nat) : double^[i] a < 256 ∧ value (double^[i] a) = α ^ i * value a := by
  induction i with
  | zero => exact ⟨ha, by rw [pow_zero, one_mul]; rfl⟩
  | succ i ih =>
    rw [Function.iterate_succ_apply']
    exact ⟨(double_spec _ ih.1).1, by rw [value_double ih.1, ih.2, pow_succ', mul_assoc]⟩

theorem value_product {a b : Nat} (ha : a < 256) (hb : b < 256) :
    product a b < 256 ∧ value (product a b) = value a * value b := by
  have hsum : ∀ m, (List.range m).foldl (fun s i => if b.testBit i then s ^^^ double^[i] a else s) 0 < 256 ∧
      value ((List.range m).foldl (fun s i => if b.testBit i then s ^^^ double^[i] a else s) 0) =
        value a * ∑ i ∈ Finset.range m, if b.testBit i then α ^ i else 0 := by
    intro m
    induction m with
    | zero =>
      refine ⟨Nat.zero_lt_succ _, ?_⟩
      rw [Finset.sum_range_zero, mul_zero]
      exact value_zero
    | succ m ih =>
      rw [List.range_succ, List.foldl_append, Finset.sum_range_succ, mul_add, ← ih.2]
      obtain ⟨hlt, hvalue⟩ := iterate_double ha m
      rw [List.foldl_cons, List.foldl_nil]
      cases b.testBit m with
      | false => exact ⟨ih.1, by simp⟩
      | true =>
        refine ⟨Nat.xor_lt_two_pow (n := 8) ih.1 hlt, ?_⟩
        rw [if_pos rfl, if_pos rfl, value_xor, hvalue, mul_comm (α ^ m)]
  rw [value_byte hb]
  exact hsum 8

theorem eq_zero_of_symbol {b : UInt8} (h : symbol b = 0) : b = 0 := UInt8.toNat_inj.mp (eq_zero_of_value b.toNat_lt h)

theorem gfMul_eq (a b : UInt8) : gfMul a b = .ofNat (product a.toNat b.toNat) := by
  obtain ⟨hlt, hvalue⟩ := value_product a.toNat_lt b.toNat_lt
  apply UInt8.toNat_inj.mp
  apply value_injective (UInt8.toNat_lt _) (UInt8.toNat_lt _)
  show symbol (gfMul a b) = _
  rw [symbol_gfMul, UInt8.toNat_ofNat_of_lt' hlt, hvalue, symbol, symbol]

end Qr
end MaterialOpenWebui
