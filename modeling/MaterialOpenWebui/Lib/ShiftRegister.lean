import Mathlib.Algebra.Polynomial.Degree.Lemmas
import Mathlib.Algebra.Polynomial.Monic
import Mathlib.Tactic.LinearCombination
import Mathlib.Tactic.Ring

/-!
# `Lib.ShiftRegister` — division by a monic polynomial, one coefficient at a time

A register of `n` coefficients that is shifted for each coefficient of a message, highest degree first, and from which a
multiple of the taps is taken each time, holds what is left of the message, times `X ^ n`, by the polynomial whose lower
coefficients are the taps (`divisor_dvd`). Nothing else of its length is left of the message (`remainder_unique`).

Which polynomial a register divides by is thus told by its taps alone.
-/

namespace ShiftRegister
open Polynomial

variable {R : Type} [CommRing R]

/-! ## Coefficients, highest degree first -/

noncomputable def poly (cs : List R) : R[X] := cs.foldl (fun p c => p * X + C c) 0

@[simp] theorem poly_nil : poly ([] : List R) = 0 := rfl

theorem poly_concat (cs : List R) (c : R) : poly (cs ++ [c]) = poly cs * X + C c := by
  rw [poly, List.foldl_append]
  rfl

theorem poly_append (cs ds : List R) : poly (cs ++ ds) = poly cs * X ^ ds.length + poly ds := by
  induction ds using List.reverseRecOn with
  | nil => simp
  | append_singleton ds d ih =>
    rw [← List.append_assoc, poly_concat, ih, poly_concat, List.length_append, List.length_singleton]
    ring

theorem poly_cons (c : R) (cs : List R) : poly (c :: cs) = C c * X ^ cs.length + poly cs := by
  have hone : poly [c] = C c := by simp [poly]
  have h := poly_append [c] cs
  rwa [hone, List.singleton_append] at h

theorem degree_poly_lt (cs : List R) : (poly cs).degree < cs.length := by
  induction cs with
  | nil => simp
  | cons c cs ih =>
    rw [poly_cons, List.length_cons]
    refine (degree_add_le _ _).trans_lt (max_lt ?_ ?_)
    · exact (degree_C_mul_X_pow_le _ _).trans_lt (by exact_mod_cast Nat.lt_succ_self _)
    · exact ih.trans (by exact_mod_cast Nat.lt_succ_self _)

/-- Taking a multiple of one list from another of its length. -/
theorem poly_zipWith (f : R) {cs ts : List R} (h : cs.length = ts.length) :
    poly (List.zipWith (fun c t => c - t * f) cs ts) = poly cs - C f * poly ts := by
  induction cs generalizing ts with
  | nil =>
    rw [List.length_nil] at h
    rw [List.eq_nil_of_length_eq_zero h.symm]
    simp
  | cons c cs ih =>
    cases ts with
    | nil => cases h
    | cons t ts =>
      have hlength : cs.length = ts.length := Nat.succ.inj h
      rw [List.zipWith_cons_cons, poly_cons, poly_cons, poly_cons, ih hlength, List.length_zipWith, hlength,
        Nat.min_self]
      simp only [C_sub, C_mul]
      ring

/-! ## The register -/

/-- One more coefficient of the message. -/
def feed (taps reg : List R) (b : R) : List R :=
  List.zipWith (fun r t => r - t * (b + reg.headD 0)) (reg.tail ++ [0]) taps

/-- What the register divides by. -/
noncomputable def divisor (taps : List R) : R[X] := X ^ taps.length + poly taps

theorem length_feed {taps reg : List R} (hreg : reg.length = taps.length) (hpos : 0 < taps.length) (b : R) :
    (feed taps reg b).length = taps.length := by
  rw [feed, List.length_zipWith, List.length_append, List.length_tail, List.length_singleton]
  omega

/-- The register is shifted, the new coefficient comes in above it, and a multiple of the divisor is taken off. -/
theorem poly_feed {taps reg : List R} (hreg : reg.length = taps.length) (hpos : 0 < taps.length) (b : R) :
    poly (feed taps reg b) =
      poly reg * X + C b * X ^ taps.length - C (b + reg.headD 0) * divisor taps := by
  cases reg with
  | nil =>
    rw [List.length_nil] at hreg
    omega
  | cons r reg =>
    have hlength : (reg ++ [0]).length = taps.length := by
      rw [List.length_append, List.length_singleton, ← hreg, List.length_cons]
    rw [feed, List.tail_cons, poly_zipWith _ hlength, poly_concat, divisor, poly_cons, List.headD_cons, ← hreg,
      List.length_cons]
    simp only [C_0, C_add]
    ring

/-- **What is left of a message** differs from it by a multiple of the divisor. -/
theorem divisor_dvd {taps : List R} (hpos : 0 < taps.length) (message : List R) :
    (message.foldl (feed taps) (List.replicate taps.length 0)).length = taps.length ∧
    divisor taps ∣ poly message * X ^ taps.length -
      poly (message.foldl (feed taps) (List.replicate taps.length 0)) := by
  induction message using List.reverseRecOn with
  | nil =>
    have hzero : ∀ n, poly (List.replicate n (0 : R)) = 0 := by
      intro n
      induction n with
      | zero => rfl
      | succ n ih => rw [List.replicate_succ, poly_cons, ih]; simp
    simp [hzero]
  | append_singleton message b ih =>
    obtain ⟨hlength, q, hq⟩ := ih
    rw [List.foldl_append, List.foldl_cons, List.foldl_nil]
    refine ⟨length_feed hlength hpos b, ?_⟩
    rw [poly_feed hlength hpos, poly_concat]
    exact ⟨q * X + C (b + _), by linear_combination X * hq⟩

theorem monic_divisor (taps : List R) : (divisor taps).Monic := monic_X_pow_add (degree_poly_lt taps)

variable [Nontrivial R]

theorem degree_divisor (taps : List R) : (divisor taps).degree = taps.length := by
  have hlt : (poly taps).degree < (X ^ taps.length : R[X]).degree := by
    rw [degree_X_pow]
    exact degree_poly_lt taps
  rw [divisor, degree_add_eq_left_of_degree_lt hlt, degree_X_pow]

/-- What has the length of the register and differs from the message by a multiple of the divisor is what is left of it. -/
theorem remainder_unique {taps message rest rest' : List R} (hrest : rest.length = taps.length)
    (hrest' : rest'.length = taps.length) (h : divisor taps ∣ poly (message ++ rest))
    (h' : divisor taps ∣ poly (message ++ rest')) : poly rest = poly rest' := by
  have hdvd : divisor taps ∣ poly rest - poly rest' := by
    have hsub := dvd_sub h h'
    rwa [poly_append, poly_append, hrest, hrest', add_sub_add_left_eq_sub] at hsub
  by_contra hne
  refine (monic_divisor taps).not_dvd_of_degree_lt (sub_ne_zero.mpr hne) ?_ hdvd
  rw [degree_divisor]
  refine (degree_sub_le _ _).trans_lt (max_lt ?_ ?_)
  · exact hrest ▸ degree_poly_lt rest
  · exact hrest' ▸ degree_poly_lt rest'

end ShiftRegister
