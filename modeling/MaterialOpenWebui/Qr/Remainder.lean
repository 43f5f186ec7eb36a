import MaterialOpenWebui.Lib.ShiftRegister
import MaterialOpenWebui.Qr.Field
import Mathlib.Algebra.Polynomial.BigOperators

/-!
# `Qr.Remainder` — what the error-correction bytes are the remainder of

A reader takes the bytes of a block, error correction included, for the coefficients of a polynomial that the generator
divides. `rsGenerator` returns the coefficients of the generator, the lowest first (`coeff_generator`). `rsEncode` divides as
if the highest were first, that is by another polynomial, `misread`: this one divides every block (`misread_dvd`), and the
generator divides only blocks whose data it could share with it (`generator_dvd_iff`).
-/

namespace MaterialOpenWebui
namespace Qr
open Js Polynomial ShiftRegister

/-! ## Polynomials -/

noncomputable def generator (n : Nat) : GF[X] := ∏ i ∈ Finset.range n, (X - C (α ^ i))

/-- `X ^ n + g₁ X ^ (n - 1) + ⋯ + gₙ`, where `gᵢ` is the coefficient of `X ^ i` in the generator. -/
noncomputable def misread (n : Nat) : GF[X] := divisor ((List.range n).map fun i => (generator n).coeff (i + 1))

/-- The bytes of a block, highest degree first. -/
noncomputable def codeword (data ecc : List UInt8) : GF[X] := poly ((data ++ ecc).map symbol)

/-! ## The generator -/

section
variable (cs : List UInt8) (e : UInt8)

theorem length_spread (next : List UInt8) (j : Nat) : (spread cs e next j).length = next.length := by
  rw [spread, List.length_set, List.length_set]

/-- One turn adds to two places. -/
theorem symbol_spread {next : List UInt8} {j : Nat} (hj : j + 1 < next.length) (k : Nat) :
    symbol ((spread cs e next j).getD k 0) = symbol (next.getD k 0) +
      ((if k = j then symbol (cs.getD j 0) * symbol e else 0) + if k = j + 1 then symbol (cs.getD j 0) else 0) := by
  rw [spread, getD_set, getD_set, getD_set, List.length_set]
  by_cases hnext : k = j + 1
  · subst hnext
    rw [if_pos ⟨rfl, hj⟩, if_neg (by omega), if_neg (by omega), if_pos rfl, symbol_xor, zero_add]
  · rw [if_neg (fun hand => hnext hand.1.symm), if_neg hnext, add_zero]
    by_cases hsame : k = j
    · subst hsame
      rw [if_pos ⟨rfl, by omega⟩, if_pos rfl, symbol_xor, symbol_gfMul]
    · rw [if_neg (fun hand => hsame hand.1.symm), if_neg hsame, add_zero]

/-- The turns of the inner loop so far. -/
theorem symbol_spreads {m : Nat} (hm : m ≤ cs.length) :
    ((List.range m).foldl (spread cs e) (List.replicate (cs.length + 1) 0)).length = cs.length + 1 ∧
    ∀ k, symbol (((List.range m).foldl (spread cs e) (List.replicate (cs.length + 1) 0)).getD k 0) =
      ∑ j ∈ Finset.range m,
        ((if k = j then symbol (cs.getD j 0) * symbol e else 0) + if k = j + 1 then symbol (cs.getD j 0) else 0) := by
  induction m with
  | zero =>
    refine ⟨List.length_replicate, fun k => ?_⟩
    have hzero : (List.replicate (cs.length + 1) (0 : UInt8)).getD k 0 = 0 := by
      rw [List.getD_eq_getElem?_getD, List.getElem?_replicate]
      split <;> rfl
    show symbol ((List.replicate (cs.length + 1) (0 : UInt8)).getD k 0) = _
    rw [hzero, symbol_zero, Finset.sum_range_zero]
  | succ m ih =>
    obtain ⟨hlength, hsum⟩ := ih (by omega)
    rw [List.range_succ, List.foldl_append, List.foldl_cons, List.foldl_nil]
    refine ⟨by rw [length_spread, hlength], fun k => ?_⟩
    rw [symbol_spread cs e (by omega), hsum, Finset.sum_range_succ]

/-- What the inner loop makes of the coefficients: those of a product. -/
theorem symbol_spread_all (k : Nat) :
    symbol (((List.range cs.length).foldl (spread cs e) (List.replicate (cs.length + 1) 0)).getD k 0) =
      symbol (cs.getD k 0) * symbol e + if k = 0 then 0 else symbol (cs.getD (k - 1) 0) := by
  have hbeyond : ∀ i, ¬ i < cs.length → symbol (cs.getD i 0) = 0 := by
    intro i hi
    rw [List.getD_eq_getElem?_getD, List.getElem?_eq_none (Nat.not_lt.mp hi), Option.getD_none, symbol_zero]
  rw [(symbol_spreads cs e (Nat.le_refl _)).2, Finset.sum_add_distrib, Finset.sum_ite_eq]
  congr 1
  · by_cases hk : k < cs.length
    · rw [if_pos (Finset.mem_range.mpr hk)]
    · rw [if_neg (fun hmem => hk (Finset.mem_range.mp hmem)), hbeyond k hk, zero_mul]
  · cases k with
    | zero => simp
    | succ k =>
      simp only [Nat.add_right_cancel_iff, Finset.sum_ite_eq, Finset.mem_range, Nat.add_one_ne_zero, if_false,
        Nat.add_sub_cancel]
      by_cases hk : k < cs.length
      · rw [if_pos hk]
      · rw [if_neg hk, hbeyond k hk]

end

theorem generator_succ (n : Nat) : generator (n + 1) = generator n * (X - C (α ^ n)) := Finset.prod_range_succ ..

theorem rsGenerator_succ (n : Nat) : rsGenerator (n + 1) =
    (List.range (rsGenerator n).length).foldl (spread (rsGenerator n) (EXP n))
      (List.replicate ((rsGenerator n).length + 1) 0) := by
  rw [rsGenerator, List.range_succ, List.foldl_append]
  rfl

/-- **The generator**, its lowest coefficient first. -/
theorem coeff_generator {n : Nat} (hn : n ≤ 255) (k : Nat) :
    symbol ((rsGenerator n).getD k 0) = (generator n).coeff k := by
  induction n generalizing k with
  | zero =>
    cases k with
    | zero =>
      show symbol 1 = _
      simp [generator]
    | succ k =>
      show symbol 0 = _
      simp [generator, coeff_one]
  | succ n ih =>
    rw [rsGenerator_succ, symbol_spread_all, symbol_EXP (by omega), generator_succ, ih (by omega)]
    cases k with
    | zero =>
      rw [if_pos rfl, add_zero, mul_coeff_zero, coeff_sub, coeff_X_zero, coeff_C_zero, zero_sub,
        ZModModule.neg_eq_self]
    | succ k =>
      rw [if_neg (Nat.add_one_ne_zero k), Nat.add_sub_cancel, ih (by omega), coeff_mul_X_sub_C,
        ZModModule.sub_eq_add, add_comm]

/-! ## Division -/

/-- One turn of `rsEncode` is one of the register. -/
theorem map_rsTurn (gen : List UInt8) {n : Nat} (hn : 0 < n) {result : List UInt8} (hlength : result.length = n)
    (byte : UInt8) : (rsTurn gen n result byte).map symbol =
      feed ((List.range n).map fun i => symbol (gen.getD (i + 1) 0)) (result.map symbol) (symbol byte) := by
  cases result with
  | nil =>
    rw [List.length_nil] at hlength
    omega
  | cons r result =>
    have hmoved : ((r :: result).tail ++ (r :: result).getLast?.toList).set (n - 1) 0 = result ++ [0] := by
      obtain ⟨last, hlast⟩ := Option.isSome_iff_exists.mp (List.getLast?_isSome.mpr (List.cons_ne_nil r result))
      have hplace : n - 1 = result.length := by rw [← hlength, List.length_cons, Nat.add_sub_cancel]
      rw [hlast, hplace, List.tail_cons, Option.toList_some, List.set_append_right _ _ (Nat.le_refl _), Nat.sub_self]
      rfl
    rw [rsTurn, hmoved, List.getD_cons_zero, feed, List.map_cons, List.headD_cons, List.tail_cons]
    apply List.ext_getElem
    · simp [← hlength]
    · intro i hi hi'
      simp only [List.getElem_map, List.getElem_zipIdx, List.getElem_zipWith, List.getElem_range, Nat.zero_add,
        symbol_xor, symbol_gfMul, ZModModule.sub_eq_add]
      congr 1
      have hmap : result.map symbol ++ [0] = (result ++ [0]).map symbol := by simp
      simp only [hmap, List.getElem_map]

section
variable {n : Nat} (hn : 0 < n) (hle : n ≤ 255)
include hn hle

/-- The loop of `rsEncode` is the register. -/
theorem map_rsEncode (data : List UInt8) : (rsEncode data n).map symbol =
    (data.map symbol).foldl (feed ((List.range n).map fun i => (generator n).coeff (i + 1))) (List.replicate n 0) := by
  have htaps : ((List.range n).map fun i => symbol ((rsGenerator n).getD (i + 1) 0)) =
      (List.range n).map fun i => (generator n).coeff (i + 1) := List.map_congr_left fun i _ => coeff_generator hle (i + 1)
  induction data using List.reverseRecOn with
  | nil =>
    show (List.replicate n 0).map symbol = List.replicate n 0
    rw [List.map_replicate, symbol_zero]
  | append_singleton data byte ih =>
    have hturn := map_rsTurn (rsGenerator n) hn (length_rsEncode data n) byte
    rw [htaps] at hturn
    rw [List.map_append, List.foldl_append, ← ih, rsEncode, List.foldl_append]
    exact hturn

/-- **The bytes of every block** are divided by what the generator is taken for. -/
theorem misread_dvd (data : List UInt8) : misread n ∣ codeword data (rsEncode data n) := by
  have hpos : 0 < ((List.range n).map fun i => (generator n).coeff (i + 1)).length := by simpa using hn
  have hdvd := (divisor_dvd hpos (data.map symbol)).2
  rw [List.length_map, List.length_range, ← map_rsEncode hn hle, ZModModule.sub_eq_add] at hdvd
  rwa [codeword, List.map_append, poly_append, List.length_map, length_rsEncode]

/-- **Divided by the generator** are the blocks whose data some bytes complete to a multiple of both polynomials. -/
theorem generator_dvd_iff (data : List UInt8) : generator n ∣ codeword data (rsEncode data n) ↔
    ∃ ecc : List UInt8, ecc.length = n ∧ generator n ∣ codeword data ecc ∧ misread n ∣ codeword data ecc := by
  have hlength := length_rsEncode data n
  have hmisread := misread_dvd hn hle data
  constructor
  · intro h
    exact ⟨_, hlength, h, hmisread⟩
  · rintro ⟨ecc, hecc, hdvd, hdvd'⟩
    -- only one remainder has the length of the register
    have hsame : poly (ecc.map symbol) = poly ((rsEncode data n).map symbol) := by
      rw [codeword, List.map_append] at hmisread hdvd'
      refine remainder_unique ?_ ?_ hdvd' hmisread
      · rw [List.length_map, List.length_map, List.length_range, hecc]
      · rw [List.length_map, List.length_map, List.length_range, hlength]
    have hcodeword : codeword data ecc = codeword data (rsEncode data n) := by
      rw [codeword, codeword, List.map_append, List.map_append, poly_append, poly_append, hsame, List.length_map,
        List.length_map, hecc, hlength]
    rwa [hcodeword] at hdvd

end

/-! ## Texts -/

/-- The versions that `encode` chooses from. -/
theorem eccLength_of_accepts {text : JsString} {version : Nat} {spec : Version}
    (h : accepts text = some (version, spec)) : 0 < spec.eccLength ∧ spec.eccLength ≤ 255 := by
  have hall : ∀ p ∈ (List.range' 1 10).filterMap (fun v => (VERSIONS v).map fun spec => (v, spec)),
      0 < p.2.eccLength ∧ p.2.eccLength ≤ 255 := by decide
  rw [accepts] at h
  split at h
  · cases h
  · exact hall _ (List.mem_of_find?_eq_some h)

/-- **What a reader accepts as it is.** The generator divides every block of a text exactly if the data of each block are
    the leading bytes of a common multiple, of the block's length, of the generator and what it is taken for. -/
theorem codewords_iff {text : JsString} {version : Nat} {spec : Version} (h : accepts text = some (version, spec)) :
    (∀ block ∈ dataBlocks text version spec,
      generator spec.eccLength ∣ codeword block (rsEncode block spec.eccLength)) ↔
    ∀ block ∈ dataBlocks text version spec, ∃ ecc : List UInt8, ecc.length = spec.eccLength ∧
      generator spec.eccLength ∣ codeword block ecc ∧ misread spec.eccLength ∣ codeword block ecc := by
  obtain ⟨hpos, hle⟩ := eccLength_of_accepts h
  exact forall₂_congr fun block _ => generator_dvd_iff hpos hle block

theorem codewords_iff_of_a :
    (∀ block ∈ dataBlocks (ofChars ['a']) 1 ⟨26, 10, 1, 16, 0, 0⟩, generator 10 ∣ codeword block (rsEncode block 10)) ↔
    ∀ block ∈ dataBlocks (ofChars ['a']) 1 ⟨26, 10, 1, 16, 0, 0⟩, ∃ ecc : List UInt8, ecc.length = 10 ∧
      generator 10 ∣ codeword block ecc ∧ misread 10 ∣ codeword block ecc :=
  codewords_iff (by decide +kernel : accepts (ofChars ['a']) = some (1, ⟨26, 10, 1, 16, 0, 0⟩))

/-- A syndrome of a block: its polynomial at a power of the root. -/
def syndrome (bytes : List UInt8) (i : Nat) : UInt8 := bytes.foldl (fun s b => gfMul s (EXP i) ^^^ b) 0

theorem symbol_syndrome (bytes : List UInt8) {i : Nat} (hi : i < 512) :
    symbol (syndrome bytes i) = (poly (bytes.map symbol)).eval (α ^ i) := by
  induction bytes using List.reverseRecOn with
  | nil =>
    show symbol 0 = _
    rw [symbol_zero, List.map_nil, poly_nil, eval_zero]
  | append_singleton bytes b ih =>
    rw [List.map_append, List.map_cons, List.map_nil, poly_concat, eval_add, eval_mul, eval_X, eval_C, ← ih, syndrome,
      List.foldl_append, List.foldl_cons, List.foldl_nil, symbol_xor, symbol_gfMul, symbol_EXP hi]
    rfl

/-- A multiple of the generator has no syndrome but zero. -/
theorem syndrome_of_dvd {data ecc : List UInt8} {n i : Nat} (hi : i < n) (hn : n ≤ 512)
    (h : generator n ∣ codeword data ecc) : syndrome (data ++ ecc) i = 0 := by
  apply eq_zero_of_symbol
  rw [symbol_syndrome _ (by omega)]
  have hfactor : (X - C (α ^ i)) ∣ generator n :=
    Finset.dvd_prod_of_mem (fun i => X - C (α ^ i)) (Finset.mem_range.mpr hi)
  exact dvd_iff_isRoot.mp (hfactor.trans h)

/-- The only block of the text `a`: its bytes add up to 25, and not to zero. -/
theorem codewords_of_a : ∃ version spec, accepts (ofChars ['a']) = some (version, spec) ∧
    ¬ ∀ block ∈ dataBlocks (ofChars ['a']) version spec,
      generator spec.eccLength ∣ codeword block (rsEncode block spec.eccLength) := by
  refine ⟨1, ⟨26, 10, 1, 16, 0, 0⟩, by decide +kernel, ?_⟩
  intro hall
  have hblock : dataBlocks (ofChars ['a']) 1 ⟨26, 10, 1, 16, 0, 0⟩ =
      [[64, 22, 16, 236, 17, 236, 17, 236, 17, 236, 17, 236, 17, 236, 17, 236]] := by decide +kernel
  rw [hblock] at hall
  have hzero := syndrome_of_dvd (by decide : 0 < 10) (by decide) (hall _ (List.mem_singleton_self _))
  revert hzero
  unfold syndrome rsEncode rsTurn rsGenerator spread
  simp only [gfMul_eq]
  decide +kernel

end Qr
end MaterialOpenWebui
