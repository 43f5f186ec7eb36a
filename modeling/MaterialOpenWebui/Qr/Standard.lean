import MaterialOpenWebui.Qr.RoundTrip

/-!
# `Qr.Standard` — the symbol as ISO/IEC 18004 has it

Where a reader looks for the format, the version and the codewords. What the encoder draws agrees with it for the smaller versions
but for one thing: the first copy of the format word is transposed, so a reader finds its bits in the reverse order, and no word
of level M reads the same both ways. The decoder of the same file reads what the encoder wrote.
-/

namespace MaterialOpenWebui
namespace Qr
open Js BitString

/-! ## The layout -/

namespace Standard

/-- The module of a bit of the format word, the least significant bit first: down column 8, then to the left in row 8. -/
def formatPlace (i : Nat) : Nat × Nat :=
  if i < 6 then (i, 8) else if i = 6 then (7, 8) else if i = 7 then (8, 8) else if i = 8 then (8, 7) else (8, 14 - i)

/-- The second copy: in row 8 from the right, then down column 8 at the bottom. -/
def duplicatePlace (size i : Nat) : Nat × Nat := if i < 8 then (8, size - 1 - i) else (size - 15 + i, 8)

/-- The words of level M. -/
def formatWords : List Nat := [0x5412, 0x5125, 0x5e7c, 0x5b4b, 0x45f9, 0x40ce, 0x4f97, 0x4aa0]

def versionWord : Nat → Nat
  | 7 => 0x07c94
  | 8 => 0x085bc
  | 9 => 0x09a99
  | 10 => 0x0a4d3
  | _ => 0

/-- The module of a bit of the version word, above the lower left finder; transposed, it is left of the upper right one. -/
def versionPlace (size i : Nat) : Nat × Nat := (size - 11 + i % 3, i / 3)

def isFinder (size row col : Nat) : Bool :=
  decide (row < 8 ∧ col < 8) || decide (row < 8 ∧ size - 8 ≤ col) || decide (size - 8 ≤ row ∧ col < 8)

def isFormat (size row col : Nat) : Bool :=
  decide (row = 8 ∧ (col ≤ 8 ∨ size - 8 ≤ col)) || decide (col = 8 ∧ (row ≤ 8 ∨ size - 7 ≤ row))

def isVersion (version size row col : Nat) : Bool :=
  decide (7 ≤ version) && (decide (row < 6 ∧ size - 11 ≤ col ∧ col < size - 8) || decide (col < 6 ∧
    size - 11 ≤ row ∧ row < size - 8))

/-- Finders with their separators, timing, alignment, format, version and the dark module. -/
def isPattern (version size row col : Nat) : Bool :=
  isFinder size row col || decide (row = 6 ∨ col = 6) ||
    ((alignmentCentres version size).any fun p => decide (distance row p.1 ≤ 2 ∧ distance col p.2 ≤ 2)) ||
    isFormat size row col || isVersion version size row col || decide (row = size - 8 ∧ col = 8)

/-- The right column of a pair; the pairs pass over the timing column. -/
def pairColumn (size k : Nat) : Nat := if size - 1 - 2 * k ≤ 6 then size - 2 - 2 * k else size - 1 - 2 * k

/-- The modules of a pair of columns, upward or downward. -/
def column (size : Nat) (upward : Bool) (right : Nat) : List (Nat × Nat) :=
  (List.range size).flatMap fun step =>
    let row := if upward then size - 1 - step else step
    [(row, right), (row, right - 1)]

/-- From the lower right corner, upward and downward in turns. -/
def path (size : Nat) : List (Nat × Nat) :=
  (List.range ((size - 1) / 2)).flatMap fun k => column size (k % 2 == 0) (pairColumn size k)

def dataModules (version size : Nat) : List (Nat × Nat) := (path size).filter fun p => !isPattern version size p.1 p.2

end Standard

open Standard

def Symbol.dark (s : Symbol) (p : Nat × Nat) : Bool := truthy (s.modules p.1 p.2)

/-- The symbol has its format, its version and these codewords where a reader looks for them. -/
structure Conforms (s : Symbol) (codewords : List UInt8) : Prop where
  format : ∀ i < 15, s.dark (formatPlace i) = (formatWords.getD s.mask 0).testBit i
  duplicate : ∀ i < 15, s.dark (duplicatePlace s.size i) = (formatWords.getD s.mask 0).testBit i
  version : 7 ≤ s.version → ∀ i < 18, s.dark (versionPlace s.size i) = (versionWord s.version).testBit i ∧
    s.dark (versionPlace s.size i).swap = (versionWord s.version).testBit i
  data : ((dataModules s.version s.size).map fun p => s.dark p != MASKS s.mask p.1 p.2) =
    codewords.flatMap byteBits ++ List.replicate ((dataModules s.version s.size).length - 8 * codewords.length) false

/-! ## What is right -/

theorem formatBits_eq : ∀ mask < 8, formatBits mask = formatWords.getD mask 0 := by decide

/-- The columns that the code visits. -/
theorem rightsFrom_eq {size : Nat} (hodd : size % 2 = 1) {fuel k : Nat} (hfuel : (size - 1) / 2 - k ≤ fuel) :
    rightsFrom fuel (if 6 ≤ size - 1 - 2 * k then size - 1 - 2 * k else size - 2 - 2 * k) =
      (List.range' k ((size - 1) / 2 - k)).map (pairColumn size) := by
  induction fuel generalizing k with
  | zero =>
    have hnone : (size - 1) / 2 - k = 0 := by omega
    rw [hnone]
    rfl
  | succ fuel ih =>
    by_cases hk : (size - 1) / 2 ≤ k
    · have hnone : (size - 1) / 2 - k = 0 := by omega
      rw [hnone, rightsFrom, if_pos (by split <;> omega)]
      rfl
    · obtain ⟨n, hn⟩ : ∃ n, (size - 1) / 2 - k = n + 1 := ⟨(size - 1) / 2 - k - 1, by omega⟩
      have hcount : (size - 1) / 2 - (k + 1) = n := by omega
      have hrest := ih (k := k + 1) (by omega)
      rw [hcount] at hrest
      -- the timing column is passed over where the pair would begin on it
      obtain ⟨start, hstart⟩ : ∃ start, (if 6 ≤ size - 1 - 2 * k then size - 1 - 2 * k else size - 2 - 2 * k) =
        start := ⟨_, rfl⟩
      have hhead : (if start = 6 then 5 else start) = pairColumn size k := by
        rw [← hstart, pairColumn]
        split <;> split <;> split <;> omega
      have hnext : pairColumn size k - 2 =
          if 6 ≤ size - 1 - 2 * (k + 1) then size - 1 - 2 * (k + 1) else size - 2 - 2 * (k + 1) := by
        rw [pairColumn]
        split <;> split <;> omega
      have hpos : ¬ start < 1 := by
        rw [← hstart]
        split <;> omega
      rw [hstart, hn, List.range'_succ, List.map_cons, ← hrest, ← hnext, rightsFrom, if_neg hpos, hhead]

theorem rights_eq {size : Nat} (hodd : size % 2 = 1) (hsize : 7 ≤ size) :
    rights size = (List.range ((size - 1) / 2)).map (pairColumn size) := by
  have h := rightsFrom_eq hodd (k := 0) (show (size - 1) / 2 - 0 ≤ size by omega)
  rw [if_pos (by omega), ← List.range_eq_range'] at h
  exact h

theorem columnsFrom_eq (size : Nat) (cols : Nat → Nat) (k n : Nat) :
    columnsFrom size (k % 2 == 0) ((List.range' k n).map cols) =
      (List.range' k n).flatMap fun k => column size (k % 2 == 0) (cols k) := by
  induction n generalizing k with
  | zero => rfl
  | succ n ih =>
    have hturn : (!(k % 2 == 0)) = ((k + 1) % 2 == 0) := by
      rcases Nat.mod_two_eq_zero_or_one k with h | h
      · rw [h, show (k + 1) % 2 = 1 by omega]
        rfl
      · rw [h, show (k + 1) % 2 = 0 by omega]
        rfl
    rw [List.range'_succ, List.map_cons, columnsFrom, List.flatMap_cons, hturn, ih]
    rfl

/-- The code goes the standard's way. -/
theorem zigzag_eq {size : Nat} (hodd : size % 2 = 1) (hsize : 7 ≤ size) : zigzag size = path size := by
  have h := columnsFrom_eq size (pairColumn size) 0 ((size - 1) / 2)
  rw [← List.range_eq_range'] at h
  rw [zigzag, rights_eq hodd hsize]
  exact h

/-- Without version information, the code leaves out the modules that the standard leaves out. -/
theorem isFunction_eq {version size row col : Nat} (hversion : version < 7) (hsize : 21 ≤ size)
    (hr : row < size) (hc : col < size) :
    isFunction version size row col = isPattern version size row col := by
  have hnone : ¬ 7 ≤ version := Nat.not_le.mpr hversion
  rw [Bool.eq_iff_iff]
  simp only [isFunction, isPattern, isFinder, isFormat, isVersion, Bool.or_eq_true,
    Bool.and_eq_true, decide_eq_true_eq, hnone,
    false_and, or_false]
  generalize (alignmentCentres version size).any _ = alignment
  cases alignment with
  | true => exact ⟨fun _ => .inl (.inl (.inr rfl)), fun _ => .inr rfl⟩
  | false =>
    simp only [Bool.false_eq_true, or_false]
    -- row by row: at the upper edge, on the line below it, in the middle, and at the lower edge
    rcases Nat.lt_or_ge row 8 with hrow | hrow
    · omega
    · rcases Nat.eq_or_lt_of_le hrow with hrow | hrow
      · omega
      · by_cases hlow : size - 8 ≤ row <;> omega

/-- **The codewords** of the versions without version information. -/
theorem data_conforms {text : JsString} {version : Nat} {spec : Version}
    (hchosen : chooseVersion (utf8 text).size = some (version, spec))
    (hversion : version < 7) (mask : Nat) :
    ((dataModules version (sizeFor version)).map fun p =>
        truthy ((candidate (baseMatrix text version spec) version mask).modules p.1 p.2) != MASKS mask p.1 p.2) =
      (buildCodewords text version spec).flatMap byteBits ++
        List.replicate ((dataModules version (sizeFor version)).length - 8 *
          (buildCodewords text version spec).length) false := by
  obtain ⟨hspec, hfits⟩ := chooseVersion_spec hchosen
  obtain ⟨hlower, -, hroom⟩ := version_spec hspec
  rw [← length_buildCodewords hfits] at hroom
  have hodd : sizeFor version % 2 = 1 := by rw [sizeFor]; omega
  have hlarge : 21 ≤ sizeFor version := by rw [sizeFor]; omega
  have hbase := size_baseMatrix text version spec
  have hmodules : dataModules version (sizeFor version) =
      (zigzag (sizeFor version)).filter fun p => !isFunction version (sizeFor version) p.1 p.2 := by
    rw [dataModules, ← zigzag_eq hodd (by omega)]
    refine List.filter_congr fun p hp => ?_
    obtain ⟨hr, hc⟩ := mem_zigzag hp
    rw [isFunction_eq hversion hlarge hr hc]
  have hplaced := pathBits_placeData (reserveFormat (placeFunctionPatterns (emptyMatrix (sizeFor version)) version)) version
    (buildCodewords text version spec)
  have hempty : (reserveFormat (placeFunctionPatterns (emptyMatrix (sizeFor version)) version)).size = sizeFor version := by
    rw [size_reserveFormat, size_placeFunctionPatterns]
    rfl
  rw [hempty, dataBits_eq _ hroom] at hplaced
  rw [hmodules, ← hplaced]
  -- at each module the mask is lifted
  refine List.map_congr_left fun p hp => ?_
  obtain ⟨hmem, hplain⟩ := List.mem_filter.mp hp
  rw [Bool.not_eq_true'] at hplain
  obtain ⟨hr, hc⟩ := mem_zigzag hmem
  have hlift := unmask_candidate (show 17 ≤ (baseMatrix text version spec).size by rw [hbase]; omega) mask
    (show p.1 < _ by rw [hbase]; exact hr) (show p.2 < _ by rw [hbase]; exact hc)
    (show isFunction version _ p.1 p.2 = false by rw [hbase]; exact hplain)
  have hmask : ∀ (v : Option Bool) (masked : Bool), (truthy v != masked) =
    truthy (if masked then some (!truthy v) else v) := by
    intro v masked
    cases v with
    | none => cases masked <;> rfl
    | some v => cases masked <;> cases v <;> rfl
  exact (hmask _ _).trans hlift

theorem data_conforms_a : ((dataModules 1 (sizeFor 1)).map fun p =>
      truthy ((candidate (baseMatrix (js "a") 1 ⟨26, 10, 1, 16, 0, 0⟩) 1 0).modules p.1 p.2) != MASKS 0 p.1 p.2) =
    (buildCodewords (js "a") 1 ⟨26, 10, 1, 16, 0, 0⟩).flatMap byteBits ++
      List.replicate ((dataModules 1 (sizeFor 1)).length -
        8 * (buildCodewords (js "a") 1 ⟨26, 10, 1, 16, 0, 0⟩).length) false := by
  have hchosen : chooseVersion (utf8 (js "a")).size = some (1, ⟨26, 10, 1, 16, 0, 0⟩) := by decide
  exact data_conforms hchosen (by decide) 0

/-! ## What is wrong -/

/-- The code reads and writes the first copy the other way round. -/
theorem formatPlace_eq : ∀ i < 15, formatPlace i = formatCell (14 - i) := by decide

/-- What a reader finds in the first copy is the word backwards. -/
theorem dark_formatPlace {m : Matrix} (hsize : 17 ≤ m.size) {mask : Nat} (hmask : mask < 8) {i : Nat} (hi : i < 15) :
    truthy ((placeFormat m mask).modules (formatPlace i).1 (formatPlace i).2) =
      (formatWords.getD mask 0).testBit (14 - i) := by
  rw [formatPlace_eq i hi, placeFormat_read hsize mask (by omega), testBit_eq, formatBits_eq mask hmask, truthy]
  cases (formatWords.getD mask 0).testBit (14 - i) <;> rfl

/-- The modules of the version information hold data instead. -/
theorem isFunction_versionPlace : ∀ version ∈ [7, 8, 9, 10], ∀ i < 18,
    isFunction version (sizeFor version) (versionPlace (sizeFor version) i).1 (versionPlace (sizeFor version) i).2 = false ∧
      isFunction version (sizeFor version) (versionPlace (sizeFor version) i).2
        (versionPlace (sizeFor version) i).1 = false := by decide

/-- No word of level M reads the same both ways. -/
theorem formatWords_no_palindrome : ∀ mask < 8, ∃ i < 15,
    (formatWords.getD mask 0).testBit (14 - i) ≠ (formatWords.getD mask 0).testBit i := by decide

theorem candidate_not_conforms {base : Matrix} (hsize : 17 ≤ base.size) (version : Nat) {mask : Nat} (hmask : mask < 8)
    (codewords : List UInt8) : ¬ Conforms ⟨base.size, (candidate base version mask).modules, version, mask⟩ codewords := by
  intro h
  obtain ⟨i, hi, hne⟩ := formatWords_no_palindrome mask hmask
  have hread := dark_formatPlace (m := applyMask base version mask) hsize hmask hi
  exact hne (hread.symm.trans (h.format i hi))

/-- **No symbol conforms**, whatever the text is. -/
theorem encode_not_conforms {text : JsString} {version : Nat} {spec : Version} (h : accepts text = some (version, spec)) :
    ∃ symbol, encode text = some symbol ∧ ¬ Conforms symbol (buildCodewords text version spec) := by
  obtain ⟨mask, hmask, hencode⟩ := encode_spec h
  have hsize := size_baseMatrix text version spec
  refine ⟨_, hencode, ?_⟩
  rw [← hsize]
  exact candidate_not_conforms (by rw [hsize, sizeFor]; omega) version hmask _

theorem encode_not_conforms_a : ∃ symbol, encode (js "a") = some symbol ∧
    ¬ Conforms symbol (buildCodewords (js "a") 1 ⟨26, 10, 1, 16, 0, 0⟩) := encode_not_conforms (by decide)

/-- The first copy of a symbol is not where a reader looks for it. -/
theorem conforms_fails : ¬ ∀ text version spec, accepts text = some (version, spec) →
    ∃ symbol, encode text = some symbol ∧ Conforms symbol (buildCodewords text version spec) := by
  intro h
  obtain ⟨symbol, hsymbol, hconforms⟩ := h (js "a") 1 ⟨26, 10, 1, 16, 0, 0⟩ (by decide)
  obtain ⟨mask, hmask, hencode⟩ := encode_spec (show accepts (js "a") = some (1, ⟨26, 10, 1, 16, 0, 0⟩) by decide)
  rw [hencode] at hsymbol
  cases hsymbol
  have hsize := size_baseMatrix (js "a") 1 ⟨26, 10, 1, 16, 0, 0⟩
  rw [← hsize] at hconforms
  exact candidate_not_conforms (by rw [hsize]; decide) 1 hmask _ hconforms

end Qr
end MaterialOpenWebui
