import MaterialOpenWebui.Lib.BitString
import MaterialOpenWebui.Qr.Placement

/-!
# `Qr.RoundTrip` — what the decoder reads of a QR code

Everything that the encoder does to the bytes of a text is undone: the path visits each module once, so the bits come back in
their order; the format word says which mask was chosen, whatever the penalties were; and the bytes are dealt out to the blocks
in the order in which they were taken from them.
-/

namespace MaterialOpenWebui
namespace Qr
open Js BitString

/-! ## The path -/

theorem mem_rightsFrom {fuel right x : Nat} (h : x ∈ rightsFrom fuel right) : 1 ≤ x ∧ x ≤ right := by
  induction fuel generalizing right with
  | zero => exact absurd h List.not_mem_nil
  | succ fuel ih =>
    rw [rightsFrom] at h
    split at h
    · exact absurd h List.not_mem_nil
    · rename_i hright
      rcases List.mem_cons.mp h with rfl | h
      · split <;> omega
      · have hx := ih h
        split at hx <;> omega

/-- Two columns each. -/
theorem pairwise_rightsFrom (fuel right : Nat) : (rightsFrom fuel right).Pairwise fun a b => b + 2 ≤ a := by
  induction fuel generalizing right with
  | zero => exact List.Pairwise.nil
  | succ fuel ih =>
    rw [rightsFrom]
    split
    · exact List.Pairwise.nil
    · refine List.Pairwise.cons (fun b hb => ?_) (ih _)
      have hmem := mem_rightsFrom hb
      omega

theorem mem_columnsFrom {size : Nat} {upward : Bool} {cols : List Nat} {p : Nat × Nat}
    (h : p ∈ columnsFrom size upward cols) :
    p.1 < size ∧ ∃ right ∈ cols, p.2 = right ∨ p.2 = right - 1 := by
  induction cols generalizing upward with
  | nil => exact absurd h List.not_mem_nil
  | cons right cols ih =>
    rw [columnsFrom] at h
    rcases List.mem_append.mp h with h | h
    · obtain ⟨step, hstep, h⟩ := List.mem_flatMap.mp h
      have hlt := List.mem_range.mp hstep
      have hrow : (if upward = true then size - 1 - step else step) < size := by split <;> omega
      rcases List.mem_pair.mp h with rfl | rfl
      · exact ⟨hrow, right, List.mem_cons_self, .inl rfl⟩
      · exact ⟨hrow, right, List.mem_cons_self, .inr rfl⟩
    · obtain ⟨hrow, right', hmem, hcol⟩ := ih h
      exact ⟨hrow, right', List.mem_cons_of_mem _ hmem, hcol⟩

theorem nodup_columnsFrom {size : Nat} {cols : List Nat} (upward : Bool) (hpos : ∀ right ∈ cols, 1 ≤ right)
    (hcols : cols.Pairwise fun a b => b + 2 ≤ a) : (columnsFrom size upward cols).Nodup := by
  induction cols generalizing upward with
  | nil => exact List.nodup_nil
  | cons right cols ih =>
    rw [List.pairwise_cons] at hcols
    have hright := hpos right List.mem_cons_self
    rw [columnsFrom]
    refine List.nodup_append.mpr ⟨?_, ih _ (fun r hr => hpos r (List.mem_cons_of_mem _ hr)) hcols.2, ?_⟩
    · -- a row for every step, and in it two columns
      refine List.nodup_flatMap.mpr ⟨fun step _ => ?_, ?_⟩
      · refine List.nodup_cons.mpr ⟨fun hmem => ?_, List.nodup_singleton _⟩
        have hcol := congrArg Prod.snd (List.mem_singleton.mp hmem)
        have hcol : right = right - 1 := hcol
        omega
      · refine (List.pairwise_lt_range (n := size)).imp_of_mem fun {a b} ha hb hlt => ?_
        have ha := List.mem_range.mp ha
        have hb := List.mem_range.mp hb
        intro p hp hp'
        have hrow : p.1 = if upward = true then size - 1 - a else a := by
          rcases List.mem_pair.mp hp with rfl | rfl <;> rfl
        have hrow' : p.1 = if upward = true then size - 1 - b else b := by
          rcases List.mem_pair.mp hp' with rfl | rfl <;> rfl
        rw [hrow] at hrow'
        split at hrow' <;> omega
    · -- later columns lie to the left
      intro p hp q hq heq
      obtain ⟨step, -, hp⟩ := List.mem_flatMap.mp hp
      obtain ⟨-, right', hmem, hcol⟩ := mem_columnsFrom hq
      have hle := hcols.1 right' hmem
      have hpcol : p.2 = right ∨ p.2 = right - 1 := by
        rcases List.mem_pair.mp hp with rfl | rfl
        · exact .inl rfl
        · exact .inr rfl
      rw [heq] at hpcol
      omega

/-- **Each module once.** -/
theorem nodup_zigzag (size : Nat) : (zigzag size).Nodup :=
  nodup_columnsFrom true (fun _ h => (mem_rightsFrom h).1) (pairwise_rightsFrom _ _)

theorem mem_zigzag {size : Nat} {p : Nat × Nat} (h : p ∈ zigzag size) : p.1 < size ∧ p.2 < size := by
  obtain ⟨hrow, right, hmem, hcol⟩ := mem_columnsFrom h
  have hright := mem_rightsFrom hmem
  exact ⟨hrow, by omega⟩

theorem exists_right {fuel right col : Nat} (hfuel : right ≤ fuel)
    (hright : right % 2 = 0 ∧ 6 ≤ right ∨ right = 3 ∨ right = 1) (hcol : col ≤ right) (hne : col ≠ 6) :
    ∃ r ∈ rightsFrom fuel right, col = r ∨ col = r - 1 := by
  induction fuel generalizing right with
  | zero => omega
  | succ fuel ih =>
    obtain ⟨head, hhead, hcases⟩ : ∃ head, (if right = 6 then 5 else right) = head ∧
        (right = 6 ∧ head = 5 ∨ right ≠ 6 ∧ head = right) := by
      refine ⟨_, rfl, ?_⟩
      split
      · exact .inl ⟨‹_›, rfl⟩
      · exact .inr ⟨‹_›, rfl⟩
    rw [rightsFrom, if_neg (by omega), hhead]
    by_cases hle : col + 2 ≤ head
    · obtain ⟨r, hr, h⟩ := ih (show head - 2 ≤ fuel by omega) (by omega) (by omega)
      exact ⟨r, List.mem_cons_of_mem _ hr, h⟩
    · exact ⟨head, List.mem_cons_self, by omega⟩

theorem mem_columnsFrom_of {size : Nat} {upward : Bool} {cols : List Nat} {row col right : Nat} (hrow : row < size)
    (hright : right ∈ cols) (hcol : col = right ∨ col = right - 1) : (row, col) ∈ columnsFrom size upward cols := by
  induction cols generalizing upward with
  | nil => exact absurd hright List.not_mem_nil
  | cons r cols ih =>
    rw [columnsFrom]
    rcases List.mem_cons.mp hright with rfl | hright
    · refine List.mem_append_left _ (List.mem_flatMap.mpr ⟨if upward = true then size - 1 - row else row, ?_, ?_⟩)
      · exact List.mem_range.mpr (by split <;> omega)
      · have hback : (if upward = true then size - 1 - (if upward = true then size - 1 - row else row)
            else if upward = true then size - 1 - row else row) = row := by
          cases upward with
          | true =>
            show size - 1 - (size - 1 - row) = row
            omega
          | false => rfl
        rw [hback]
        exact List.mem_pair.mpr (hcol.imp (fun h => by rw [h]) fun h => by rw [h])
    · exact List.mem_append_right _ (ih hright)

/-- **Every module** but those of the timing column. -/
theorem mem_zigzag_iff {size : Nat} (hodd : size % 2 = 1) (hsize : 7 ≤ size) {row col : Nat} (hcol : col ≠ 6) :
    (row, col) ∈ zigzag size ↔ row < size ∧ col < size := by
  refine ⟨mem_zigzag, fun ⟨hr, hc⟩ => ?_⟩
  obtain ⟨right, hright, h⟩ :=
    exists_right (show size - 1 ≤ size by omega) (.inl (by omega)) (show col ≤ size - 1 by omega) hcol
  exact mem_columnsFrom_of hr hright h

section
variable (version : Nat) (codewords : List UInt8)

theorem size_placeBits (path : List (Nat × Nat)) (s : Matrix × Nat) :
    (path.foldl (placeBit version codewords) s).1.size = s.1.size := by
  induction path generalizing s with
  | nil => rfl
  | cons p path ih =>
    rw [List.foldl_cons, ih, placeBit]
    split <;> rfl

theorem set_of_ne {m : Matrix} {row col r c : Nat} (v : Bool) (h : (r, c) ≠ (row, col)) :
    (m.set row col v).modules r c = m.modules r c :=
  if_neg fun heq => h (by rw [heq.1, heq.2])

theorem set_self (m : Matrix) (row col : Nat) (v : Bool) : (m.set row col v).modules row col = some v := if_pos ⟨rfl, rfl⟩

/-- A module that is not on the path stays. -/
theorem placeBits_frame {path : List (Nat × Nat)} {p : Nat × Nat} (h : p ∉ path) (s : Matrix × Nat) :
    (path.foldl (placeBit version codewords) s).1.modules p.1 p.2 = s.1.modules p.1 p.2 := by
  induction path generalizing s with
  | nil => rfl
  | cons q path ih =>
    rw [List.mem_cons, not_or] at h
    rw [List.foldl_cons, ih h.2, placeBit]
    split
    · rfl
    · exact set_of_ne _ h.1

/-- **What is placed along a path is read along it.** -/
theorem placeBits_read {path : List (Nat × Nat)} (h : path.Nodup) (s : Matrix × Nat) :
    ((path.filter fun p => !isFunction version s.1.size p.1 p.2).map fun p =>
        (path.foldl (placeBit version codewords) s).1.modules p.1 p.2) =
      (List.range' s.2 (path.filter fun p => !isFunction version s.1.size p.1 p.2).length).map fun k => some
        (dataBit codewords k) := by
  induction path generalizing s with
  | nil => rfl
  | cons p path ih =>
    rw [List.nodup_cons] at h
    rw [List.foldl_cons]
    by_cases hfunction : isFunction version s.1.size p.1 p.2 = true
    · have hstep : placeBit version codewords s p = s := if_pos hfunction
      have hfilter : (p :: path).filter (fun p => !isFunction version s.1.size p.1 p.2) =
          path.filter fun p => !isFunction version s.1.size p.1 p.2 :=
        List.filter_cons_of_neg (by rw [hfunction]; exact Bool.false_ne_true)
      rw [hstep, hfilter]
      exact ih h.2 s
    · have hstep : placeBit version codewords s p = (s.1.set p.1 p.2 (dataBit codewords s.2), s.2 + 1) := if_neg hfunction
      have hfilter : (p :: path).filter (fun p => !isFunction version s.1.size p.1 p.2) =
          p :: path.filter fun p => !isFunction version s.1.size p.1 p.2 :=
        List.filter_cons_of_pos (by rw [Bool.not_eq_true] at hfunction; rw [hfunction]; rfl)
      rw [hstep, hfilter, List.map_cons, List.length_cons, List.range'_succ, List.map_cons,
        placeBits_frame version codewords h.1, set_self]
      exact congrArg _ (ih h.2 (s.1.set p.1 p.2 (dataBit codewords s.2), s.2 + 1))

end

/-! ## Room for the codewords -/

theorem mem_loops {rows cols : List Nat} {p : Nat × Nat} : p ∈ loops rows cols ↔ p.1 ∈ rows ∧ p.2 ∈ cols := by
  constructor
  · intro h
    obtain ⟨r, hr, h⟩ := List.mem_flatMap.mp h
    obtain ⟨c, hc, rfl⟩ := List.mem_map.mp h
    exact ⟨hr, hc⟩
  · exact fun h => List.mem_flatMap.mpr ⟨p.1, h.1, List.mem_map.mpr ⟨p.2, h.2, rfl⟩⟩

theorem length_loops (rows cols : List Nat) : (loops rows cols).length = rows.length * cols.length := by
  rw [loops, List.length_flatMap]
  simp

theorem nodup_loops {rows cols : List Nat} (hrows : rows.Nodup) (hcols : cols.Nodup) : (loops rows cols).Nodup := by
  refine List.nodup_flatMap.mpr ⟨fun r _ => hcols.map fun a b h => congrArg Prod.snd h, hrows.imp fun {a b} hne => ?_⟩
  intro p hp hp'
  obtain ⟨c, -, rfl⟩ := List.mem_map.mp hp
  obtain ⟨c', -, h⟩ := List.mem_map.mp hp'
  exact hne (congrArg Prod.fst h).symm

/-- The corners, the timing patterns between them, and the alignment patterns. -/
def functionCells (version size : Nat) : List (Nat × Nat) :=
  loops (List.range 9) (List.range 9) ++ loops (List.range 9) (List.range' (size - 8) 8) ++
    loops (List.range' (size - 8) 8) (List.range 9) ++ loops [6] (List.range' 9 (size - 17)) ++
    loops (List.range' 9 (size - 17)) [6] ++
    (alignmentCentres version size).flatMap fun p => loops (List.range' (p.1 - 2) 5) (List.range' (p.2 - 2) 5)

theorem length_functionCells (version size : Nat) :
    (functionCells version size).length = 225 + 2 * (size - 17) + 25 * (alignmentCentres version size).length := by
  have hcentres : ∀ centres : List (Nat × Nat), (centres.flatMap fun p =>
      loops (List.range' (p.1 - 2) 5) (List.range' (p.2 - 2) 5)).length = 25 * centres.length := by
    intro centres
    induction centres with
    | nil => rfl
    | cons p centres ih =>
      rw [List.flatMap_cons, List.length_append, ih, length_loops, List.length_range', List.length_range', List.length_cons]
      omega
  rw [functionCells]
  simp only [List.length_append, hcentres, length_loops, List.length_range, List.length_range', List.length_singleton]
  omega

theorem mem_functionCells {version size row col : Nat} (hr : row < size) (hc : col < size)
    (h : isFunction version size row col = true) : (row, col) ∈ functionCells version size := by
  simp only [isFunction, Bool.or_eq_true, decide_eq_true_eq, List.any_eq_true] at h
  simp only [functionCells, List.mem_append, mem_loops, List.mem_range, List.mem_range'_1, List.mem_singleton]
  rcases h with (((h | h) | h) | h) | ⟨p, hp, hrow, hcol⟩
  · omega
  · omega
  · omega
  · omega
  · rw [distance] at hrow hcol
    refine .inr (List.mem_flatMap.mpr ⟨p, hp, mem_loops.mpr ?_⟩)
    simp only [List.mem_range'_1]
    omega

/-- The modules for data are as many as are left. -/
theorem length_dataCells (version : Nat) {size : Nat} (hodd : size % 2 = 1) (hsize : 7 ≤ size) :
    size * size ≤ ((zigzag size).filter fun p => !isFunction version size p.1 p.2).length +
      (225 + 2 * (size - 17) + 25 * (alignmentCentres version size).length) := by
  have hsub : loops (List.range size) (List.range size) ⊆
      ((zigzag size).filter fun p => !isFunction version size p.1 p.2) ++ functionCells version size := by
    intro p hp
    rw [mem_loops, List.mem_range, List.mem_range] at hp
    rw [List.mem_append, List.mem_filter]
    by_cases h : isFunction version size p.1 p.2 = true
    · exact .inr (mem_functionCells hp.1 hp.2 h)
    · rw [Bool.not_eq_true] at h
      have hcol : p.2 ≠ 6 := by
        intro hcol
        simp [isFunction, hcol] at h
      exact .inl ⟨(mem_zigzag_iff hodd hsize hcol).mpr hp, by rw [h]; rfl⟩
  have hle := (List.subperm_of_subset (nodup_loops List.nodup_range List.nodup_range) hsub).length_le
  rw [length_loops, List.length_range, List.length_append, length_functionCells] at hle
  exact hle

/-! ## The format -/

theorem formatCell_lt {i : Nat} (h : i < 15) : (formatCell i).1 < 9 ∧ (formatCell i).2 < 9 := by
  rw [formatCell]
  split
  · exact ⟨by omega, by omega⟩
  split
  · exact ⟨by omega, by omega⟩
  split
  · exact ⟨by omega, by omega⟩
  split
  · exact ⟨by omega, by omega⟩
  · exact ⟨by omega, by omega⟩

theorem formatCell_injective : ∀ i < 15, ∀ j < 15, formatCell i = formatCell j → i = j := by decide

theorem duplicateCell_spec {size i : Nat} (hsize : 17 ≤ size) (h : i < 15) :
    (duplicateCell size i).1 = 8 ∧ size - 8 ≤ (duplicateCell size i).2 ∨
      size - 8 < (duplicateCell size i).1 ∧ (duplicateCell size i).2 = 8 := by
  rw [duplicateCell]
  split
  · exact .inl ⟨rfl, by omega⟩
  · exact .inr ⟨by omega, rfl⟩

section
variable (bits : Nat)

theorem size_placeFormatBits (m : Matrix) (n : Nat) : ((List.range n).foldl (placeFormatBit bits) m).size = m.size := by
  induction n with
  | zero => rfl
  | succ n ih =>
    rw [List.range_succ, List.foldl_append]
    exact ih

/-- A module that is in neither copy stays. -/
theorem placeFormatBits_frame {m : Matrix} {n r c : Nat}
    (h : ∀ i < n, (r, c) ≠ formatCell i ∧ (r, c) ≠ duplicateCell m.size i) :
    ((List.range n).foldl (placeFormatBit bits) m).modules r c = m.modules r c := by
  induction n with
  | zero => rfl
  | succ n ih =>
    obtain ⟨hfirst, hduplicate⟩ := h n (Nat.lt_succ_self n)
    rw [List.range_succ, List.foldl_append, List.foldl_cons, List.foldl_nil, placeFormatBit]
    refine (set_of_ne _ ?_).trans ((set_of_ne _ hfirst).trans (ih fun i hi => h i (Nat.lt_succ_of_lt hi)))
    rw [← size_placeFormatBits bits m n] at hduplicate
    exact hduplicate

/-- **The first copy** holds the word. -/
theorem placeFormatBits_read {m : Matrix} (hsize : 17 ≤ m.size) {n : Nat} (hn : n ≤ 15) {i : Nat} (hi : i < n) :
    ((List.range n).foldl (placeFormatBit bits) m).modules (formatCell i).1 (formatCell i).2 =
      some (decide ((bits >>> i) &&& 1 = 1)) := by
  induction n with
  | zero => exact absurd hi (Nat.not_lt_zero i)
  | succ n ih =>
    have hcell := formatCell_lt (show i < 15 by omega)
    have hduplicate : (formatCell i) ≠ duplicateCell m.size n := by
      intro heq
      have hspec := duplicateCell_spec hsize (show n < 15 by omega)
      rw [← heq] at hspec
      omega
    rw [List.range_succ, List.foldl_append, List.foldl_cons, List.foldl_nil, placeFormatBit]
    rw [← size_placeFormatBits bits m n] at hduplicate
    refine (set_of_ne _ hduplicate).trans ?_
    by_cases heq : i = n
    · subst heq
      exact set_self _ _ _ _
    · refine (set_of_ne _ fun hcells => heq ?_).trans (ih (by omega) (by omega))
      exact formatCell_injective i (by omega) n (by omega) hcells

end

/-- The modules that are not of the function patterns stay. -/
theorem placeFormat_frame {m : Matrix} {version r c : Nat} (hsize : 17 ≤ m.size) (mask : Nat)
    (h : isFunction version m.size r c = false) : (placeFormat m mask).modules r c = m.modules r c := by
  simp only [isFunction, Bool.or_eq_false_iff, decide_eq_false_iff_not] at h
  obtain ⟨⟨⟨⟨htiming, hcorner⟩, hright⟩, hleft⟩, -⟩ := h
  rw [placeFormat]
  refine (set_of_ne _ fun heq => ?_).trans (placeFormatBits_frame _ fun i hi => ⟨fun heq => ?_, fun heq => ?_⟩)
  · rw [size_placeFormatBits, Prod.mk.injEq] at heq
    omega
  · have hcell := formatCell_lt hi
    rw [← heq] at hcell
    exact hcorner hcell
  · have hcell := duplicateCell_spec hsize hi
    rw [← heq] at hcell
    omega

theorem placeFormat_read {m : Matrix} (hsize : 17 ≤ m.size) (mask : Nat) {i : Nat} (hi : i < 15) :
    (placeFormat m mask).modules (formatCell i).1 (formatCell i).2 = some (decide ((formatBits mask >>> i) &&& 1 = 1)) := by
  rw [placeFormat]
  refine (set_of_ne _ fun heq => ?_).trans (placeFormatBits_read _ hsize (Nat.le_refl 15) hi)
  rw [size_placeFormatBits, Prod.mk.injEq] at heq
  have hcell := formatCell_lt hi
  omega

/-- **The mask is found** in the format. -/
theorem readFormat_placeFormat {m : Matrix} (hsize : 17 ≤ m.size) {mask : Nat} (hmask : mask < 8) :
    readFormat (placeFormat m mask).modules = (FORMAT_EC, mask) := by
  have hword : formatWord (placeFormat m mask).modules =
      (List.range 15).foldl
        (fun bits i => if decide ((formatBits mask >>> i) &&& 1 = 1) then bits ||| (1 <<< i) else bits) 0 := by
    refine List.foldl_ext _ _ _ fun bits i hi => ?_
    rw [placeFormat_read hsize mask (List.mem_range.mp hi), truthy]
    cases decide ((formatBits mask >>> i) &&& 1 = 1) <;> rfl
  have hread : ∀ mask < 8,
      let word := (List.range 15).foldl
        (fun bits i => if decide ((formatBits mask >>> i) &&& 1 = 1) then bits ||| (1 <<< i) else bits) 0
      let data := (word ^^^ 0x5412) >>> 10
      ((data >>> 3) &&& 0b11, data &&& 0b111) = (FORMAT_EC, mask) := by decide
  rw [readFormat, hword]
  exact hread mask hmask

/-! ## The codewords -/

theorem applyMask_read {m : Matrix} {version mask r c : Nat} (hr : r < m.size) (hc : c < m.size)
    (h : isFunction version m.size r c = false) :
    (applyMask m version mask).modules r c = if MASKS mask r c then some (!truthy (m.modules r c)) else m.modules r c := by
  show (if r < m.size ∧ c < m.size ∧ isFunction version m.size r c = false ∧ MASKS mask r c = true then _ else _) = _
  by_cases hmask : MASKS mask r c = true
  · rw [if_pos hmask, if_pos ⟨hr, hc, h, hmask⟩]
  · rw [if_neg hmask, if_neg fun hcond => hmask hcond.2.2.2]

/-- **A mask** is lifted by itself. -/
theorem unmask_candidate {base : Matrix} (hsize : 17 ≤ base.size) {version : Nat} (mask : Nat) {r c : Nat}
    (hr : r < base.size) (hc : c < base.size)
    (h : isFunction version base.size r c = false) :
    truthy (if MASKS mask r c then some (!truthy ((candidate base version mask).modules r c))
      else (candidate base version mask).modules r c) = truthy (base.modules r c) := by
  have hframe : (candidate base version mask).modules r c = (applyMask base version mask).modules r c :=
    placeFormat_frame (m := applyMask base version mask) hsize mask h
  rw [hframe, applyMask_read hr hc h]
  by_cases hmask : MASKS mask r c = true
  · rw [if_pos hmask, if_pos hmask]
    cases truthy (base.modules r c) <;> rfl
  · rw [if_neg hmask, if_neg hmask]

/-- The bits that were placed. -/
theorem pathBits_placeData (m : Matrix) (version : Nat) (codewords : List UInt8) :
    pathBits version m.size (placeData m version codewords).modules =
      (List.range ((zigzag m.size).filter fun p => !isFunction version m.size p.1 p.2).length).map (dataBit codewords) := by
  have hbit : (truthy ∘ fun k => some (dataBit codewords k)) = dataBit codewords := by
    funext k
    show truthy (some (dataBit codewords k)) = dataBit codewords k
    cases dataBit codewords k <;> rfl
  have htruthy := congrArg (List.map truthy) (placeBits_read version codewords (nodup_zigzag m.size) (m, 0))
  rw [List.map_map, List.map_map, ← List.range_eq_range', hbit] at htruthy
  exact htruthy

/-- What is read without the mask. -/
theorem pathBits_candidate (base : Matrix) (hsize : 17 ≤ base.size) (version mask : Nat) :
    pathBits version base.size (unmask version base.size mask (candidate base version mask).modules) =
      pathBits version base.size base.modules := by
  refine List.map_congr_left fun p hp => ?_
  obtain ⟨hmem, hplain⟩ := List.mem_filter.mp hp
  rw [Bool.not_eq_true'] at hplain
  obtain ⟨hr, hc⟩ := mem_zigzag hmem
  rw [unmask, if_neg (by rw [hplain]; exact Bool.false_ne_true)]
  exact unmask_candidate hsize mask hr hc hplain

theorem interleavedBytes_eq (bits : List Bool) : interleavedBytes bits = bytesOf bits := by
  have hfold : ∀ bits : List Bool, bits.foldl (fun byte bit => (byte <<< 1) ||| bit.toNat) 0 = ofBits bits := by
    intro bits
    refine List.foldl_ext _ _ _ fun byte bit _ => ?_
    rw [← Nat.shiftLeft_add_eq_or_of_lt (by cases bit <;> decide), Nat.shiftLeft_eq]
    omega
  fun_induction interleavedBytes bits with
  | case1 b7 b6 b5 b4 b3 b2 b1 b0 bits ih => rw [bytesOf, hfold, ih]
  | case2 bits h => exact (bytesOf.eq_2 bits h).symm

theorem testBit_eq (n i : Nat) : decide ((n >>> i) &&& 1 = 1) = n.testBit i := by
  rw [Nat.testBit_eq_decide_div_mod_eq, Nat.and_one_is_mod, Nat.shiftRight_eq_div_pow]

/-- The bits of the codewords, and zeros. -/
theorem dataBits_eq (codewords : List UInt8) {n : Nat} (h : 8 * codewords.length ≤ n) :
    (List.range n).map (dataBit codewords) = codewords.flatMap byteBits ++
      List.replicate (n - 8 * codewords.length) false := by
  have hindex : ∀ k, k >>> 3 = k / 8 := fun k => Nat.shiftRight_eq_div_pow k 3
  apply List.ext_getElem?
  intro k
  by_cases hk : k < n
  · rw [List.getElem?_map, List.getElem?_range hk, Option.map_some, dataBit, hindex]
    by_cases hcode : k < 8 * codewords.length
    · have hmask : k &&& 7 = k % 8 := Nat.and_two_pow_sub_one_eq_mod k 3
      rw [List.getElem?_append_left (by rw [length_flatMap_byteBits]; exact hcode), getElem?_byteBits _ hcode, hmask,
        List.getD_eq_getElem?_getD, List.getElem?_eq_getElem (by omega)]
      exact congrArg some (testBit_eq _ _)
    · rw [List.getElem?_append_right (by rw [length_flatMap_byteBits]; omega),
        List.getElem?_replicate, length_flatMap_byteBits,
        if_pos (by omega), List.getElem?_eq_none (by omega)]
  · rw [List.getElem?_eq_none (by simpa using hk), List.getElem?_eq_none]
    rw [List.length_append, length_flatMap_byteBits, List.length_replicate]
    omega

/-- The codewords come first. -/
theorem interleavedBytes_dataBits (codewords : List UInt8) {n : Nat} (h : 8 * codewords.length ≤ n) :
    ∃ rest, interleavedBytes ((List.range n).map (dataBit codewords)) = codewords ++ rest := by
  rw [dataBits_eq codewords h, interleavedBytes_eq, bytesOf_flatMap]
  exact ⟨_, rfl⟩

/-! ## The blocks -/

/-- One byte for each block. -/
theorem dealRow_spec (interleaved : List UInt8) (i : Nat) {blocks : List (List UInt8)} {index : Nat} {rest : List UInt8}
    (h : interleaved.drop index = (blocks.filterMap fun b => b[i]?) ++ rest) :
    dealRow interleaved i (blocks.map fun b => (b.length, b.take i)) index =
      (blocks.map fun b => (b.length, b.take (i + 1)), index + (blocks.filterMap fun b => b[i]?).length) := by
  induction blocks generalizing index with
  | nil => rfl
  | cons b blocks ih =>
    rw [List.map_cons, dealRow]
    by_cases hi : i < b.length
    · have hget : b[i]? = some b[i] := List.getElem?_eq_getElem hi
      rw [List.filterMap_cons_some (f := fun b => b[i]?) hget] at h ⊢
      have hbyte : interleaved.getD index 0 = b[i] := by
        have hhead := congrArg List.head? h
        rw [List.head?_drop] at hhead
        rw [List.getD_eq_getElem?_getD, hhead]
        rfl
      have hrest : interleaved.drop (index + 1) = (blocks.filterMap fun b => b[i]?) ++ rest := by
        rw [← List.drop_drop, h]
        rfl
      rw [if_pos hi, ih hrest, hbyte, List.take_append_getElem hi, List.length_cons]
      refine Prod.ext rfl ?_
      show index + 1 + _ = index + (_ + 1)
      omega
    · have hget : b[i]? = none := List.getElem?_eq_none (by omega)
      rw [List.filterMap_cons_none (f := fun b => b[i]?) hget] at h ⊢
      rw [if_neg hi, ih h, List.take_of_length_le (by omega), List.map_cons, List.take_of_length_le (by omega)]

theorem interleave_succ (blocks : List (List UInt8)) (n : Nat) :
    interleave blocks (n + 1) = interleave blocks n ++ blocks.filterMap fun b => b[n]? := by
  rw [interleave, List.range_succ, List.flatMap_append]
  exact congrArg _ (List.append_nil _)

theorem interleave_prefix (blocks : List (List UInt8)) {n m : Nat} (h : n ≤ m) :
    interleave blocks n <+: interleave blocks m := by
  induction h with
  | refl => exact List.prefix_refl _
  | step _ ih =>
    rw [interleave_succ]
    exact ih.trans (List.prefix_append _ _)

/-- **The blocks** are got back from their interleaved bytes. -/
theorem deinterleave_interleave (blocks : List (List UInt8)) (rest : List UInt8) :
    deinterleave (interleave blocks ((blocks.map List.length).foldl max 0) ++ rest) (blocks.map List.length) = blocks := by
  generalize hm : (blocks.map List.length).foldl max 0 = m
  have hrounds : ∀ n ≤ m, (List.range n).foldl (fun s i => dealRow (interleave blocks m ++ rest) i s.1 s.2)
      (blocks.map fun b => (b.length, b.take 0), 0) =
        (blocks.map fun b => (b.length, b.take n), (interleave blocks n).length) := by
    intro n
    induction n with
    | zero => exact fun _ => rfl
    | succ n ih =>
      intro hn
      obtain ⟨back, hback⟩ := interleave_prefix blocks hn
      have hdrop : (interleave blocks m ++ rest).drop (interleave blocks n).length =
          (blocks.filterMap fun b => b[n]?) ++ (back ++ rest) := by
        rw [← hback, interleave_succ, List.append_assoc, List.append_assoc, List.drop_left]
      rw [List.range_succ, List.foldl_append, ih (Nat.le_of_succ_le hn), List.foldl_cons, List.foldl_nil,
        dealRow_spec _ n hdrop, interleave_succ, List.length_append]
  rw [deinterleave, hm, List.map_map]
  have hstart : blocks.map ((fun length => (length, ([] : List UInt8))) ∘ List.length) =
    blocks.map fun b => (b.length, b.take 0) := rfl
  rw [hstart, hrounds m (Nat.le_refl m), List.map_map]
  refine (List.map_congr_left fun b hb => ?_).trans (List.map_id _)
  have hle : b.length ≤ m := hm ▸ le_foldl_max 0 (.inl (List.mem_map_of_mem hb))
  exact List.take_of_length_le hle

theorem flatten_slices (data : List UInt8) (cw count offset : Nat) :
    (slices data cw count offset).flatten = (data.drop offset).take (count * cw) := by
  induction count generalizing offset with
  | zero => rw [Nat.zero_mul]; rfl
  | succ count ih =>
    rw [slices, List.flatten_cons, ih, Nat.succ_mul, Nat.add_comm (count * cw), List.take_add, List.drop_drop]

theorem map_length_slices {data : List UInt8} {cw count offset : Nat} (h : offset + count * cw ≤ data.length) :
    (slices data cw count offset).map List.length = List.replicate count cw := by
  induction count generalizing offset with
  | zero => rfl
  | succ count ih =>
    rw [Nat.succ_mul] at h
    rw [slices, List.map_cons, ih (by omega), List.length_take, List.length_drop, List.replicate_succ]
    congr 1
    omega

/-! ## The text -/

theorem push_eq (bits : List Bool) (value length : Nat) : push bits value length = bits ++ bitsOf length value := by
  rw [push, bitsOf]
  exact congrArg _ (List.map_congr_left fun i _ => testBit_eq value i)

theorem foldl_push (bytes : List UInt8) (bits : List Bool) :
    bytes.foldl (fun bits b => push bits b.toNat 8) bits = bits ++ bytes.flatMap byteBits := by
  induction bytes generalizing bits with
  | nil => exact (List.append_nil bits).symm
  | cons b bytes ih => rw [List.foldl_cons, ih, push_eq, List.append_assoc, List.flatMap_cons, byteBits]

/-- One turn of `toBytes`. -/
def setBit (out : List UInt8) (p : Bool × Nat) : List UInt8 :=
  if p.1 then out.set (p.2 >>> 3) (out.getD (p.2 >>> 3) 0 ||| UInt8.ofNat (0x80 >>> (p.2 &&& 7))) else out

def hasBit (out : List UInt8) (p : Nat) : Bool := (out.getD (p / 8) 0).toNat.testBit (7 - p % 8)

theorem length_setBit (out : List UInt8) (p : Bool × Nat) : (setBit out p).length = out.length := by
  rw [setBit]
  split
  · exact List.length_set
  · rfl

theorem hasBit_setBit {out : List UInt8} {k : Nat} (hk : k < 8 * out.length) (b : Bool) (p : Nat) :
    hasBit (setBit out (b, k)) p = (hasBit out p || b && decide (p = k)) := by
  cases b with
  | false => exact (Bool.or_false _).symm
  | true =>
    have hpower : ∀ j < 8, ∀ i < 8, (UInt8.ofNat (0x80 >>> j)).toNat.testBit (7 - i) = decide (i = j) := by decide
    have hindex : k >>> 3 = k / 8 := Nat.shiftRight_eq_div_pow k 3
    have hmask : k &&& 7 = k % 8 := Nat.and_two_pow_sub_one_eq_mod k 3
    have hset : setBit out (true, k) = out.set (k / 8) (out.getD (k / 8) 0 ||| UInt8.ofNat (0x80 >>> (k % 8))) := by
      show out.set (k >>> 3) (out.getD (k >>> 3) 0 ||| UInt8.ofNat (0x80 >>> (k &&& 7))) = _
      rw [hindex, hmask]
    rw [hset, hasBit, hasBit, Bool.true_and, List.getD_eq_getElem?_getD]
    by_cases hp : p / 8 = k / 8
    · have hsame : decide (p % 8 = k % 8) = decide (p = k) := decide_eq_decide.mpr (by omega)
      rw [hp, List.getElem?_set_self (by omega), Option.getD_some, UInt8.toNat_or, Nat.testBit_or,
        hpower _ (Nat.mod_lt _ (by decide)) _ (Nat.mod_lt _ (by decide)), hsame]
    · rw [List.getElem?_set_ne (Ne.symm hp), ← List.getD_eq_getElem?_getD,
        decide_eq_false (fun heq => hp (congrArg (· / 8) heq)),
        Bool.or_false]

/-- The bits one after the other. -/
theorem foldl_setBit {N : Nat} {l : List Bool} (h : l.length ≤ 8 * N) :
    (l.zipIdx.foldl setBit (List.replicate N 0)).length = N ∧
      ∀ p, hasBit (l.zipIdx.foldl setBit (List.replicate N 0)) p = (l[p]?).getD false := by
  induction l using List.reverseRecOn with
  | nil =>
    refine ⟨List.length_replicate, fun p => ?_⟩
    have hzero : (List.replicate N (0 : UInt8)).getD (p / 8) 0 = 0 := by
      rw [List.getD_eq_getElem?_getD, List.getElem?_replicate]
      split <;> rfl
    show ((List.replicate N (0 : UInt8)).getD (p / 8) 0).toNat.testBit _ = false
    rw [hzero]
    exact Nat.zero_testBit _
  | append_singleton l b ih =>
    rw [List.length_append, List.length_singleton] at h
    obtain ⟨hlength, hbit⟩ := ih (by omega)
    rw [List.zipIdx_append, List.foldl_append, Nat.zero_add]
    show (setBit _ (b, l.length)).length = N ∧ ∀ p, hasBit (setBit _ (b, l.length)) p = _
    refine ⟨(length_setBit _ _).trans hlength, fun p => ?_⟩
    rw [hasBit_setBit (by rw [hlength]; omega), hbit]
    rcases Nat.lt_trichotomy p l.length with hp | rfl | hp
    · rw [List.getElem?_append_left hp, decide_eq_false (by omega), Bool.and_false, Bool.or_false]
    · rw [List.getElem?_concat_length, List.getElem?_eq_none (Nat.le_refl _), decide_eq_true rfl, Bool.and_true]
      rfl
    · rw [List.getElem?_eq_none (by omega), List.getElem?_eq_none
        (by rw [List.length_append, List.length_singleton]; omega),
        decide_eq_false (by omega), Bool.and_false]
      rfl

/-- **Whole bytes** have the bits that they were made of. -/
theorem flatMap_toBytes {bits : List Bool} (h : bits.length % 8 = 0) : (toBytes bits).flatMap byteBits = bits := by
  obtain ⟨hlength, hbit⟩ := foldl_setBit (N := (bits.length + 7) / 8) (l := bits) (by omega)
  have hsize : 8 * (toBytes bits).length = bits.length := by
    have heq : (toBytes bits).length = (bits.length + 7) / 8 := hlength
    omega
  apply List.ext_getElem?
  intro p
  by_cases hp : p < 8 * (toBytes bits).length
  · rw [getElem?_byteBits _ hp]
    have hp' : p < bits.length := by omega
    have hbit : ((toBytes bits).getD (p / 8) 0).toNat.testBit (7 - p % 8) = _ := hbit p
    rw [hbit, List.getElem?_eq_getElem hp']
    rfl
  · rw [List.getElem?_eq_none (by rw [length_flatMap_byteBits]; omega), List.getElem?_eq_none (by omega)]

theorem bitAt_eq (data : List UInt8) (k : Nat) : bitAt data k = (hasBit data k).toNat := by
  have hindex : k >>> 3 = k / 8 := Nat.shiftRight_eq_div_pow k 3
  have hmask : k &&& 7 = k % 8 := Nat.and_two_pow_sub_one_eq_mod k 3
  rw [bitAt, hasBit, hindex, hmask, Nat.toNat_testBit, Nat.and_one_is_mod, Nat.shiftRight_eq_div_pow]

/-- What stands at a position is read there. -/
theorem readBits_eq {data : List UInt8} (front bits : List Bool) {back : List Bool}
    (h : data.flatMap byteBits = front ++ (bits ++ back)) :
    readBits data front.length bits.length = ofBits bits := by
  have hlength := congrArg List.length h
  rw [length_flatMap_byteBits, List.length_append, List.length_append] at hlength
  have hbits : (List.range bits.length).map (fun i => hasBit data (front.length + i)) = bits := by
    apply List.ext_getElem?
    intro i
    by_cases hi : i < bits.length
    · have hget := getElem?_byteBits data (p := front.length + i) (by omega)
      rw [h, List.getElem?_append_right (by omega), Nat.add_sub_cancel_left, List.getElem?_append_left hi] at hget
      rw [List.getElem?_map, List.getElem?_range hi, hget]
      rfl
    · rw [List.getElem?_eq_none (by simpa using hi), List.getElem?_eq_none (by omega)]
  rw [readBits, ← congrArg ofBits hbits, ofBits, List.foldl_map]
  refine List.foldl_ext _ _ _ fun v i _ => ?_
  rw [bitAt_eq, ← Nat.shiftLeft_add_eq_or_of_lt (by cases hasBit data (front.length + i) <;> decide), Nat.shiftLeft_eq]
  omega

section
variable (text : JsString) (version : Nat) (spec : Version)

/-- The mode, the count and the bytes. -/
def header : List Bool :=
  bitsOf 4 0b0100 ++ (bitsOf (countBits version) (utf8 text).data.toList.length ++ (utf8 text).data.toList.flatMap byteBits)

theorem length_header : (header text version).length = 4 + countBits version + 8 * (utf8 text).data.toList.length := by
  rw [header, List.length_append, List.length_append, length_bitsOf, length_bitsOf, length_flatMap_byteBits]
  omega

/-- Then zeros up to a byte, and the pads. -/
theorem paddedData_eq : ∃ zeros,
    (header text version ++ zeros).length % 8 = 0 ∧
      (4 + countBits version + 8 * (utf8 text).data.toList.length ≤ spec.dataCapacity * 8 →
        (header text version ++ zeros).length ≤ spec.dataCapacity * 8) ∧
      paddedData text version spec = toBytes (header text version ++ zeros) ++
        (List.range (spec.dataCapacity - (toBytes (header text version ++ zeros)).length)).map
          fun i => PADS.getD (i % 2) 0 := by
  have hheader : (utf8 text).data.toList.foldl (fun bits b => push bits b.toNat 8)
      (push (push [] 0b0100 4) (utf8 text).data.toList.length (countBits version)) = header text version := by
    rw [foldl_push, push_eq, push_eq, List.nil_append, List.append_assoc]
    rfl
  refine ⟨bitsOf (min 4 (spec.dataCapacity * 8 - (header text version).length)) 0 ++
    List.replicate ((8 - (header text version ++
      bitsOf (min 4 (spec.dataCapacity * 8 - (header text version).length)) 0).length % 8) % 8)
      false, ?_, ?_, ?_⟩
  · rw [← List.append_assoc, List.length_append, List.length_replicate]
    omega
  · intro hfits
    rw [← length_header] at hfits
    rw [← List.append_assoc, List.length_append, List.length_replicate, List.length_append, length_bitsOf]
    omega
  · rw [paddedData]
    simp only [hheader]
    simp only [push_eq, List.append_assoc]

variable {text version spec}

theorem length_paddedData (h : 4 + countBits version + 8 * (utf8 text).data.toList.length ≤ spec.dataCapacity * 8) :
    (paddedData text version spec).length = spec.dataCapacity := by
  obtain ⟨zeros, hwhole, hle, heq⟩ := paddedData_eq text version spec
  have hbits := congrArg List.length (flatMap_toBytes hwhole)
  rw [length_flatMap_byteBits] at hbits
  have hfits := hle h
  rw [heq, List.length_append, List.length_map, List.length_range]
  omega

theorem paddedData_bits (text : JsString) (version : Nat) (spec : Version) :
    ∃ back, (paddedData text version spec).flatMap byteBits = header text version ++ back := by
  obtain ⟨zeros, hwhole, -, heq⟩ := paddedData_eq text version spec
  rw [heq, List.flatMap_append, flatMap_toBytes hwhole, List.append_assoc]
  exact ⟨_, rfl⟩

/-- **The text** is read from its padded data. -/
theorem readText_paddedData (hcount : (utf8 text).data.toList.length < 2 ^ countBits version) :
    readText (paddedData text version spec) version = some (textDecoder (utf8 text).data.toList) := by
  obtain ⟨back, hdata⟩ := paddedData_bits text version spec
  generalize paddedData text version spec = data at hdata
  have hmode : readBits data 0 4 = 4 := by
    have hread := readBits_eq [] (bitsOf 4 0b0100) (show data.flatMap byteBits = [] ++
      (bitsOf 4 0b0100 ++ (bitsOf (countBits version)
      (utf8 text).data.toList.length ++ (utf8 text).data.toList.flatMap byteBits ++ back)) by rw [hdata, header]; simp)
    exact hread.trans (ofBits_bitsOf 4 4)
  have hlength : readBits data 4 (countBits version) = (utf8 text).data.toList.length := by
    have hread := readBits_eq (bitsOf 4 0b0100) (bitsOf (countBits version) (utf8 text).data.toList.length)
      (show data.flatMap byteBits =
      bitsOf 4 0b0100 ++ (bitsOf (countBits version) (utf8 text).data.toList.length ++
        ((utf8 text).data.toList.flatMap byteBits ++ back))
      by rw [hdata, header]; simp)
    rw [length_bitsOf, length_bitsOf, ofBits_bitsOf, Nat.mod_eq_of_lt hcount] at hread
    exact hread
  have hbytes : (List.range (utf8 text).data.toList.length).map (fun i =>
      UInt8.ofNat (readBits data (4 + countBits version + 8 * i) 8)) = (utf8 text).data.toList := by
    apply List.ext_getElem
    · rw [List.length_map, List.length_range]
    · intro i hi hi'
      rw [List.getElem_map, List.getElem_range]
      have hsplit : (utf8 text).data.toList.flatMap byteBits = ((utf8 text).data.toList.take i).flatMap byteBits ++
          (byteBits (utf8 text).data.toList[i] ++ ((utf8 text).data.toList.drop (i + 1)).flatMap byteBits) := by
        rw [← List.flatMap_cons, ← List.flatMap_append, List.getElem_cons_drop, List.take_append_drop]
      have hread := readBits_eq
        (bitsOf 4 0b0100 ++ (bitsOf (countBits version) (utf8 text).data.toList.length ++
          ((utf8 text).data.toList.take i).flatMap byteBits))
        (byteBits (utf8 text).data.toList[i])
        (show data.flatMap byteBits = _ ++ (_ ++ (((utf8 text).data.toList.drop (i + 1)).flatMap byteBits ++ back)) by
          rw [hdata, header, hsplit]; simp)
      have hfront : (bitsOf 4 0b0100 ++ (bitsOf (countBits version) (utf8 text).data.toList.length ++
          ((utf8 text).data.toList.take i).flatMap byteBits)).length = 4 + countBits version + 8 * i := by
        rw [List.length_append, List.length_append, length_bitsOf, length_bitsOf, length_flatMap_byteBits, List.length_take]
        omega
      rw [hfront, byteBits, length_bitsOf, ofBits_bitsOf, Nat.mod_eq_of_lt (UInt8.toNat_lt _)] at hread
      rw [hread, UInt8.ofNat_toNat]
  rw [readText, hmode, hlength]
  exact congrArg (fun bytes => some (textDecoder bytes)) hbytes

end

/-! ## The whole -/

/-- The versions, and that their codewords have room. -/
theorem version_spec {version : Nat} {spec : Version} (h : VERSIONS version = some spec) : 1 ≤ version ∧ version ≤ 10 ∧
    8 * (spec.dataCapacity + (spec.g1 + spec.g2) * spec.eccLength) ≤
      ((zigzag (sizeFor version)).filter fun p => !isFunction version (sizeFor version) p.1 p.2).length := by
  have hroom := length_dataCells version (show sizeFor version % 2 = 1 by rw [sizeFor]; omega) (by rw [sizeFor]; omega)
  have hall : ∀ v ∈ List.range' 1 10, ∀ s ∈ VERSIONS v, 8 * (s.dataCapacity + (s.g1 + s.g2) * s.eccLength) +
      (225 + 2 * (sizeFor v - 17) + 25 * (alignmentCentres v (sizeFor v)).length) ≤ sizeFor v * sizeFor v := by decide
  have hrange : 1 ≤ version ∧ version ≤ 10 := by
    rw [VERSIONS.eq_def] at h
    split at h <;> first | omega | cases h
  have hle := hall version (List.mem_range'_1.mpr (by omega)) spec h
  exact ⟨hrange.1, hrange.2, by omega⟩

theorem chooseVersion_spec {byteLength version : Nat} {spec : Version} (h : chooseVersion byteLength = some (version, spec)) :
    VERSIONS version = some spec ∧ 4 + countBits version + 8 * byteLength ≤ spec.dataCapacity * 8 := by
  have hmem := List.mem_of_find?_eq_some h
  obtain ⟨v, -, hv⟩ := List.mem_filterMap.mp hmem
  obtain ⟨s, hs, heq⟩ := Option.map_eq_some_iff.mp hv
  cases heq
  have hfits := List.find?_some h
  rw [decide_eq_true_eq] at hfits
  have hfits : 4 + countBits version + byteLength * 8 ≤ spec.dataCapacity * 8 := hfits
  exact ⟨hs, by omega⟩

theorem exists_version {byteLength : Nat} (h : byteLength ≤ 213) : ∃ p, chooseVersion byteLength = some p := by
  rw [← Option.isSome_iff_exists, chooseVersion, List.find?_isSome]
  refine ⟨(10, ⟨346, 26, 4, 43, 1, 44⟩), by decide, decide_eq_true ?_⟩
  show 4 + 16 + byteLength * 8 ≤ 216 * 8
  omega

/-- Whatever the penalties are, one of the masks stays. -/
theorem bestOf_spec (base : Matrix) (version : Nat) : ∃ best, bestOf base version = some best ∧ best.mask < 8 ∧
    best.matrix = candidate base version best.mask := by
  have hrounds : ∀ n, ∃ best, (List.range (n + 1)).foldl (tryMask base version) none = some best ∧ best.mask ≤ n ∧
      best.matrix = candidate base version best.mask := by
    intro n
    induction n with
    | zero => exact ⟨_, rfl, Nat.le_refl 0, rfl⟩
    | succ n ih =>
      obtain ⟨best, hbest, hmask, hmatrix⟩ := ih
      rw [List.range_succ, List.foldl_append, hbest, List.foldl_cons, List.foldl_nil, tryMask]
      split
      · exact ⟨_, rfl, Nat.le_refl _, rfl⟩
      · exact ⟨best, rfl, by omega, hmatrix⟩
  obtain ⟨best, hbest, hmask, hmatrix⟩ := hrounds 7
  exact ⟨best, hbest, by omega, hmatrix⟩

/-- What is drawn of a text that is accepted. -/
theorem encode_spec {text : JsString} {version : Nat} {spec : Version} (h : accepts text = some (version, spec)) : ∃ mask < 8,
    encode text = some ⟨sizeFor version, (candidate (baseMatrix text version spec) version mask).modules, version, mask⟩ := by
  obtain ⟨best, hbest, hmask, hmatrix⟩ := bestOf_spec (baseMatrix text version spec) version
  refine ⟨best.mask, hmask, ?_⟩
  rw [encode, h, Option.bind_some, ← hmatrix]
  show (bestOf (baseMatrix text version spec) version).map _ = _
  rw [hbest]
  rfl

theorem size_foldl {α : Type} {f : Matrix → α → Matrix} (h : ∀ m x, (f m x).size = m.size) (l : List α) (m : Matrix) :
    (l.foldl f m).size = m.size := by
  induction l generalizing m with
  | nil => rfl
  | cons x l ih => rw [List.foldl_cons, ih, h]

theorem size_placeFinder (m : Matrix) (row col : Nat) : (placeFinder m row col).size = m.size := by
  rw [placeFinder, size_foldl]
  intro m p
  dsimp only
  split <;> rfl

theorem size_placeFunctionPatterns (m : Matrix) (version : Nat) : (placeFunctionPatterns m version).size = m.size := by
  have halignment : ∀ (m : Matrix) (centre : Nat × Nat), (placeAlignment m centre).size = m.size := by
    intro m centre
    rw [placeAlignment, size_foldl]
    exact fun _ _ => rfl
  have htiming : ∀ (m : Matrix) (i : Nat), ((m.set 6 i (i % 2 == 0)).set i 6 (i % 2 == 0)).size = m.size := fun _ _ => rfl
  have hset : ∀ (m : Matrix) (row col : Nat) (v : Bool), (m.set row col v).size = m.size := fun _ _ _ _ => rfl
  rw [placeFunctionPatterns, hset, size_foldl halignment, size_foldl htiming, size_placeFinder,
    size_placeFinder, size_placeFinder]

theorem size_reserve (m : Matrix) (row col : Nat) : (m.reserve row col).size = m.size := by
  rw [Matrix.reserve]
  split <;> rfl

theorem size_reserveFormat (m : Matrix) : (reserveFormat m).size = m.size := by
  have hpair : ∀ (m : Matrix) (r c r' c' : Nat), ((m.reserve r c).reserve r' c').size = m.size := by
    intro m r c r' c'
    rw [size_reserve, size_reserve]
  rw [reserveFormat]
  exact (size_foldl (fun m i => hpair m _ _ _ _) _ _).trans (size_foldl (fun m i => hpair m _ _ _ _) _ _)

section
variable {text : JsString} {version : Nat} {spec : Version}
variable (hfits : 4 + countBits version + 8 * (utf8 text).data.toList.length ≤ spec.dataCapacity * 8)
include hfits

theorem map_length_dataBlocks : (dataBlocks text version spec).map List.length = blockLengths spec := by
  have hlength := length_paddedData hfits
  rw [Version.dataCapacity] at hlength
  rw [dataBlocks, blockLengths, List.map_append, map_length_slices (by omega), map_length_slices (by omega)]

theorem flatten_dataBlocks : (dataBlocks text version spec).flatten = paddedData text version spec := by
  have hlength := length_paddedData hfits
  rw [Version.dataCapacity] at hlength
  rw [dataBlocks, List.flatten_append, flatten_slices, flatten_slices, List.drop_zero]
  rw [List.take_of_length_le (l :=
    (paddedData text version spec).drop _) (by rw [List.length_drop]; omega), List.take_append_drop]

theorem length_buildCodewords :
    (buildCodewords text version spec).length = spec.dataCapacity + (spec.g1 + spec.g2) * spec.eccLength := by
  have hcount : (dataBlocks text version spec).length = spec.g1 + spec.g2 := by
    have hlength := congrArg List.length (map_length_dataBlocks hfits)
    rwa [List.length_map, blockLengths, List.length_append, List.length_replicate, List.length_replicate] at hlength
  have hecc : ∀ blocks : List (List UInt8), (blocks.map fun b => rsEncode b spec.eccLength).flatten.length =
      blocks.length * spec.eccLength := by
    intro blocks
    induction blocks with
    | nil => exact (Nat.zero_mul _).symm
    | cons b blocks ih =>
      rw [List.map_cons, List.flatten_cons, List.length_append, ih, length_rsEncode, List.length_cons, Nat.succ_mul]
      exact Nat.add_comm _ _
  rw [(buildCodewords_perm text version spec).length_eq, List.length_append,
    flatten_dataBlocks hfits, length_paddedData hfits,
    hecc, hcount]

end

theorem size_baseMatrix (text : JsString) (version : Nat) (spec : Version) :
    (baseMatrix text version spec).size = sizeFor version := by
  refine (size_placeBits version _ _ _).trans ?_
  rw [size_reserveFormat, size_placeFunctionPatterns]
  rfl

/-- **The blocks** are got back from the matrix. -/
theorem deinterleave_baseMatrix {text : JsString} {version : Nat} {spec : Version} (hversion : VERSIONS version = some spec)
    (hfits : 4 + countBits version + 8 * (utf8 text).data.toList.length ≤ spec.dataCapacity * 8) :
    deinterleave (interleavedBytes (pathBits version (sizeFor version) (baseMatrix text version spec).modules))
      (blockLengths spec) = dataBlocks text version spec := by
  have hroom := (version_spec hversion).2.2
  rw [← length_buildCodewords hfits] at hroom
  obtain ⟨rest, hcodewords⟩ := interleavedBytes_dataBits (buildCodewords text version spec) hroom
  have hempty : (reserveFormat (placeFunctionPatterns (emptyMatrix (sizeFor version)) version)).size = sizeFor version := by
    rw [size_reserveFormat, size_placeFunctionPatterns]
    rfl
  have hplaced := pathBits_placeData (reserveFormat (placeFunctionPatterns (emptyMatrix (sizeFor version)) version)) version
    (buildCodewords text version spec)
  rw [hempty] at hplaced
  rw [← map_length_dataBlocks hfits, baseMatrix, hplaced, hcodewords, buildCodewords, List.append_assoc]
  exact deinterleave_interleave _ _

/-- The count fits in its bits. -/
theorem length_lt_count {version : Nat} {spec : Version} (hversion : VERSIONS version = some spec) {length : Nat}
    (hfits : 4 + countBits version + 8 * length ≤ spec.dataCapacity * 8) : length < 2 ^ countBits version := by
  have hcapacity : ∀ v ∈ List.range' 1 10, ∀ s ∈ VERSIONS v, s.dataCapacity * 8 < 4 + countBits v +
    8 * 2 ^ countBits v := by decide
  obtain ⟨hlower, hupper, -⟩ := version_spec hversion
  have hlt := hcapacity version (List.mem_range'_1.mpr (by omega)) spec hversion
  omega

theorem readFormat_candidate {base : Matrix} (hsize : 17 ≤ base.size) (version : Nat) {mask : Nat} (hmask : mask < 8) :
    readFormat (candidate base version mask).modules = (FORMAT_EC, mask) :=
  readFormat_placeFormat (m := applyMask base version mask) hsize hmask

/-- The decoder undoes what a version and a mask made of a text. -/
theorem decode_candidate {text : JsString} {version : Nat} {spec : Version} (hversion : VERSIONS version = some spec)
    (hfits : 4 + countBits version + 8 * (utf8 text).data.toList.length ≤ spec.dataCapacity * 8)
    {mask : Nat} (hmask : mask < 8) :
    decode (sizeFor version) (candidate (baseMatrix text version spec) version mask).modules =
      some (textDecoder (utf8 text).data.toList) := by
  have hsize := size_baseMatrix text version spec
  have hlarge : 17 ≤ (baseMatrix text version spec).size := by rw [hsize, sizeFor]; omega
  have hformat := readFormat_candidate hlarge version hmask
  have hbits := pathBits_candidate (baseMatrix text version spec) hlarge version mask
  rw [hsize] at hbits
  have hversion' : (sizeFor version - 17) / 4 = version := by rw [sizeFor]; omega
  have hwhole : ¬ (sizeFor version - 17) % 4 ≠ 0 := by rw [sizeFor]; omega
  have htext := @readText_paddedData text version spec (length_lt_count hversion hfits)
  rw [← flatten_dataBlocks hfits, ← deinterleave_baseMatrix hversion hfits, ← hbits] at htext
  rw [decode]
  simp only [hversion', if_neg hwhole, hversion, Option.bind_some, hformat]
  exact htext

/-- **Round trip.** A well-formed text of at most 213 bytes is read back, unless a mark at its beginning is dropped. -/
theorem decode_encode {text : JsString} (hne : text ≠ []) (hwell : WellFormed text) (hlength : (utf8 text).size ≤ 213)
    (hmark : text.head? ≠ some 0xfeff) : ∃ symbol, encode text = some symbol ∧
      decode symbol.size symbol.modules = some text := by
  obtain ⟨⟨version, spec⟩, hchoose⟩ := exists_version hlength
  obtain ⟨hversion, hfits⟩ := chooseVersion_spec hchoose
  have haccepts : accepts text = some (version, spec) := (if_neg hne).trans hchoose
  obtain ⟨mask, hmask, hencode⟩ := encode_spec haccepts
  have htext : textDecoder (utf8 text).data.toList = text := by
    rw [textDecoder_utf8 hwell]
    cases text with
    | nil => rfl
    | cons u s => exact if_neg fun hu => hmark (congrArg some hu)
  refine ⟨_, hencode, ?_⟩
  show decode (sizeFor version) (candidate (baseMatrix text version spec) version mask).modules = some text
  rw [decode_candidate hversion hfits hmask, htext]

theorem decode_encode_of_a : ∃ symbol, encode (js "a") = some symbol ∧ decode symbol.size symbol.modules = some (js "a") :=
  decode_encode (by decide) (by decide) (by decide) (by decide)

end Qr
end MaterialOpenWebui
