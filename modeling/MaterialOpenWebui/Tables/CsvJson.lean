import Mathlib.Algebra.GroupWithZero.Nat
import MaterialOpenWebui.Tables.Rfc4180
import Mathlib.Algebra.Order.BigOperators.Group.List
import Mathlib.Algebra.Order.Group.Nat

/-!
# `Tables.CsvJson` — from JSON to CSV and back

A list of flat objects with the same names is written as CSV and read again. The writer puts a cell in quotes where it has to be,
but the names never; the reader cuts lines before it looks for quotes, and passes over lines that are empty.
-/

namespace MaterialOpenWebui
namespace Tables
open Js JsValue Quoted

/-! ## The list -/

/-- Flat objects with the same names, in the order of own properties, and texts as values. -/
structure FlatList where
  keys : List JsString
  rows : List (List JsString)
  keys_ne : keys ≠ []
  rows_ne : rows ≠ []
  names : ∀ k ∈ keys, k ≠ []
  distinct : keys.Nodup
  ordered : keys.Pairwise fun a b => ownRank a ≤ ownRank b
  width : ∀ row ∈ rows, row.length = keys.length

namespace FlatList
variable (l : FlatList)

def objects : List (List (JsString × JsString)) := l.rows.map fun row => l.keys.zip row

def value : JsValue := .arr (l.objects.map textObject)

/-- The cells of a row, in quotes where they have to be. -/
def cellsOf (row : List JsString) : List (JsString × Bool) := row.map fun v => (v, mustQuote comma v)

variable {l}

theorem ownOrder_zip (row : List JsString) (h : row ∈ l.rows) : ownOrder (l.keys.zip row) = l.keys.zip row := by
  refine InOrder.ownOrder_eq ?_
  have hpairs : ((l.keys.zip row).map Prod.fst).Pairwise fun a b => ownRank a ≤ ownRank b := by
    rw [List.map_fst_zip (Nat.le_of_eq (l.width row h).symm)]
    exact l.ordered
  exact (List.pairwise_map (R := fun a b => ownRank a ≤ ownRank b)).mp hpairs

theorem columnKeys_value : columnKeys (l.objects.map textObject) = l.keys := by
  have hkeys : ∀ row ∈ l.rows,
    (if (textObject (l.keys.zip row)).isObject then (ownProps (textObject (l.keys.zip row))).map Prod.fst
      else []) = l.keys := by
    intro row hrow
    show ((l.keys.zip row).map fun p => (p.1, JsValue.str p.2)).map Prod.fst = l.keys
    rw [List.map_map]
    exact List.map_fst_zip (Nat.le_of_eq (l.width row hrow).symm)
  have hseen : ∀ seen : List JsString, ∀ keys ⊆ seen,
      keys.foldl (fun seen key => if key ∈ seen then seen else seen ++ [key]) seen = seen := by
    intro seen keys
    induction keys with
    | nil => exact fun _ => rfl
    | cons k keys ih =>
      intro h
      rw [List.cons_subset] at h
      rw [List.foldl_cons, if_pos h.1, ih h.2]
  have hnew : ∀ keys seen : List JsString, (seen ++ keys).Nodup →
      keys.foldl (fun seen key => if key ∈ seen then seen else seen ++ [key]) seen = seen ++ keys := by
    intro keys
    induction keys with
    | nil => exact fun seen _ => (List.append_nil seen).symm
    | cons k keys ih =>
      intro seen h
      have hk : k ∉ seen := fun hk => (List.nodup_append.mp h).2.2 k hk k List.mem_cons_self rfl
      rw [List.foldl_cons, if_neg hk, ih _ (by rwa [List.append_assoc]), List.append_assoc, List.singleton_append]
  obtain ⟨row, rows, hrows⟩ := List.exists_cons_of_ne_nil l.rows_ne
  have hflat : ∀ rows ⊆ l.rows, (((rows.map fun row => l.keys.zip row).map textObject).flatMap fun r =>
      if r.isObject then (ownProps r).map Prod.fst else []) ⊆ l.keys := by
    intro rows hsub k hk
    rw [List.map_map, List.flatMap_map] at hk
    obtain ⟨row, hrow, hk⟩ := List.mem_flatMap.mp hk
    exact hkeys row (hsub hrow) ▸ hk
  rw [columnKeys, objects, hrows, List.map_cons, List.map_cons, List.flatMap_cons, List.foldl_append,
    hkeys row (hrows ▸ List.mem_cons_self), hnew l.keys [] l.distinct, List.nil_append]
  exact hseen l.keys _ (hflat rows (hrows ▸ List.subset_cons_self row rows))

variable (inherited : JsValue → JsString → JsValue)

theorem cells_textObject {row : List JsString} (h : row ∈ l.rows) :
    (l.keys.map fun k => esc (cellOf inherited (textObject (l.keys.zip row)) k)) = (cellsOf row).map cellText := by
  have hlookup : l.keys.map (fun k => cellOf inherited (textObject (l.keys.zip row)) k) = row.map .str := by
    have hlength := l.width row h
    apply List.ext_getElem
    · rw [List.length_map, List.length_map, hlength]
    · intro n hn hn'
      rw [List.length_map] at hn hn'
      rw [List.getElem_map, List.getElem_map]
      have hmem : (l.keys[n], JsValue.str row[n]) ∈ (l.keys.zip row).map fun p => (p.1, JsValue.str p.2) := by
        refine List.mem_map.mpr ⟨(l.keys[n], row[n]), ?_, rfl⟩
        exact List.mem_iff_getElem.mpr ⟨n, by rw [List.length_zip]; omega, List.getElem_zip⟩
      have hnodup : (((l.keys.zip row).map fun p => (p.1, JsValue.str p.2)).map Prod.fst).Nodup := by
        rw [List.map_map]
        exact (List.map_fst_zip (Nat.le_of_eq hlength.symm)).symm ▸ l.distinct
      show (((l.keys.zip row).map fun p => (p.1, JsValue.str p.2)).lookup l.keys[n]).getD _ = _
      rw [lookup_of_mem hnodup hmem]
      rfl
  show l.keys.map (esc ∘ fun k => cellOf inherited (textObject (l.keys.zip row)) k) = _
  rw [← List.map_map, hlookup, cellsOf, List.map_map, List.map_map]
  rfl

/-- **The file** that is written. -/
theorem csvText_eq : csvText inherited (l.objects.map textObject) =
    joinWith [comma] l.keys ++ LF :: joinWith [LF] (l.rows.map fun row => lineOf (cellsOf row)) := by
  have hrows : (l.objects.map textObject).map (fun r => joinWith [comma] (l.keys.map fun k => esc (cellOf inherited r k))) =
      l.rows.map fun row => lineOf (cellsOf row) := by
    rw [objects, List.map_map, List.map_map]
    exact List.map_congr_left fun row hrow => congrArg (joinWith [comma]) (cells_textObject inherited hrow)
  rw [csvText, columnKeys_value]
  show joinWith [comma] l.keys ++ [LF] ++ joinWith [LF] _ = _
  rw [hrows, List.append_assoc]
  rfl

end FlatList

/-! ## What counts -/

/-- What the line of names loses if it has it: quotes, and a mark or a carriage return at its ends. -/
def IsLost (u : UInt16) : Prop := u = quote ∨ u = CR ∨ u = 0xfeff

instance (u : UInt16) : Decidable (IsLost u) := inferInstanceAs (Decidable (_ ∨ _))

def weight (t : JsString) : Nat := t.countP fun u => IsLost u

def total (ts : List JsString) : Nat := (ts.map weight).sum

theorem weight_append (s t : JsString) : weight (s ++ t) = weight s + weight t := List.countP_append

theorem weight_cons (u : UInt16) (t : JsString) : weight (u :: t) = (if IsLost u then 1 else 0) + weight t := by
  rw [weight, List.countP_cons, Nat.add_comm]
  simp [weight]

theorem total_append (ss ts : List JsString) : total (ss ++ ts) = total ss + total ts := by
  rw [total, List.map_append, List.sum_append]
  rfl

theorem total_cons (t : JsString) (ts : List JsString) : total (t :: ts) = weight t + total ts := List.sum_cons

/-- Commas do not count. -/
theorem weight_joinWith (ts : List JsString) : weight (joinWith [comma] ts) = total ts := by
  induction ts with
  | nil => rfl
  | cons t ts ih =>
    cases ts with
    | nil => exact (Nat.add_zero _).symm
    | cons t' ts =>
      show weight (t ++ [comma] ++ joinWith [comma] (t' :: ts)) = _
      rw [weight_append, weight_append, ih, total_cons t]
      rfl

/-- **Reading a line** makes none of them, and takes a quote away where there is one. -/
theorem total_parseLine (line : JsString) :
    total (parseLine line) ≤ weight line ∧ (quote ∈ line → total (parseLine line) < weight line) := by
  have hinv : LineInv fun quoted s rest =>
      total s.out + weight s.cur + weight rest + quoted.toNat ≤ weight line ∧
        (quote ∈ line → quote ∈ rest ∨ total s.out + weight s.cur + weight rest < weight line) := by
    have hput : ∀ (s : LineReader) (c : UInt16), weight (s.put c).cur = weight s.cur + if IsLost c then 1 else 0 := by
      intro s c
      rw [LineReader.put, weight_append, weight_cons]
      rfl
    have hpush : ∀ s : LineReader, total s.push.out + weight s.push.cur = total s.out + weight s.cur := by
      intro s
      rw [LineReader.push, total_append]
      rfl
    have hout : ∀ (s : LineReader) (c : UInt16), (s.put c).out = s.out := fun _ _ => rfl
    have hquote : ∀ rest, weight (quote :: rest) = 1 + weight rest := fun rest => by rw [weight_cons, if_pos (.inl rfl)]
    have hcomma : ∀ rest, weight (comma :: rest) = weight rest := by
      intro rest
      rw [weight_cons, if_neg (by decide), Nat.zero_add]
    refine ⟨?_, ?_, ?_, ?_, ?_, ?_⟩
    · intro s rest h
      rw [hquote] at h
      simp only [Bool.toNat_false, Bool.toNat_true] at h ⊢
      exact ⟨by omega, fun _ => .inr (by omega)⟩
    · intro s rest h
      rw [hcomma] at h
      rw [hpush]
      exact ⟨h.1, fun hmem => (h.2 hmem).imp (fun hrest => (List.mem_cons.mp hrest).resolve_left (by decide)) id⟩
    · intro s c rest hq _ h
      rw [weight_cons] at h
      rw [hout, hput]
      refine ⟨by omega, fun hmem => (h.2 hmem).imp ?_ fun hlt => by omega⟩
      exact fun hrest => (List.mem_cons.mp hrest).resolve_left fun heq => hq heq.symm
    · intro s rest h
      rw [hquote, hquote] at h
      rw [hout, hput, if_pos (.inl rfl)]
      simp only [Bool.toNat_true] at h ⊢
      exact ⟨by omega, fun _ => .inr (by omega)⟩
    · intro s rest h
      rw [hquote] at h
      simp only [Bool.toNat_false, Bool.toNat_true] at h ⊢
      exact ⟨by omega, fun _ => .inr (by omega)⟩
    · intro s c rest _ h
      rw [weight_cons] at h
      rw [hout, hput]
      simp only [Bool.toNat_true] at h ⊢
      exact ⟨by omega, fun _ => .inr (by omega)⟩
  obtain ⟨quoted, s, hs, heq⟩ := hinv.run line ⟨Nat.le_of_eq (Nat.zero_add _), fun h => .inl h⟩
  have htotal : total s.push.out = total s.out + weight s.cur := total_append _ _
  have hnil : weight [] = 0 := rfl
  rw [heq, htotal]
  rw [hnil] at hs
  refine ⟨by omega, fun hmem => ?_⟩
  exact (hs.2 hmem).elim (fun h => absurd h List.not_mem_nil) fun h => h

/-- A line without quotes is cut at every comma. -/
theorem comma_not_mem_parseLine {line : JsString} (h : quote ∉ line) : ∀ cell ∈ parseLine line, comma ∉ cell := by
  have hinv : LineInv fun quoted s rest => quoted = false ∧ quote ∉ rest ∧ ∀ cell ∈ s.out ++ [s.cur], comma ∉ cell := by
    refine ⟨?_, ?_, ?_, ?_, ?_, ?_⟩
    · exact fun s rest h => absurd List.mem_cons_self h.2.1
    · refine fun s rest h => ⟨rfl, fun hmem => h.2.1 (List.mem_cons_of_mem _ hmem), fun cell hcell => ?_⟩
      rcases List.mem_append.mp hcell with hcell | hcell
      · exact h.2.2 cell hcell
      · rw [List.mem_singleton.mp hcell]
        exact List.not_mem_nil
    · refine fun s c rest _ hc h => ⟨rfl, fun hmem => h.2.1 (List.mem_cons_of_mem _ hmem), fun cell hcell => ?_⟩
      rcases List.mem_append.mp hcell with hcell | hcell
      · exact h.2.2 cell (List.mem_append_left _ hcell)
      · rw [List.mem_singleton.mp hcell, LineReader.put, List.mem_append, not_or]
        refine ⟨h.2.2 s.cur (List.mem_append_right _ (List.mem_singleton_self _)), fun hmem => hc ?_⟩
        exact (List.mem_singleton.mp hmem).symm
    · exact fun s rest h => Bool.noConfusion h.1
    · exact fun s rest h => Bool.noConfusion h.1
    · exact fun s c rest _ h => Bool.noConfusion h.1
  obtain ⟨_, s, hs, heq⟩ := hinv.run line ⟨rfl, h, by simp⟩
  rw [heq]
  exact hs.2.2

/-! ## The law -/

theorem weight_dropBom {s : JsString} (h : s.head? = some 0xfeff) : weight (dropBom s) < weight s := by
  obtain ⟨s, rfl⟩ := List.head?_eq_some_iff.mp h
  rw [dropBom, if_pos rfl, weight_cons, if_pos (by decide)]
  omega

theorem dropBom_of_head {s : JsString} (h : s.head? ≠ some 0xfeff) : dropBom s = s := by
  cases s with
  | nil => rfl
  | cons u s => exact if_neg fun hu => h (congrArg some hu)

theorem weight_dropBom_le (s : JsString) : weight (dropBom s) ≤ weight s := by
  by_cases h : s.head? = some 0xfeff
  · exact (weight_dropBom h).le
  · rw [dropBom_of_head h]

theorem weight_dropCr {s : JsString} (h : s.getLast? = some CR) : weight (dropCr s) < weight s := by
  have hsplit := weight_append s.dropLast [CR]
  have hone : weight [CR] = 1 := rfl
  rw [List.dropLast_append_getLast? CR h, hone] at hsplit
  rw [dropCr, if_pos h]
  omega

theorem weight_dropCr_le (s : JsString) : weight (dropCr s) ≤ weight s := by
  by_cases h : s.getLast? = some CR
  · exact (weight_dropCr h).le
  · rw [dropCr, if_neg h]

/-- Names that are all found again weigh no more than what they are found in. -/
theorem total_le_of_keys {keys names : List JsString} (hdistinct : keys.Nodup)
    (h : ∀ k ∈ keys, k ∈ names ∨ ∃ n, k = js "column" ++ natText n) : total keys ≤ total names := by
  have hcolumn : ∀ n, weight (js "column" ++ natText n) = 0 := by
    refine fun n => List.countP_eq_zero.mpr fun u hu => ?_
    have hrange := mem_columnName hu
    simp only [decide_eq_true_eq]
    rintro (rfl | rfl | rfl)
    · exact absurd hrange.1 (by decide)
    · exact absurd hrange.1 (by decide)
    · exact absurd hrange.2 (by decide)
  -- the names that count
  have hfilter : ∀ keys : List JsString, total keys = total (keys.filter fun k => weight k ≠ 0) := by
    intro keys
    induction keys with
    | nil => rfl
    | cons k keys ih =>
      rw [total_cons, ih]
      by_cases hk : weight k = 0
      · rw [List.filter_cons_of_neg (by simpa using hk), hk, Nat.zero_add]
      · rw [List.filter_cons_of_pos (by simpa using hk), total_cons]
  rw [hfilter keys]
  have hsubset : (keys.filter fun k => weight k ≠ 0) ⊆ names := by
    intro k hk
    rw [List.mem_filter, decide_eq_true_eq] at hk
    refine (h k hk.1).resolve_right ?_
    rintro ⟨n, rfl⟩
    exact hk.2 (hcolumn n)
  obtain ⟨found, hperm, hsub⟩ := List.subperm_of_subset (hdistinct.filter _) hsubset
  rw [total, ← (hperm.map weight).sum_nat]
  exact (hsub.map weight).sum_le_sum fun _ _ => Nat.zero_le _

namespace FlatList
variable (l : FlatList)

/-- What the two converters need of a list. -/
structure Kept : Prop where
  keys : ∀ k ∈ l.keys, LineText k ∧ comma ∉ k ∧ quote ∉ k
  first : (joinWith [comma] l.keys).head? ≠ some 0xfeff
  last : (joinWith [comma] l.keys).getLast? ≠ some CR
  values : ∀ row ∈ l.rows, ∀ v ∈ row, LineText v
  lines : [[]] ∉ l.rows

variable {l}

theorem header_ne : joinWith [comma] l.keys ≠ [] := by
  obtain ⟨k, keys, hkeys⟩ := List.exists_cons_of_ne_nil l.keys_ne
  have hk : k ≠ [] := l.names k (hkeys ▸ List.mem_cons_self)
  rw [hkeys]
  intro hnil
  cases keys with
  | nil => exact hk hnil
  | cons k' keys => exact hk (List.append_eq_nil_iff.mp (List.append_eq_nil_iff.mp hnil).1).1

/-- Lines of which none ends with a carriage return. -/
theorem splitLines_joined {ls : List JsString} (hne : ls ≠ []) (h : ∀ line ∈ ls, LF ∉ line ∧ line.getLast? ≠ some CR) :
    splitLines [] (joinWith [LF] ls) = ls := by
  induction ls with
  | nil => exact absurd rfl hne
  | cons line ls ih =>
    obtain ⟨hlf, hcr⟩ := h line List.mem_cons_self
    cases ls with
    | nil => exact splitLines_last hlf []
    | cons line' ls =>
      show splitLines [] (line ++ [LF] ++ joinWith [LF] (line' :: ls)) = _
      rw [List.append_assoc, splitLines_text hlf, List.singleton_append, splitLines_lf,
        ih (List.cons_ne_nil _ _) fun line hline => h line (List.mem_cons_of_mem _ hline),
          List.nil_append, dropCr, if_neg hcr]

/-- A line of cells ends with a comma, a quote or the end of a text that has no carriage return. -/
theorem getLast?_lineOf (row : List JsString) : (lineOf (cellsOf row)).getLast? ≠ some CR := by
  have hcell : ∀ v : JsString, (cellText (v, mustQuote comma v)).getLast? ≠ some CR := by
    intro v h
    cases hmust : mustQuote comma v with
    | true =>
      rw [hmust] at h
      have hlast : (quote :: (double quote v ++ [quote])).getLast? = some quote := by
        rw [← List.cons_append, List.getLast?_append]
        rfl
      exact absurd (Option.some.inj (hlast.symm.trans h)) (by decide)
    | false =>
      rw [hmust] at h
      have hcr : CR ∈ v := List.mem_of_getLast? h
      simp [mustQuote, hcr] at hmust
  induction row with
  | nil => exact (Option.some_ne_none CR).symm
  | cons v row ih =>
    cases row with
    | nil => exact hcell v
    | cons v' row =>
      intro h
      have hlast : (cellText (v, mustQuote comma v) ++ [comma] ++ lineOf (cellsOf (v' :: row))).getLast? = some CR := h
      rw [List.getLast?_append, List.getLast?_append] at hlast
      cases hline : (lineOf (cellsOf (v' :: row))).getLast? with
      | some u =>
        rw [hline] at hlast ih
        exact ih hlast
      | none =>
        rw [hline] at hlast
        exact absurd (Option.some.inj hlast) (by decide)

theorem lineOf_eq_nil {row : List JsString} (hne : row ≠ []) : lineOf (cellsOf row) = [] ↔ row = [[]] := by
  constructor
  · intro h
    cases row with
    | nil => exact absurd rfl hne
    | cons v row =>
      cases row with
      | nil =>
        by_cases hv : v = []
        · rw [hv]
        · exact absurd h (lineOf_ne_nil (show (v, mustQuote comma v).1 ≠ [] from hv) [])
      | cons v' row =>
        have hall : cellText (v, mustQuote comma v) ++ [comma] ++ lineOf (cellsOf (v' :: row)) = [] := h
        exact absurd (List.append_eq_nil_iff.mp (List.append_eq_nil_iff.mp hall).1).2 (List.cons_ne_nil _ _)
  · rintro rfl
    rfl

section
variable (inherited : JsValue → JsString → JsValue)
variable (hkeys : ∀ k ∈ l.keys, LineText k) (hvalues : ∀ row ∈ l.rows, ∀ v ∈ row, LineText v)
include hkeys hvalues

theorem wellFormed_csvText : WellFormed (csvText inherited (l.objects.map textObject)) := by
  rw [csvText_eq]
  refine (wellFormed_append_iff (by decide)).mpr ⟨wellFormed_joinWith (by decide) fun k hk => (hkeys k hk).wellFormed, ?_⟩
  refine wellFormed_joinWith (by decide) fun line hline => ?_
  obtain ⟨row, hrow, rfl⟩ := List.mem_map.mp hline
  refine wellFormed_lineOf fun cell hcell => ?_
  obtain ⟨v, hv, rfl⟩ := List.mem_map.mp hcell
  exact (hvalues row hrow v hv).wellFormed

/-- The lines of the file that is written. -/
theorem linesOf_csvText : linesOf (textDecoder (blob (csvText inherited (l.objects.map textObject)))) =
    (dropCr (dropBom (joinWith [comma] l.keys)) :: l.rows.map fun row => lineOf (cellsOf row)).filter fun l => l ≠ [] := by
  have hheader : LF ∉ dropBom (joinWith [comma] l.keys) := by
    intro hlf
    rcases mem_joinWith (mem_of_mem_dropBom hlf) with hlf | ⟨k, hk, hlf⟩
    · exact absurd hlf (by decide)
    · exact (hkeys k hk).noLf hlf
  have hlines : ∀ line ∈ l.rows.map fun row => lineOf (cellsOf row), LF ∉ line ∧ line.getLast? ≠ some CR := by
    intro line hline
    obtain ⟨row, hrow, rfl⟩ := List.mem_map.mp hline
    refine ⟨noLf_lineOf fun cell hcell => ?_, getLast?_lineOf row⟩
    obtain ⟨v, hv, rfl⟩ := List.mem_map.mp hcell
    exact (hvalues row hrow v hv).noLf
  rw [textDecoder_blob (wellFormed_csvText inherited hkeys hvalues), csvText_eq, dropBom_append header_ne, linesOf,
    splitLines_text hheader, splitLines_lf, splitLines_joined _ hlines, List.nil_append]
  exact fun hnil => l.rows_ne (List.map_eq_nil_iff.mp hnil)

end

theorem object_eq : l.objects = l.rows.map fun row => ownOrder (l.keys.zip row) :=
  List.map_congr_left fun row hrow => (ownOrder_zip row hrow).symm

theorem recordsOf_csvText (inherited : JsValue → JsString → JsValue) (h : l.Kept) :
    recordsOf (textDecoder (blob (csvText inherited (l.objects.map textObject)))) = l.objects := by
  have hcr : dropCr (dropBom (joinWith [comma] l.keys)) = joinWith [comma] l.keys := by
    rw [dropBom_of_head h.first, dropCr, if_neg h.last]
  have hrow : ∀ row ∈ l.rows, row ≠ [] := by
    rintro row hrow rfl
    exact l.keys_ne (List.length_eq_zero_iff.mp (l.width _ hrow).symm)
  have hfilter : (joinWith [comma] l.keys :: l.rows.map fun row => lineOf (cellsOf row)).filter (fun l => l ≠ []) =
      joinWith [comma] l.keys :: l.rows.map fun row => lineOf (cellsOf row) := by
    refine List.filter_eq_self.mpr fun line hline => decide_eq_true ?_
    rcases List.mem_cons.mp hline with rfl | hline
    · exact header_ne
    · obtain ⟨row, hmem, rfl⟩ := List.mem_map.mp hline
      rw [Ne, lineOf_eq_nil (hrow row hmem)]
      rintro rfl
      exact h.lines hmem
  have hheader : parseLine (joinWith [comma] l.keys) = l.keys := by
    have hplain : (l.keys.map fun k => (k, false)).map cellText = l.keys := by
      rw [List.map_map]
      exact List.map_id _
    have hread := parseLine_joined (l.keys.map fun k => (k, false))
      (fun hnil => l.keys_ne (List.map_eq_nil_iff.mp hnil)) ?_
    · rw [hplain, List.map_map] at hread
      exact hread.trans (List.map_id _)
    · intro cell hcell _
      obtain ⟨k, hk, rfl⟩ := List.mem_map.mp hcell
      exact (h.keys k hk).2
  rw [recordsOf, linesOf_csvText inherited (fun k hk => (h.keys k hk).1) h.values, hcr, hfilter]
  show (l.rows.map fun row => lineOf (cellsOf row)).map (recordOf (parseLine (joinWith [comma] l.keys))) = _
  rw [hheader, object_eq, List.map_map]
  refine List.map_congr_left fun row hmem => recordOf_eq l.names l.distinct (l.width row hmem) ?_
  have hread := parseLine_joined (cellsOf row) (fun hnil => hrow row hmem (List.map_eq_nil_iff.mp hnil)) ?_
  · refine hread.trans ?_
    rw [cellsOf, List.map_map]
    exact List.map_id _
  · intro cell hcell
    obtain ⟨v, -, rfl⟩ := List.mem_map.mp hcell
    exact readable_of_grammar fun hmust => hmust

/-- What is read back is as it was only if the line of names was. -/
theorem kept_of_recordsOf {inherited : JsValue → JsString → JsValue}
    (h : recordsOf (textDecoder (blob (csvText inherited (l.objects.map textObject)))) = l.objects) : l.Kept := by
  have hwell : WellFormed (textDecoder (blob (csvText inherited (l.objects.map textObject)))) := by
    rw [textDecoder, blob, decode_utf8]
    exact (wellFormed_toWellFormed _).dropBom
  obtain ⟨hkeys, hvalues⟩ := lineText_of_recordsOf l.rows_ne l.width hwell (h.trans object_eq)
  have hlength := congrArg List.length h
  rw [length_recordsOf, linesOf_csvText inherited hkeys hvalues, objects, List.length_map] at hlength
  have hpos := List.length_pos_of_ne_nil l.rows_ne
  have hfilter : (dropCr (dropBom (joinWith [comma] l.keys)) :: l.rows.map fun row => lineOf (cellsOf row)).filter
      (fun l => l ≠ []) = dropCr (dropBom (joinWith [comma] l.keys)) :: l.rows.map fun row => lineOf (cellsOf row) := by
    refine List.filter_sublist.eq_of_length ?_
    rw [List.length_cons, List.length_map]
    omega
  have hrecords : (l.rows.map fun row => lineOf (cellsOf row)).map
      (recordOf (parseLine (dropCr (dropBom (joinWith [comma] l.keys))))) = l.objects := by
    rw [recordsOf, linesOf_csvText inherited hkeys hvalues, hfilter] at h
    exact h
  have hfound : ∀ k ∈ l.keys, k ∈ parseLine (dropCr (dropBom (joinWith [comma] l.keys))) ∨
      ∃ n, k = js "column" ++ natText n := by
    intro k hk
    obtain ⟨row, rows, hrows⟩ := List.exists_cons_of_ne_nil l.rows_ne
    have hrow : row ∈ l.rows := hrows ▸ List.mem_cons_self
    have hfst : k ∈ (l.keys.zip row).map Prod.fst := by
      rwa [List.map_fst_zip (Nat.le_of_eq (l.width row hrow).symm)]
    obtain ⟨p, hp, rfl⟩ := List.mem_map.mp hfst
    have hobject : l.keys.zip row ∈ l.objects := List.mem_map_of_mem hrow
    rw [← hrecords] at hobject
    obtain ⟨line, -, heq⟩ := List.mem_map.mp hobject
    exact mem_keys_of_recordOf (heq ▸ hp)
  -- nothing that counts is lost on the way from the names to the names
  have htotal := total_le_of_keys l.distinct hfound
  have hparse := total_parseLine (dropCr (dropBom (joinWith [comma] l.keys)))
  have hweight := weight_joinWith l.keys
  have hle := weight_dropCr_le (dropBom (joinWith [comma] l.keys))
  have hle' := weight_dropBom_le (joinWith [comma] l.keys)
  have hfirst : (joinWith [comma] l.keys).head? ≠ some 0xfeff := by
    intro hhead
    have hlt := weight_dropBom hhead
    omega
  rw [dropBom_of_head hfirst] at hparse hle hfound htotal
  have hlast : (joinWith [comma] l.keys).getLast? ≠ some CR := by
    intro hcr
    have hlt := weight_dropCr hcr
    omega
  rw [dropCr, if_neg hlast] at hparse hfound htotal
  have hquote : quote ∉ joinWith [comma] l.keys := by
    intro hmem
    have hlt := hparse.2 hmem
    omega
  refine ⟨fun k hk => ⟨hkeys k hk, ?_, ?_⟩, hfirst, hlast, hvalues, ?_⟩
  · rcases hfound k hk with hcell | ⟨n, rfl⟩
    · exact comma_not_mem_parseLine hquote k hcell
    · exact fun hmem => absurd (mem_columnName hmem).1 (by decide)
  · exact fun hmem => hquote ((infix_joinWith hk).subset hmem)
  · intro hmem
    have hline := List.filter_eq_self.mp hfilter _ (List.mem_cons_of_mem _ (List.mem_map_of_mem hmem))
    exact absurd rfl (of_decide_eq_true hline)

/-- What `JSON.stringify` writes of the list. -/
def file (l : FlatList) : List UInt8 := blob (ofChars ((stringify l.value).getD []))

theorem parse_file (l : FlatList) : parseJson l.file = some l.value := by
  have hcopy : jsonCopy l.value = l.value := by
    rw [value, jsonCopy, copyElems_eq, objects, List.map_map, List.map_map, List.map_map]
    refine congrArg JsValue.arr (List.map_congr_left fun row hrow => ?_)
    have hentries : fromEntries (l.keys.zip row) = l.keys.zip row := by
      rw [fromEntries_of_nodup, ownOrder_zip row hrow]
      exact (List.map_fst_zip (Nat.le_of_eq (l.width row hrow).symm)).symm ▸ l.distinct
    show jsonCopy (textObject (l.keys.zip row)) = textObject (l.keys.zip row)
    rw [← hentries]
    exact jsonCopy_textObject _
  have htext : stringify l.value = some ('[' :: (commas (stringifyElems (l.objects.map textObject)) ++ [']'])) := by
    rw [value, stringify]
  have hdecoded : textDecoder l.file = ofChars ('[' :: (commas (stringifyElems (l.objects.map textObject)) ++ [']'])) := by
    rw [file, htext, Option.getD_some, textDecoder_blob (wellFormed_ofChars _)]
    rfl
  rw [parseJson, hdecoded, scalars_ofChars, parse_stringify htext, hcopy]

theorem json2csv_of_value (inherited : JsValue → JsString → JsValue) {file : List UInt8}
    (hfile : parseJson file = some l.value) :
    json2csv inherited file = some (blob (csvText inherited (l.objects.map textObject))) := by
  have hrows : l.objects.map textObject ≠ [] := by
    intro hnil
    exact l.rows_ne (List.map_eq_nil_iff.mp (List.map_eq_nil_iff.mp hnil))
  rw [json2csv, hfile, Option.map_some]
  show some (if l.objects.map textObject = [] then blob [] else blob (csvText inherited (l.objects.map textObject))) = _
  rw [if_neg hrows]

/-- **The law.** To CSV and back, a list comes back as it was just if it is kept. -/
theorem json2csv_csv2json_iff (inherited : JsValue → JsString → JsValue) (l : FlatList) {file : List UInt8}
    (hfile : parseJson file = some l.value) :
    ((json2csv inherited file).map csv2json).bind parseJson = some l.value ↔ l.Kept := by
  rw [json2csv_of_value inherited hfile, Option.map_some, Option.bind_some, value, parse_csv2json_eq_iff]
  exact ⟨kept_of_recordsOf, recordsOf_csvText inherited⟩

def plainList : FlatList where
  keys := [js "a", js "b"]
  rows := [[js "x,y", []], [js "\"", js "z\r"]]
  keys_ne := by decide
  rows_ne := by decide
  names := by decide
  distinct := by decide
  ordered := by decide
  width := by decide

theorem json2csv_csv2json_plainList :
    ((json2csv (fun _ => ofPrototype) plainList.file).map csv2json).bind parseJson = some plainList.value ↔ plainList.Kept :=
  json2csv_csv2json_iff _ plainList plainList.parse_file

def commaList : FlatList where
  keys := [js "a,b"]
  rows := [[js "x"]]
  keys_ne := by decide
  rows_ne := by decide
  names := by decide
  distinct := by decide
  ordered := by decide
  width := by decide

/-- The one name becomes two. -/
theorem json2csv_csv2json_commaList : ∃ file, parseJson file = some commaList.value ∧
    ((json2csv (fun _ => ofPrototype) file).map csv2json).bind parseJson =
      some (.arr [textObject [(js "a", js "x"), (js "b", [])]]) ∧
    ((json2csv (fun _ => ofPrototype) file).map csv2json).bind parseJson ≠ some commaList.value := by
  have htext : textDecoder (blob (csvText (fun _ => ofPrototype) (commaList.objects.map textObject))) = js "a,b\nx" := by
    rw [csvText_eq, textDecoder_blob (by decide)]
    decide
  have hout : ∀ expected, ((json2csv (fun _ => ofPrototype) commaList.file).map csv2json).bind parseJson =
      some (.arr (expected.map textObject)) ↔ recordsOf (js "a,b\nx") = expected := by
    intro expected
    rw [json2csv_of_value _ commaList.parse_file, Option.map_some, Option.bind_some, parse_csv2json_eq_iff, htext]
  refine ⟨_, commaList.parse_file, (hout [[(js "a", js "x"), (js "b", [])]]).mpr (by decide), fun h => ?_⟩
  exact absurd ((hout commaList.objects).mp h) (by decide)

end FlatList

end Tables
end MaterialOpenWebui
