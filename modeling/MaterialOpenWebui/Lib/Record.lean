import MaterialOpenWebui.Lib.Rewrite
import Mathlib.Data.List.Range

/-!
# `Lib.Record` — which places of a text are rewritten

Literal texts are replaced one after another. Here every character that is still the text's own is taken with the place where it
stood (`Cell`), so that one can tell which places a replacement was made at, or that it was made where nothing of the text's own
stood together (`events`). A record says the same of a text from the other side: it is the text's own characters and, where a
literal text gave way, that text with what took its place (`Slot`). On records literal texts can be replaced together.
-/

namespace Rewrite

variable {α : Type} [DecidableEq α]

/-! ## What is done -/

/-- A character, with its place if it is the text's own. -/
abbrev Cell (α : Type) := α × Option Nat

/-- The pass for a literal text, on cells: what it puts in has no place. -/
def tagged (sub : List α × List α) : Matcher (Cell α) := fun s =>
  if sub.1 <+: s.map Prod.fst then some (sub.1.length - 1, sub.2.map fun c => (c, none)) else none

/-- The places of what the pass replaces. -/
def hits (sub : List α × List α) : Nat → List (Cell α) → List (List (Option Nat))
  | _, [] => []
  | n + 1, _ :: s => hits sub n s
  | 0, c :: s =>
    if sub.1 <+: (c :: s).map Prod.fst then ((c :: s).take sub.1.length).map Prod.snd :: hits sub (sub.1.length - 1) s
    else hits sub 0 s

/-- What all passes replace: the literal text, and the places of its characters. -/
def events : List (List α × List α) → List (Cell α) → List ((List α × List α) × List (Option Nat))
  | [], _ => []
  | sub :: subs, s => (hits sub 0 s).map (sub, ·) ++ events subs (rewrite (tagged sub) 0 s)

/-- The text's own characters and their places. -/
def cellsOf (s : List α) : List (Cell α) := s.zipIdx.map fun c => (c.1, some c.2)

omit [DecidableEq α] in
/-! ## Records -/

/-- A character of the text's own, or a literal text of it with what took its place. -/
abbrev Slot (α : Type) := α ⊕ (List α × List α)

def tokens (rec : List (Slot α)) : List (Token α) := rec.map (Sum.elim .own fun sub => .put sub.2)

/-- Which of several literal texts begins a text. -/
def find (subs : List (List α × List α)) (s : List α) : Option (List α × List α) := subs.find? fun sub => sub.1 <+: s

/-- The pass over the text's own parts, with a record. -/
def pick (m : List α → Option (List α × List α)) : Nat → List (Slot α) → List (Slot α)
  | _, [] => []
  | n + 1, .inl _ :: rest => pick m n rest
  | 0, .inl c :: rest =>
    match m (c :: run (tokens rest)) with
    | some sub => .inr sub :: pick m (sub.1.length - 1) rest
    | none => .inl c :: pick m 0 rest
  | _, .inr sub :: rest => .inr sub :: pick m 0 rest

def pickAll (subs : List (List α × List α)) (rec : List (Slot α)) : List (Slot α) :=
  subs.foldl (fun rec sub => pick (find [sub]) 0 rec) rec

/-- What has given way, and where it stood; the record begins at place `k`. -/
def places : Nat → List (Slot α) → List (Nat × (List α × List α))
  | _, [] => []
  | k, .inl _ :: rest => places (k + 1) rest
  | k, .inr sub :: rest => (k, sub) :: places (k + sub.1.length) rest

/-- The characters of the text that a record tells of. -/
def cells : Nat → List (Slot α) → List (Cell α)
  | _, [] => []
  | k, .inl c :: rest => (c, some k) :: cells (k + 1) rest
  | k, .inr sub :: rest => (sub.2.map fun c => (c, none)) ++ cells (k + sub.1.length) rest

/-- A literal text that stood at a place, and the places of its characters. -/
def event (e : Nat × (List α × List α)) : (List α × List α) × List (Option Nat) :=
  (e.2, (List.range' e.1 e.2.1.length).map some)

/-- What has given way is no empty text. -/
def Filled (rec : List (Slot α)) : Prop := ∀ sub, .inr sub ∈ rec → sub.1 ≠ []

omit [DecidableEq α] in
theorem tokens_own (s : List α) : tokens (s.map .inl) = s.map Token.own := by
  rw [tokens, List.map_map]
  rfl

omit [DecidableEq α] in
theorem tokens_append (rec rec' : List (Slot α)) : tokens (rec ++ rec') = tokens rec ++ tokens rec' := List.map_append

omit [DecidableEq α] in
theorem cells_own (k : Nat) (s : List α) : cells k (s.map .inl) = (s.zipIdx k).map fun c => (c.1, some c.2) := by
  induction s generalizing k with
  | nil => rfl
  | cons c s ih =>
    show (c, some k) :: cells (k + 1) (s.map .inl) = _
    rw [ih]
    rfl

omit [DecidableEq α] in
theorem places_own (k : Nat) (s : List α) : places k (s.map .inl) = [] := by
  induction s generalizing k with
  | nil => rfl
  | cons c s ih => exact ih (k + 1)

omit [DecidableEq α] in
theorem map_fst_cells (k : Nat) (rec : List (Slot α)) : (cells k rec).map Prod.fst = text (tokens rec) := by
  induction rec generalizing k with
  | nil => rfl
  | cons t rec ih =>
    cases t with
    | inl c => exact congrArg (c :: ·) (ih (k + 1))
    | inr sub =>
      show ((sub.2.map fun c => ((c, none) : Cell α)) ++ cells (k + sub.1.length) rec).map
        Prod.fst = sub.2 ++ text (tokens rec)
      rw [List.map_append, List.map_map, ih]
      exact congrArg (· ++ text (tokens rec)) (List.map_id sub.2)

theorem find_single (sub : List α × List α) (s : List α) : find [sub] s = if sub.1 <+: s then some sub else none := by
  rw [find, List.find?_cons, List.find?_nil]
  by_cases hhead : sub.1 <+: s <;> simp [hhead]

theorem find_some {subs : List (List α × List α)} {s : List α} {sub : List α × List α} (h : find subs s = some sub) :
    sub ∈ subs ∧ sub.1 <+: s := by
  refine ⟨List.mem_of_find?_eq_some h, ?_⟩
  simpa using List.find?_some h

theorem find_none {subs : List (List α × List α)} {s : List α} (h : find subs s = none) : ∀ sub ∈ subs, ¬ sub.1 <+: s := by
  intro sub hsub
  simpa using List.find?_eq_none.mp h sub hsub

/-- The record of a pass, without what has given way. -/
theorem tokens_pick (sub : List α × List α) (n : Nat) (rec : List (Slot α)) :
    tokens (pick (find [sub]) n rec) = mark (literal sub.1 sub.2) n (tokens rec) := by
  induction rec generalizing n with
  | nil => cases n <;> rfl
  | cons t rec ih =>
    cases t with
    | inr sub' =>
      have hput : pick (find [sub]) n (.inr sub' :: rec) = .inr sub' :: pick (find [sub]) 0 rec := by
        cases n <;> rfl
      rw [hput]
      show Token.put sub'.2 :: tokens (pick (find [sub]) 0 rec) = mark _ n (.put sub'.2 :: tokens rec)
      rw [ih]
      cases n <;> rfl
    | inl c =>
      cases n with
      | succ n => exact ih n
      | zero =>
        show tokens (pick (find [sub]) 0 (.inl c :: rec)) = mark _ 0 (.own c :: tokens rec)
        rw [pick, mark, find_single, literal]
        by_cases hhead : sub.1 <+: c :: run (tokens rec)
        · rw [if_pos hhead, if_pos hhead]
          exact congrArg (Token.put sub.2 :: ·) (ih _)
        · rw [if_neg hhead, if_neg hhead]
          exact congrArg (Token.own c :: ·) (ih 0)

theorem tokens_pickAll (subs : List (List α × List α)) (rec : List (Slot α)) :
    tokens (pickAll subs rec) = markAll (subs.map fun sub => literal sub.1 sub.2) (tokens rec) := by
  induction subs generalizing rec with
  | nil => rfl
  | cons sub subs ih =>
    show tokens (pickAll subs (pick (find [sub]) 0 rec)) = markAll _ (mark (literal sub.1 sub.2) 0 (tokens rec))
    rw [ih, tokens_pick]

omit [DecidableEq α] in
/-- A pass puts in only what takes the place of a literal text. -/
theorem filled_pick {m : List α → Option (List α × List α)} (hm : ∀ s sub, m s = some sub → sub.1 ≠ []) {n : Nat}
    {rec : List (Slot α)} (h : Filled rec) : Filled (pick m n rec) := by
  induction rec generalizing n with
  | nil => cases n <;> exact h
  | cons t rec ih =>
    have hrest : Filled rec := fun sub hsub => h sub (List.mem_cons_of_mem t hsub)
    cases t with
    | inr sub =>
      have hput : Filled (.inr sub :: pick m 0 rec) := by
        intro sub' hsub'
        rcases List.mem_cons.mp hsub' with heq | hsub'
        · exact h sub' (heq ▸ List.mem_cons_self)
        · exact ih hrest sub' hsub'
      cases n <;> exact hput
    | inl c =>
      cases n with
      | succ n => exact ih hrest
      | zero =>
        rw [pick]
        cases hfound : m (c :: run (tokens rec)) with
        | none =>
          intro sub hsub
          rcases List.mem_cons.mp hsub with heq | hsub
          · cases heq
          · exact ih hrest sub hsub
        | some found =>
          intro sub hsub
          rcases List.mem_cons.mp hsub with heq | hsub
          · cases heq
            exact hm _ _ hfound
          · exact ih hrest sub hsub

theorem filled_single {sub : List α × List α} (hne : sub.1 ≠ []) {n : Nat} {rec : List (Slot α)} (h : Filled rec) :
    Filled (pick (find [sub]) n rec) := by
  refine filled_pick (fun s found hfound => ?_) h
  obtain rfl := List.mem_singleton.mp (find_some hfound).1
  exact hne

/-! ## One pass -/

omit [DecidableEq α] in
theorem run_prefix_text (ts : List (Token α)) : run ts <+: text ts := by
  have h := (run_starts ts).flatMap Token.text
  rwa [show ((run ts).map Token.own).flatMap Token.text = run ts from text_own (run ts)] at h

omit [DecidableEq α] in
/-- The places of own characters that stand together. -/
theorem take_cells {k m : Nat} {rec : List (Slot α)} (h : m ≤ (run (tokens rec)).length) :
    ((cells k rec).take m).map Prod.snd = (List.range' k m).map some := by
  induction m generalizing k rec with
  | zero => rfl
  | succ m ih =>
    cases rec with
    | nil => cases h
    | cons t rec =>
      cases t with
      | inr sub => cases h
      | inl c =>
        show some k :: ((cells (k + 1) rec).take m).map Prod.snd = some k :: (List.range' (k + 1) m).map some
        rw [ih (Nat.le_of_succ_le_succ h)]

/-- What a local pass finds is as far for the text as for its own characters. -/
theorem prefix_text_iff {sub : List α × List α} {c : α} {ts : List (Token α)}
    (h : literal sub.1 sub.2 (c :: text ts) = literal sub.1 sub.2 (c :: run ts)) :
    sub.1 <+: c :: text ts ↔ sub.1 <+: c :: run ts := by
  rw [literal, literal] at h
  constructor
  · intro hyes
    by_contra hno
    rw [if_pos hyes, if_neg hno] at h
    cases h
  · intro hyes
    by_contra hno
    rw [if_pos hyes, if_neg hno] at h
    cases h

/-- **One pass**, where it is local: what it leaves. -/
theorem pass_cells {sub : List α × List α} (hne : sub.1 ≠ []) {n k : Nat} {rec : List (Slot α)}
    (hn : n ≤ (run (tokens rec)).length) (h : Local (literal sub.1 sub.2) n (tokens rec)) :
    rewrite (tagged sub) n (cells k rec) = cells (k + n) (pick (find [sub]) n rec) := by
  induction rec generalizing n k with
  | nil => cases n <;> rfl
  | cons t rec ih =>
    cases t with
    | inr sub' =>
      obtain rfl : n = 0 := Nat.le_zero.mp hn
      have hput : ∀ t ∈ (sub'.2.map fun c => ((c, none) : Cell α)).tails, t ≠ [] →
          tagged sub (t ++ cells (k + sub'.1.length) rec) = none := by
        intro t ht htne
        have htail : literal sub.1 sub.2 (t.map Prod.fst ++ text (tokens rec)) = none := h.1 (t.map Prod.fst) (by
          have hsuffix := ((List.mem_tails _ _).mp ht).map Prod.fst
          rw [List.map_map] at hsuffix
          exact (List.mem_tails _ _).mpr ((List.map_id sub'.2) ▸ hsuffix)) (by simpa using htne)
        rw [tagged, List.map_append, map_fst_cells]
        refine if_neg fun hhead => ?_
        rw [literal, if_pos hhead] at htail
        cases htail
      show rewrite (tagged sub) 0 (_ ++ cells (k + sub'.1.length) rec) = _ ++ cells (k + 0 + sub'.1.length) _
      rw [rewrite_put hput, ih (Nat.zero_le _) h.2]
      rfl
    | inl c =>
      cases n with
      | succ n =>
        show rewrite (tagged sub) n (cells (k + 1) rec) = cells (k + (n + 1)) (pick (find [sub]) n rec)
        rw [ih (Nat.le_of_succ_le_succ hn) h, Nat.add_assoc, Nat.add_comm 1]
      | zero =>
        have hiff : sub.1 <+: c :: text (tokens rec) ↔ sub.1 <+: c :: run (tokens rec) := prefix_text_iff h.1
        have hrest : Local (literal sub.1 sub.2)
            (extent (literal sub.1 sub.2) (c :: run (tokens rec))) (tokens rec) := h.2
        have hcells : ((c, some k) :: cells (k + 1) rec).map Prod.fst = c :: text (tokens rec) :=
          congrArg (c :: ·) (map_fst_cells _ _)
        show rewrite (tagged sub) 0 ((c, some k) :: cells (k + 1) rec) = _
        rw [rewrite, pick, find_single, tagged, hcells]
        rw [extent, literal] at hrest
        by_cases hhead : sub.1 <+: c :: run (tokens rec)
        · rw [if_pos hhead] at hrest ⊢
          rw [if_pos (hiff.mpr hhead)]
          have hafter : Local (literal sub.1 sub.2) (sub.1.length - 1) (tokens rec) := hrest
          have hlength := hhead.length_le
          have hpos := List.length_pos_of_ne_nil hne
          rw [List.length_cons] at hlength
          show _ ++ rewrite (tagged sub) (sub.1.length - 1) _ = _ ++ cells (k + 0 + sub.1.length) _
          rw [ih (by omega) hafter, show k + 1 + (sub.1.length - 1) = k + 0 + sub.1.length by omega]
        · rw [if_neg hhead] at hrest ⊢
          rw [if_neg fun hyes => hhead (hiff.mp hyes)]
          exact congrArg ((c, some k) :: ·) (ih (Nat.zero_le _) hrest)

theorem hits_put {sub : List α × List α} {s : List α} {rest : List (Cell α)}
    (h : ∀ t ∈ s.tails, t ≠ [] → ¬ sub.1 <+: t ++ rest.map Prod.fst) :
    hits sub 0 ((s.map fun c => (c, none)) ++ rest) = hits sub 0 rest := by
  induction s with
  | nil => rfl
  | cons c s ih =>
    have hnot := h (c :: s) ((List.mem_tails _ _).mpr (List.suffix_refl _)) (List.cons_ne_nil c s)
    have hfst : (((c, none) : Cell α) :: ((s.map fun c => (c, none)) ++ rest)).map Prod.fst = c ::
      s ++ rest.map Prod.fst := by
      rw [List.map_cons, List.map_append, List.map_map]
      exact congrArg (fun s' => c :: s' ++ rest.map Prod.fst) (List.map_id s)
    show hits sub 0 ((c, none) :: ((s.map fun c => (c, none)) ++ rest)) = _
    rw [hits, hfst, if_neg hnot]
    refine ih fun t ht => h t ?_
    exact (List.mem_tails _ _).mpr (((List.mem_tails _ _).mp ht).trans (List.suffix_cons c s))

/-- **One pass**, where it is local: the places of what it replaces. -/
theorem hits_cells {sub : List α × List α} (hne : sub.1 ≠ []) {n k : Nat} {rec : List (Slot α)}
    (hn : n ≤ (run (tokens rec)).length) (h : Local (literal sub.1 sub.2) n (tokens rec)) :
    ((places (k + n) (pick (find [sub]) n rec)).map event).Perm
      ((hits sub n (cells k rec)).map (sub, ·) ++ (places k rec).map event) := by
  induction rec generalizing n k with
  | nil => cases n <;> exact .refl _
  | cons t rec ih =>
    cases t with
    | inr sub' =>
      obtain rfl : n = 0 := Nat.le_zero.mp hn
      have hput : ∀ t ∈ sub'.2.tails, t ≠ [] → ¬ sub.1 <+: t ++ (cells (k + sub'.1.length) rec).map Prod.fst := by
        intro t ht htne hhead
        have htail : literal sub.1 sub.2 (t ++ text (tokens rec)) = none := h.1 t ht htne
        rw [literal, if_pos (map_fst_cells (k + sub'.1.length) rec ▸ hhead)] at htail
        cases htail
      show (event (k, sub') :: (places (k + sub'.1.length) (pick (find [sub]) 0 rec)).map event).Perm
        ((hits sub 0 ((sub'.2.map fun c => (c, none)) ++ cells (k + sub'.1.length) rec)).map (sub, ·) ++
          event (k, sub') :: (places (k + sub'.1.length) rec).map event)
      rw [hits_put hput]
      exact ((ih (Nat.zero_le _) h.2).cons _).trans List.perm_middle.symm
    | inl c =>
      cases n with
      | succ n =>
        show ((places (k + (n + 1)) (pick (find [sub]) n rec)).map event).Perm
          ((hits sub n (cells (k + 1) rec)).map (sub, ·) ++ (places (k + 1) rec).map event)
        rw [show k + (n + 1) = k + 1 + n by omega]
        exact ih (Nat.le_of_succ_le_succ hn) h
      | zero =>
        have hiff : sub.1 <+: c :: text (tokens rec) ↔ sub.1 <+: c :: run (tokens rec) := prefix_text_iff h.1
        have hrest : Local (literal sub.1 sub.2)
            (extent (literal sub.1 sub.2) (c :: run (tokens rec))) (tokens rec) := h.2
        have hcells : ((c, some k) :: cells (k + 1) rec).map Prod.fst = c :: text (tokens rec) :=
          congrArg (c :: ·) (map_fst_cells _ _)
        show ((places k (pick (find [sub]) 0 (.inl c :: rec))).map event).Perm
          ((hits sub 0 ((c, some k) :: cells (k + 1) rec)).map (sub, ·) ++ (places (k + 1) rec).map event)
        rw [pick, find_single, hits, hcells]
        rw [extent, literal] at hrest
        by_cases hhead : sub.1 <+: c :: run (tokens rec)
        · have htake : (((c, some k) :: cells (k + 1) rec).take sub.1.length).map Prod.snd =
            (List.range' k sub.1.length).map some :=
            @take_cells _ k _ (.inl c :: rec) hhead.length_le
          rw [if_pos hhead] at hrest ⊢
          rw [if_pos (hiff.mpr hhead)]
          have hafter : Local (literal sub.1 sub.2) (sub.1.length - 1) (tokens rec) := hrest
          have hlength := hhead.length_le
          have hpos := List.length_pos_of_ne_nil hne
          rw [List.length_cons] at hlength
          have hevent : event (k, sub) = (sub, (((c, some k) :: cells (k + 1) rec).take sub.1.length).map Prod.snd) :=
            congrArg (sub, ·) htake.symm
          show (event (k, sub) :: (places (k + sub.1.length) (pick (find [sub]) (sub.1.length - 1) rec)).map event).Perm
            ((sub, _) :: ((hits sub (sub.1.length - 1) (cells (k + 1) rec)).map (sub, ·) ++
              (places (k + 1) rec).map event))
          rw [hevent, show k + sub.1.length = k + 1 + (sub.1.length - 1) by omega]
          exact (ih (by omega) hafter).cons _
        · rw [if_neg hhead] at hrest ⊢
          rw [if_neg fun hyes => hhead (hiff.mp hyes)]
          exact ih (Nat.zero_le _) hrest

omit [DecidableEq α] in
theorem le_place {k i : Nat} {rec : List (Slot α)} {c : Cell α} (hc : c ∈ cells k rec) (hi : c.2 = some i) : k ≤ i := by
  induction rec generalizing k with
  | nil => cases hc
  | cons t rec ih =>
    cases t with
    | inl d =>
      rcases List.mem_cons.mp hc with rfl | hc
      · exact le_of_eq (Option.some.inj hi)
      · exact Nat.le_of_succ_le (ih hc)
    | inr sub =>
      rcases List.mem_append.mp hc with hc | hc
      · obtain ⟨d, -, rfl⟩ := List.mem_map.mp hc
        cases hi
      · exact (Nat.le_add_right k _).trans (ih hc)

omit [DecidableEq α] in
/-- Own characters whose places follow each other stand together. -/
theorem le_run_of_take {k m : Nat} {rec : List (Slot α)} (hfilled : Filled rec)
    (h : ((cells k rec).take m).map Prod.snd = (List.range' k m).map some) : m ≤ (run (tokens rec)).length := by
  induction m generalizing k rec with
  | zero => exact Nat.zero_le _
  | succ m ih =>
    cases rec with
    | nil => cases h
    | cons t rec =>
      cases t with
      | inl c =>
        exact Nat.succ_le_succ
          (ih (fun sub hsub => hfilled sub (List.mem_cons_of_mem _ hsub)) (List.cons.inj h).2)
      | inr sub =>
        -- the first character that is left was put in, or stood behind what gave way
        obtain ⟨c, s, hcons⟩ : ∃ c s, cells k (.inr sub :: rec) = c :: s := by
          cases hcells : cells k (.inr sub :: rec) with
          | nil =>
            rw [hcells] at h
            cases h
          | cons c s => exact ⟨c, s, rfl⟩
        rw [hcons] at h
        have hc : c.2 = some k := (List.cons.inj h).1
        have hmem : c ∈ cells k (.inr sub :: rec) := hcons ▸ List.mem_cons_self
        have hpos := List.length_pos_of_ne_nil (hfilled sub List.mem_cons_self)
        rcases List.mem_append.mp hmem with hput | hbehind
        · obtain ⟨d, -, rfl⟩ := List.mem_map.mp hput
          cases hc
        · have hle := le_place hbehind hc
          omega

theorem not_prefix_of_hits {sub : List α × List α} (hne : sub.1 ≠ []) {s : List α} {rest : List (Cell α)}
    (h : ∀ o ∈ hits sub 0 ((s.map fun c => (c, none)) ++ rest), ∃ i, o = (List.range' i sub.1.length).map some) :
    ∀ t ∈ s.tails, t ≠ [] → ¬ sub.1 <+: t ++ rest.map Prod.fst := by
  induction s with
  | nil =>
    intro t ht htne
    exact absurd (List.mem_singleton.mp ht) htne
  | cons c s ih =>
    have hfst : (((c, none) : Cell α) :: ((s.map fun c => (c, none)) ++ rest)).map Prod.fst = c ::
      s ++ rest.map Prod.fst := by
      rw [List.map_cons, List.map_append, List.map_map]
      exact congrArg (fun s' => c :: s' ++ rest.map Prod.fst) (List.map_id s)
    have h : ∀ o ∈ hits sub 0 ((c, none) :: ((s.map fun c => (c, none)) ++ rest)),
        ∃ i, o = (List.range' i sub.1.length).map some := h
    rw [hits, hfst] at h
    have hhead : ¬ sub.1 <+: c :: s ++ rest.map Prod.fst := by
      intro hhead
      rw [if_pos hhead] at h
      obtain ⟨i, hi⟩ := h _ List.mem_cons_self
      obtain ⟨d, old, hold⟩ := List.exists_cons_of_ne_nil hne
      rw [hold] at hi
      cases hi
    rw [if_neg hhead] at h
    intro t ht htne
    rcases List.suffix_cons_iff.mp ((List.mem_tails _ _).mp ht) with rfl | hsuffix
    · exact hhead
    · exact ih h t ((List.mem_tails _ _).mpr hsuffix) htne

/-- A pass that meets the text's own places only is local. -/
theorem local_of_hits {sub : List α × List α} (hne : sub.1 ≠ []) {n k : Nat} {rec : List (Slot α)} (hfilled : Filled rec)
    (h : ∀ o ∈ hits sub n (cells k rec), ∃ i, o = (List.range' i sub.1.length).map some)
    (hn : n ≤ (run (tokens rec)).length) :
    Local (literal sub.1 sub.2) n (tokens rec) := by
  induction rec generalizing n k with
  | nil => cases n <;> trivial
  | cons t rec ih =>
    have hrest : Filled rec := fun sub hsub => hfilled sub (List.mem_cons_of_mem t hsub)
    cases t with
    | inr sub' =>
      obtain rfl : n = 0 := Nat.le_zero.mp hn
      have hnot : ∀ t ∈ sub'.2.tails, t ≠ [] → ¬ sub.1 <+: t ++ (cells (k + sub'.1.length) rec).map Prod.fst :=
        not_prefix_of_hits hne h
      have hafter : ∀ o ∈ hits sub 0 (cells (k + sub'.1.length) rec), ∃ i, o = (List.range' i sub.1.length).map some := by
        rw [← hits_put hnot]
        exact h
      refine ⟨fun t ht htne => if_neg ?_, ih hrest hafter (Nat.zero_le _)⟩
      show ¬ sub.1 <+: t ++ text (tokens rec)
      rw [← map_fst_cells (k + sub'.1.length)]
      exact hnot t ht htne
    | inl c =>
      cases n with
      | succ n => exact ih hrest (k := k + 1) h (Nat.le_of_succ_le_succ hn)
      | zero =>
        have hcells : ((c, some k) :: cells (k + 1) rec).map Prod.fst = c :: text (tokens rec) :=
          congrArg (c :: ·) (map_fst_cells _ _)
        have h : ∀ o ∈ hits sub 0 ((c, some k) :: cells (k + 1) rec),
            ∃ i, o = (List.range' i sub.1.length).map some := h
        show literal sub.1 sub.2 (c :: text (tokens rec)) = literal sub.1 sub.2 (c :: run (tokens rec)) ∧
          Local (literal sub.1 sub.2) (extent (literal sub.1 sub.2) (c :: run (tokens rec))) (tokens rec)
        rw [hits, hcells] at h
        rw [extent, literal, literal]
        by_cases hhead : sub.1 <+: c :: text (tokens rec)
        · rw [if_pos hhead] at h
          obtain ⟨hfound, hothers⟩ := List.forall_mem_cons.mp h
          obtain ⟨i, hi⟩ := hfound
          obtain ⟨d, old, hold⟩ := List.exists_cons_of_ne_nil hne
          have hi' := hi
          rw [hold] at hi'
          obtain rfl : k = i := Option.some.inj (List.cons.inj hi').1
          have hlength : sub.1.length ≤ (c :: run (tokens rec)).length :=
            @le_run_of_take _ k _ (.inl c :: rec) hfilled hi
          have hrun : sub.1 <+: c :: run (tokens rec) := List.prefix_of_prefix_length_le hhead
            (List.cons_prefix_cons.mpr ⟨rfl, run_prefix_text (tokens rec)⟩) hlength
          have hpos := List.length_pos_of_ne_nil hne
          rw [List.length_cons] at hlength
          rw [if_pos hhead, if_pos hrun]
          refine ⟨rfl, ih hrest hothers ?_⟩
          show sub.1.length - 1 ≤ _
          omega
        · have hrun : ¬ sub.1 <+: c :: run (tokens rec) := fun hyes =>
            hhead (hyes.trans (List.cons_prefix_cons.mpr ⟨rfl, run_prefix_text (tokens rec)⟩))
          rw [if_neg hhead] at h
          rw [if_neg hhead, if_neg hrun]
          exact ⟨rfl, ih hrest h (Nat.zero_le _)⟩

/-! ## All passes -/

/-- **All passes**, where they are local: the places of what they replace. -/
theorem events_perm {subs : List (List α × List α)} (hne : ∀ sub ∈ subs, sub.1 ≠ []) {k : Nat} {rec : List (Slot α)}
    (h : LocalAll (subs.map fun sub => literal sub.1 sub.2) (tokens rec)) :
    ((places k (pickAll subs rec)).map event).Perm (events subs (cells k rec) ++ (places k rec).map event) := by
  induction subs generalizing rec with
  | nil => exact .refl _
  | cons sub subs ih =>
    have ⟨hsub, hsubs⟩ := List.forall_mem_cons.mp hne
    have hlocal : Local (literal sub.1 sub.2) 0 (tokens rec) := h.1
    have hrest : LocalAll (subs.map fun sub => literal sub.1 sub.2) (tokens (pick (find [sub]) 0 rec)) := by
      rw [tokens_pick]
      exact h.2
    have hpass := pass_cells (k := k) hsub (Nat.zero_le _) hlocal
    have hhits := hits_cells (k := k) hsub (Nat.zero_le _) hlocal
    show ((places k (pickAll subs (pick (find [sub]) 0 rec))).map event).Perm
      (((hits sub 0 (cells k rec)).map (sub, ·) ++ events subs (rewrite (tagged sub) 0 (cells k rec))) ++
        (places k rec).map event)
    rw [hpass]
    refine (ih hsubs hrest).trans ((hhits.append_left _).trans ?_)
    rw [← List.append_assoc]
    exact List.perm_append_comm.append_right _

/-- Passes that meet the text's own places only are local. -/
theorem localAll_of_events {subs : List (List α × List α)} (hne : ∀ sub ∈ subs, sub.1 ≠ []) {k : Nat} {rec : List (Slot α)}
    (hfilled : Filled rec) (h : ∀ e ∈ events subs (cells k rec), ∃ i, e.2 = (List.range' i e.1.1.length).map some) :
    LocalAll (subs.map fun sub => literal sub.1 sub.2) (tokens rec) := by
  induction subs generalizing rec with
  | nil => trivial
  | cons sub subs ih =>
    have ⟨hsub, hsubs⟩ := List.forall_mem_cons.mp hne
    have hlocal : Local (literal sub.1 sub.2) 0 (tokens rec) := by
      refine local_of_hits (k := k) hsub hfilled (fun o ho => ?_) (Nat.zero_le _)
      exact h (sub, o) (List.mem_append_left _ (List.mem_map_of_mem ho))
    have hpass := pass_cells (k := k) hsub (Nat.zero_le _) hlocal
    refine ⟨hlocal, ?_⟩
    show LocalAll (subs.map fun sub => literal sub.1 sub.2) (mark (literal sub.1 sub.2) 0 (tokens rec))
    rw [← tokens_pick]
    refine ih hsubs (filled_single hsub hfilled) fun e he => h e (List.mem_append_right _ ?_)
    rw [hpass]
    exact he

/-- What all passes leave of the text, where they are local. -/
theorem rewriteAll_pickAll {subs : List (List α × List α)} (hne : ∀ sub ∈ subs, sub.1 ≠ []) {rec : List (Slot α)}
    (h : LocalAll (subs.map fun sub => literal sub.1 sub.2) (tokens rec)) :
    rewriteAll (subs.map fun sub => literal sub.1 sub.2) (text (tokens rec)) = text (tokens (pickAll subs rec)) := by
  rw [tokens_pickAll]
  refine rewriteAll_text (List.forall_mem_map.mpr fun sub hsub => ?_) h
  exact lawful_literal (hne sub hsub) sub.2

end Rewrite
