import MaterialOpenWebui.Lib.Record
import Mathlib.Data.List.Nodup

/-!
# `Lib.Together` — literal texts replaced together

Of literal texts of one length at most one begins a text (`Exclusive`), so they can be replaced together, in one pass from left to
right, and it does not matter in which order they are listed. One after another they are replaced at the same places, in every
order, exactly if none of them begins within what another one is replaced at (`Clear`). So it is for texts of all lengths, when
the longer ones come first (`stage`).
-/

namespace Rewrite

variable {α : Type} [DecidableEq α]

/-! ## A pass, case by case -/

omit [DecidableEq α] in
theorem run_tokens_append (s : List α) (rest : List (Slot α)) :
    run (tokens (s.map .inl ++ rest)) = s ++ run (tokens rest) := by
  rw [tokens_append, tokens_own, run_append_own]

omit [DecidableEq α] in
theorem places_append_own (k : Nat) (s : List α) (rest : List (Slot α)) :
    places k (s.map .inl ++ rest) = places (k + s.length) rest := by
  induction s generalizing k with
  | nil => rfl
  | cons c s ih =>
    show places (k + 1) (s.map .inl ++ rest) = _
    rw [ih, List.length_cons, Nat.add_assoc, Nat.add_comm 1]

omit [DecidableEq α] in
theorem exists_rest {s : List α} {rec : List (Slot α)} (h : s <+: run (tokens rec)) : ∃ rest, rec = s.map .inl ++ rest := by
  induction s generalizing rec with
  | nil => exact ⟨rec, rfl⟩
  | cons c s ih =>
    cases rec with
    | nil => cases List.prefix_nil.mp h
    | cons t rec =>
      cases t with
      | inr sub => cases List.prefix_nil.mp h
      | inl d =>
        obtain ⟨rfl, hs⟩ := List.cons_prefix_cons.mp h
        obtain ⟨rest, rfl⟩ := ih hs
        exact ⟨rest, rfl⟩

omit [DecidableEq α] in
theorem pick_skip (m : List α → Option (List α × List α)) (s : List α) (rest : List (Slot α)) :
    pick m s.length (s.map .inl ++ rest) = pick m 0 rest := by
  induction s with
  | nil => rfl
  | cons c s ih => exact ih

omit [DecidableEq α] in
/-- A literal text gives way. -/
theorem pick_found {m : List α → Option (List α × List α)} {sub : List α × List α} (hne : sub.1 ≠ []) {rest : List (Slot α)}
    (h : m (sub.1 ++ run (tokens rest)) = some sub) : pick m 0 (sub.1.map .inl ++ rest) = .inr sub :: pick m 0 rest := by
  obtain ⟨c, old, hold⟩ := List.exists_cons_of_ne_nil hne
  have hfound : m (c :: run (tokens (old.map .inl ++ rest))) = some sub := by
    rw [run_tokens_append, ← List.cons_append, ← hold]
    exact h
  have hlength : sub.1.length - 1 = old.length := by rw [hold, List.length_cons, Nat.add_sub_cancel]
  rw [hold]
  show pick m 0 (.inl c :: (old.map .inl ++ rest)) = _
  rw [pick, hfound]
  show .inr sub :: pick m (sub.1.length - 1) (old.map .inl ++ rest) = _
  rw [hlength, pick_skip]

omit [DecidableEq α] in
theorem pick_own {m : List α → Option (List α × List α)} {c : α} {rest : List (Slot α)}
    (h : m (c :: run (tokens rest)) = none) :
    pick m 0 (.inl c :: rest) = .inl c :: pick m 0 rest := by
  rw [pick, h]

omit [DecidableEq α] in
/-- Own text in which nothing begins stays. -/
theorem pick_past {m : List α → Option (List α × List α)} {s : List α} {rest : List (Slot α)}
    (h : ∀ i < s.length, m (s.drop i ++ run (tokens rest)) = none) :
    pick m 0 (s.map .inl ++ rest) = s.map .inl ++ pick m 0 rest := by
  induction s with
  | nil => rfl
  | cons c s ih =>
    have hnone : m (c :: run (tokens (s.map .inl ++ rest))) = none := by
      rw [run_tokens_append]
      exact h 0 (Nat.succ_pos _)
    show pick m 0 (.inl c :: (s.map .inl ++ rest)) = .inl c :: (s.map .inl ++ pick m 0 rest)
    rw [pick_own hnone, ih fun i hi => h (i + 1) (Nat.succ_lt_succ hi)]

omit [DecidableEq α] in
theorem run_of_pick (m : List α → Option (List α × List α)) (rec : List (Slot α)) :
    run (tokens (pick m 0 rec)) <+: run (tokens rec) := by
  induction rec with
  | nil => exact List.nil_prefix
  | cons t rec ih =>
    cases t with
    | inr sub => exact List.nil_prefix
    | inl c =>
      rw [pick]
      cases m (c :: run (tokens rec)) with
      | some sub => exact List.nil_prefix
      | none => exact List.cons_prefix_cons.mpr ⟨rfl, ih⟩

/-- What a pass meets: what was put in, a character at which nothing begins, or a literal text. -/
theorem pick_induction {subs : List (List α × List α)} (hne : ∀ sub ∈ subs, sub.1 ≠ [])
    {P : List (Slot α) → Prop} (nil : P [])
    (put : ∀ sub rest, P rest → P (.inr sub :: rest))
    (own : ∀ c rest, find subs (c :: run (tokens rest)) = none → P rest → P (.inl c :: rest))
    (found : ∀ sub rest, sub ∈ subs → find subs (sub.1 ++ run (tokens rest)) = some sub → P rest → P (sub.1.map .inl ++ rest))
    (rec : List (Slot α)) : P rec := by
  induction hn : rec.length using Nat.strong_induction_on generalizing rec with
  | _ n ih =>
    cases rec with
    | nil => exact nil
    | cons t rec =>
      rw [List.length_cons] at hn
      cases t with
      | inr sub => exact put sub rec (ih rec.length (by omega) rec rfl)
      | inl c =>
        cases hfind : find subs (c :: run (tokens rec)) with
        | none => exact own c rec hfind (ih rec.length (by omega) rec rfl)
        | some sub =>
          obtain ⟨hsub, hhead⟩ := find_some hfind
          obtain ⟨rest, hrest⟩ := @exists_rest α sub.1 (.inl c :: rec) hhead
          have hpos := List.length_pos_of_ne_nil (hne sub hsub)
          have hlength := congrArg List.length hrest
          rw [List.length_append, List.length_map, List.length_cons] at hlength
          have hrun : c :: run (tokens rec) = sub.1 ++ run (tokens rest) := by
            rw [← run_tokens_append, ← hrest]
            rfl
          rw [hrest]
          exact found sub rest hsub (hrun ▸ hfind) (ih rest.length (by omega) rest rfl)

/-! ## One length -/

/-- At most one of the literal texts begins a text. -/
structure Exclusive (subs : List (List α × List α)) : Prop where
  ne : ∀ sub ∈ subs, sub.1 ≠ []
  unique : ∀ p ∈ subs, ∀ q ∈ subs, ∀ s, p.1 <+: s → q.1 <+: s → p = q

omit [DecidableEq α] in
theorem Exclusive.subset {subs subs' : List (List α × List α)} (h : Exclusive subs) (hsub : subs' ⊆ subs) : Exclusive subs' :=
  ⟨fun sub hs => h.ne sub (hsub hs), fun p hp q hq => h.unique p (hsub hp) q (hsub hq)⟩

theorem Exclusive.find_eq {subs : List (List α × List α)} (h : Exclusive subs) {sub : List α × List α} (hsub : sub ∈ subs)
    {s : List α} (hhead : sub.1 <+: s) : find subs s = some sub := by
  cases hfind : find subs s with
  | none => exact absurd hhead (find_none hfind sub hsub)
  | some q =>
    obtain ⟨hq, hqhead⟩ := find_some hfind
    rw [h.unique q hq sub hsub s hqhead hhead]

theorem find_eq_none {subs : List (List α × List α)} {s : List α} (h : ∀ sub ∈ subs, ¬ sub.1 <+: s) : find subs s = none := by
  refine List.find?_eq_none.mpr fun sub hsub => ?_
  simpa using h sub hsub

/-- Where nothing begins, none of fewer literal texts does, in a shorter text. -/
theorem find_none_mono {subs subs' : List (List α × List α)} {s s' : List α} (hsub : subs' ⊆ subs) (hs : s' <+: s)
    (h : find subs s = none) : find subs' s' = none :=
  find_eq_none fun sub hmem hhead => find_none h sub (hsub hmem) (hhead.trans hs)

/-- What is found does not depend on the order. -/
theorem Exclusive.find_perm {subs subs' : List (List α × List α)} (h : Exclusive subs) (hperm : subs'.Perm subs) :
    find subs' = find subs := by
  funext s
  cases hfind : find subs s with
  | none => exact find_none_mono hperm.subset (List.prefix_refl s) hfind
  | some sub =>
    obtain ⟨hsub, hhead⟩ := find_some hfind
    exact (h.subset hperm.subset).find_eq (hperm.mem_iff.mpr hsub) hhead

/-- Where one of the literal texts is replaced, no other one begins. -/
def Clear (subs : List (List α × List α)) : Nat → List (Slot α) → Prop
  | _, [] => True
  | n + 1, .inl _ :: rest => Clear subs n rest
  | 0, .inl c :: rest =>
    match find subs (c :: run (tokens rest)) with
    | some sub =>
      (∀ q ∈ subs, ∀ i < sub.1.length, q.1 <+: (c :: run (tokens rest)).drop i → q = sub) ∧ Clear subs (sub.1.length - 1) rest
    | none => Clear subs 0 rest
  | _, .inr _ :: rest => Clear subs 0 rest

theorem clear_own {subs : List (List α × List α)} {c : α} {rest : List (Slot α)}
    (h : find subs (c :: run (tokens rest)) = none) :
    Clear subs 0 (.inl c :: rest) ↔ Clear subs 0 rest := by
  rw [Clear, h]

theorem clear_cons_some {subs : List (List α × List α)} {c : α} {rest : List (Slot α)} {sub : List α × List α}
    (h : find subs (c :: run (tokens rest)) = some sub) : Clear subs 0 (.inl c :: rest) ↔
      (∀ q ∈ subs, ∀ i < sub.1.length, q.1 <+: (c :: run (tokens rest)).drop i → q = sub) ∧
        Clear subs (sub.1.length - 1) rest := by
  rw [Clear, h]

instance decidableClear (subs : List (List α × List α)) : (n : Nat) → (rec : List (Slot α)) → Decidable (Clear subs n rec)
  | _, [] => .isTrue trivial
  | n + 1, .inl _ :: rest => decidableClear subs n rest
  | 0, .inl c :: rest =>
    match h : find subs (c :: run (tokens rest)) with
    | some sub =>
      have := decidableClear subs (sub.1.length - 1) rest
      decidable_of_iff ((∀ q ∈ subs, ∀ i < sub.1.length, q.1 <+: (c :: run (tokens rest)).drop i → q = sub) ∧
        Clear subs (sub.1.length - 1) rest) (clear_cons_some h).symm
    | none =>
      have := decidableClear subs 0 rest
      decidable_of_iff (Clear subs 0 rest) (clear_own h).symm
  | 0, .inr _ :: rest => decidableClear subs 0 rest
  | _ + 1, .inr _ :: rest => decidableClear subs 0 rest

theorem clear_skip (subs : List (List α × List α)) (s : List α) (rest : List (Slot α)) :
    Clear subs s.length (s.map .inl ++ rest) ↔ Clear subs 0 rest := by
  induction s with
  | nil => exact Iff.rfl
  | cons c s ih => exact ih

theorem clear_found {subs : List (List α × List α)} {sub : List α × List α} (hne : sub.1 ≠ []) {rest : List (Slot α)}
    (h : find subs (sub.1 ++ run (tokens rest)) = some sub) :
    Clear subs 0 (sub.1.map .inl ++ rest) ↔
      (∀ q ∈ subs, ∀ i < sub.1.length, q.1 <+: (sub.1 ++ run (tokens rest)).drop i → q = sub) ∧ Clear subs 0 rest := by
  obtain ⟨c, old, hold⟩ := List.exists_cons_of_ne_nil hne
  have hrun : c :: run (tokens (old.map .inl ++ rest)) = sub.1 ++ run (tokens rest) := by
    rw [run_tokens_append, hold, List.cons_append]
  have hlength : sub.1.length - 1 = old.length := by rw [hold, List.length_cons, Nat.add_sub_cancel]
  rw [← clear_skip subs old rest, ← hlength, ← hrun]
  nth_rewrite 1 [hold]
  show Clear subs 0 (.inl c :: (old.map .inl ++ rest)) ↔ _
  rw [clear_cons_some (hrun ▸ h), hrun]

theorem Exclusive.clear_perm {subs subs' : List (List α × List α)} (h : Exclusive subs) (hperm : subs'.Perm subs)
    {rec : List (Slot α)} (hclear : Clear subs 0 rec) : Clear subs' 0 rec := by
  have hfind := h.find_perm hperm
  induction rec using pick_induction h.ne with
  | nil => trivial
  | put sub rest ih => exact ih hclear
  | own c rest hnone ih => exact (clear_own (hfind ▸ hnone)).mpr (ih ((clear_own hnone).mp hclear))
  | found sub rest hsub hfound ih =>
    have ⟨hwithin, hrest⟩ := (clear_found (h.ne sub hsub) hfound).mp hclear
    exact (clear_found (h.ne sub hsub) (hfind ▸ hfound)).mpr ⟨fun q hq => hwithin q (hperm.mem_iff.mp hq), ih hrest⟩

/-- **One text before the others** is all together. -/
theorem pick_pick {p : List α × List α} {subs : List (List α × List α)} (hx : Exclusive (p :: subs)) {rec : List (Slot α)}
    (h : Clear (p :: subs) 0 rec) : pick (find subs) 0 (pick (find [p]) 0 rec) = pick (find (p :: subs)) 0 rec ∧
      Clear subs 0 (pick (find [p]) 0 rec) := by
  have hsingle : [p] ⊆ p :: subs := List.cons_subset.mpr ⟨List.mem_cons_self, List.nil_subset _⟩
  have hothers : subs ⊆ p :: subs := List.subset_cons_self p subs
  induction rec using pick_induction hx.ne with
  | nil => exact ⟨rfl, trivial⟩
  | put sub rest ih => exact ⟨congrArg (Sum.inr sub :: ·) (ih h).1, (ih h).2⟩
  | own c rest hnone ih =>
    have ⟨heq, hrest⟩ := ih ((clear_own hnone).mp h)
    have hp : find [p] (c :: run (tokens rest)) = none := find_none_mono hsingle (List.prefix_refl _) hnone
    have hafter : find subs (c :: run (tokens (pick (find [p]) 0 rest))) = none :=
      find_none_mono hothers (List.cons_prefix_cons.mpr ⟨rfl, run_of_pick _ rest⟩) hnone
    rw [pick_own hp, pick_own hnone, pick_own hafter, clear_own hafter, heq]
    exact ⟨rfl, hrest⟩
  | found sub rest hsub hfound ih =>
    have hne := hx.ne sub hsub
    have ⟨hwithin, hclear⟩ := (clear_found hne hfound).mp h
    have ⟨heq, hrest⟩ := ih hclear
    by_cases hp : sub = p
    · -- the literal text itself gives way
      subst hp
      have hself : find [sub] (sub.1 ++ run (tokens rest)) = some sub :=
        (hx.subset hsingle).find_eq List.mem_cons_self (List.prefix_append _ _)
      rw [pick_found hne hself, pick_found hne hfound]
      exact ⟨congrArg (Sum.inr sub :: ·) heq, hrest⟩
    · -- another one keeps its place, for nothing begins within it
      have hmem : sub ∈ subs := (List.mem_cons.mp hsub).resolve_left hp
      have hpast : ∀ i < sub.1.length, find [p] (sub.1.drop i ++ run (tokens rest)) = none := by
        intro i hi
        refine find_eq_none (List.forall_mem_singleton.mpr fun hhead => hp ?_)
        rw [← List.drop_append_of_le_length (le_of_lt hi)] at hhead
        exact (hwithin p List.mem_cons_self i hi hhead).symm
      have hafter : find subs (sub.1 ++ run (tokens (pick (find [p]) 0 rest))) = some sub :=
        (hx.subset hothers).find_eq hmem (List.prefix_append _ _)
      rw [pick_past hpast, pick_found hne hfound, pick_found hne hafter, clear_found hne hafter, heq]
      refine ⟨rfl, fun q hq i hi hhead => hwithin q (hothers hq) i hi ?_, hrest⟩
      exact hhead.trans (((List.prefix_append_right_inj _).mpr (run_of_pick _ rest)).drop i)

/-- **One after another** is all together, where none begins within what another is replaced at. -/
theorem pickAll_eq {subs : List (List α × List α)} (hx : Exclusive subs) {rec : List (Slot α)} (h : Clear subs 0 rec) :
    pickAll subs rec = pick (find subs) 0 rec := by
  induction subs generalizing rec with
  | nil =>
    show rec = pick (find []) 0 rec
    induction rec with
    | nil => rfl
    | cons t rec ih =>
      cases t with
      | inl c => exact congrArg (Sum.inl c :: ·) (ih h)
      | inr sub => exact congrArg (Sum.inr sub :: ·) (ih h)
  | cons p subs ih =>
    have ⟨heq, hrest⟩ := pick_pick hx h
    show pickAll subs (pick (find [p]) 0 rec) = _
    rw [ih (hx.subset (List.subset_cons_self p subs)) hrest, heq]

/-! ## All lengths -/

def ofLength (n : Nat) (subs : List (List α × List α)) : List (List α × List α) := subs.filter fun sub => sub.1.length = n

/-- Those of a length together, one length after another. -/
def stage (subs : List (List α × List α)) (lengths : List Nat) (rec : List (Slot α)) : List (Slot α) :=
  lengths.foldl (fun rec n => pick (find (ofLength n subs)) 0 rec) rec

/-- The literal texts by their lengths, each for itself. -/
def passes (subs : List (List α × List α)) (lengths : List Nat) : List (List α × List α) :=
  lengths.flatMap fun n => ofLength n subs

/-- Nowhere does one begin within what another of its length is replaced at. -/
def ClearAll (subs : List (List α × List α)) : List Nat → List (Slot α) → Prop
  | [], _ => True
  | n :: lengths, rec => Clear (ofLength n subs) 0 rec ∧ ClearAll subs lengths (pick (find (ofLength n subs)) 0 rec)

instance decidableClearAll (subs : List (List α × List α)) : (lengths : List Nat) → (rec : List (Slot α)) →
    Decidable (ClearAll subs lengths rec)
  | [], _ => .isTrue trivial
  | _ :: lengths, _ => @instDecidableAnd _ _ _ (decidableClearAll subs lengths _)

omit [DecidableEq α] in
/-- Different literal texts of one length exclude each other. -/
theorem exclusive_ofLength {subs : List (List α × List α)} (hne : ∀ sub ∈ subs, sub.1 ≠ [])
    (hnodup : (subs.map Prod.fst).Nodup)
    (n : Nat) : Exclusive (ofLength n subs) := by
  constructor
  · exact fun sub hsub => hne sub (List.mem_filter.mp hsub).1
  · intro p hp q hq s hps hqs
    have ⟨hp, hpn⟩ := List.mem_filter.mp hp
    have ⟨hq, hqn⟩ := List.mem_filter.mp hq
    have hlength : p.1.length = q.1.length := (of_decide_eq_true hpn).trans (of_decide_eq_true hqn).symm
    have hfst : p.1 = q.1 := (List.prefix_of_prefix_length_le hps hqs hlength.le).eq_of_length hlength
    exact List.inj_on_of_nodup_map hnodup hp hq hfst

theorem pickAll_append (subs subs' : List (List α × List α)) (rec : List (Slot α)) :
    pickAll (subs ++ subs') rec = pickAll subs' (pickAll subs rec) := List.foldl_append

/-- **In every order** the literal texts are replaced at the same places. -/
theorem pickAll_passes {subs subs' : List (List α × List α)} (hx : ∀ n, Exclusive (ofLength n subs)) (hperm : subs'.Perm subs)
    {lengths : List Nat} {rec : List (Slot α)} (h : ClearAll subs lengths rec) :
    pickAll (passes subs' lengths) rec = stage subs lengths rec := by
  induction lengths generalizing rec with
  | nil => rfl
  | cons n lengths ih =>
    have hclass : (ofLength n subs').Perm (ofLength n subs) := hperm.filter _
    show pickAll (ofLength n subs' ++ passes subs' lengths) rec = stage subs lengths (pick (find (ofLength n subs)) 0 rec)
    rw [pickAll_append, pickAll_eq ((hx n).subset hclass.subset) ((hx n).clear_perm hclass h.1), (hx n).find_perm hclass,
      ih h.2]

/-! ## Conversely -/

/-- What has given way stood apart from each other. -/
def Beside (e e' : Nat × (List α × List α)) : Prop := e.1 + e.2.1.length ≤ e'.1 ∨ e'.1 + e'.2.1.length ≤ e.1

omit [DecidableEq α] in
theorem le_of_mem_places {k : Nat} {rec : List (Slot α)} {e : Nat × (List α × List α)} (h : e ∈ places k rec) : k ≤ e.1 := by
  induction rec generalizing k with
  | nil => cases h
  | cons t rec ih =>
    cases t with
    | inl c => exact Nat.le_of_succ_le (ih h)
    | inr sub =>
      rcases List.mem_cons.mp h with rfl | h
      · exact le_refl _
      · exact (Nat.le_add_right _ _).trans (ih h)

omit [DecidableEq α] in
theorem beside_of_mem {k : Nat} {rec : List (Slot α)} {e e' : Nat × (List α × List α)} (h : e ∈ places k rec)
    (h' : e' ∈ places k rec) : e = e' ∨ Beside e e' := by
  induction rec generalizing k with
  | nil => cases h
  | cons t rec ih =>
    cases t with
    | inl c => exact ih h h'
    | inr sub =>
      rcases List.mem_cons.mp h with rfl | h <;> rcases List.mem_cons.mp h' with rfl | h'
      · exact .inl rfl
      · exact .inr (.inl (le_of_mem_places h'))
      · exact .inr (.inr (le_of_mem_places h))
      · exact ih h h'

/-- What has given way stays so. -/
theorem places_pick {subs : List (List α × List α)} (hne : ∀ sub ∈ subs, sub.1 ≠ []) (k : Nat) (rec : List (Slot α)) :
    places k rec ⊆ places k (pick (find subs) 0 rec) := by
  induction rec using pick_induction hne generalizing k with
  | nil => exact List.Subset.refl _
  | put sub rest ih => exact List.cons_subset_cons _ (ih _)
  | own c rest hnone ih =>
    rw [pick_own hnone]
    exact ih (k + 1)
  | found sub rest hsub hfound ih =>
    rw [pick_found (hne sub hsub) hfound, places_append_own]
    exact List.subset_cons_of_subset _ (ih _)

theorem places_pickAll {subs : List (List α × List α)} (hne : ∀ sub ∈ subs, sub.1 ≠ []) (k : Nat) (rec : List (Slot α)) :
    places k rec ⊆ places k (pickAll subs rec) := by
  induction subs generalizing rec with
  | nil => exact List.Subset.refl _
  | cons sub subs ih =>
    have ⟨hsub, hsubs⟩ := List.forall_mem_cons.mp hne
    exact List.Subset.trans (places_pick (List.forall_mem_singleton.mpr hsub) k rec) (ih hsubs _)

theorem places_stage {subs : List (List α × List α)} (hne : ∀ sub ∈ subs, sub.1 ≠ []) (lengths : List Nat) (k : Nat)
    (rec : List (Slot α)) : places k rec ⊆ places k (stage subs lengths rec) := by
  induction lengths generalizing rec with
  | nil => exact List.Subset.refl _
  | cons n lengths ih =>
    have hclass : ∀ sub ∈ ofLength n subs, sub.1 ≠ [] := fun sub hsub => hne sub (List.mem_filter.mp hsub).1
    exact List.Subset.trans (places_pick hclass k rec) (ih _)

/-- A literal text that begins within a part is replaced at a place within it. -/
theorem exists_place {q : List α × List α} {s : List α} {rest : List (Slot α)} (k : Nat)
    (h : ∃ i < s.length, q.1 <+: (s ++ run (tokens rest)).drop i) :
    ∃ j < s.length, (k + j, q) ∈ places k (pick (find [q]) 0 (s.map .inl ++ rest)) := by
  induction s generalizing k with
  | nil =>
    obtain ⟨i, hi, -⟩ := h
    cases hi
  | cons c s ih =>
    have hrun : c :: run (tokens (s.map .inl ++ rest)) = c :: s ++ run (tokens rest) := by
      rw [run_tokens_append, List.cons_append]
    by_cases hhead : q.1 <+: c :: s ++ run (tokens rest)
    · refine ⟨0, Nat.succ_pos _, ?_⟩
      show (k, q) ∈ places k (pick (find [q]) 0 (.inl c :: (s.map .inl ++ rest)))
      rw [pick, hrun, find_single, if_pos hhead]
      exact List.mem_cons_self
    · obtain ⟨i, hi, hprefix⟩ := h
      cases i with
      | zero => exact absurd hprefix hhead
      | succ i =>
        obtain ⟨j, hj, hmem⟩ := ih (k + 1) ⟨i, Nat.lt_of_succ_lt_succ hi, hprefix⟩
        refine ⟨j + 1, Nat.succ_lt_succ hj, ?_⟩
        show (k + (j + 1), q) ∈ places k (pick (find [q]) 0 (.inl c :: (s.map .inl ++ rest)))
        rw [pick, hrun, find_single, if_neg hhead, show k + (j + 1) = k + 1 + j by omega]
        exact hmem

/-- If each for itself is replaced apart from where all together are, none begins within another. -/
theorem clear_of_places {subs : List (List α × List α)} (hx : Exclusive subs) {k : Nat} {rec : List (Slot α)}
    (h : ∀ q ∈ subs, ∀ e ∈ places k (pick (find [q]) 0 rec), ∀ e' ∈ places k (pick (find subs) 0 rec), e = e' ∨ Beside e e') :
    Clear subs 0 rec := by
  induction rec using pick_induction hx.ne generalizing k with
  | nil => trivial
  | put sub rest ih =>
    exact ih fun q hq e he e' he' => h q hq e (List.mem_cons_of_mem _ he) e' (List.mem_cons_of_mem _ he')
  | own c rest hnone ih =>
    refine (clear_own hnone).mpr (ih (k := k + 1) fun q hq e he e' he' => h q hq e ?_ e' ?_)
    · have hq : find [q] (c :: run (tokens rest)) = none :=
        find_none_mono (List.cons_subset.mpr ⟨hq, List.nil_subset _⟩) (List.prefix_refl _) hnone
      rw [pick_own hq]
      exact he
    · rw [pick_own hnone]
      exact he'
  | found sub rest hsub hfound ih =>
    have hne := hx.ne sub hsub
    have hself : (k, sub) ∈ places k (pick (find subs) 0 (sub.1.map .inl ++ rest)) := by
      rw [pick_found hne hfound]
      exact List.mem_cons_self
    have hwithin : ∀ q ∈ subs, ∀ i < sub.1.length, q.1 <+: (sub.1 ++ run (tokens rest)).drop i → q = sub := by
      intro q hq i hi hprefix
      by_contra hother
      obtain ⟨j, hj, hmem⟩ := exists_place k ⟨i, hi, hprefix⟩
      have hpos := List.length_pos_of_ne_nil (hx.ne q hq)
      rcases h q hq _ hmem _ hself with heq | hbefore | hbehind
      · exact hother (congrArg Prod.snd heq)
      · have hbefore : k + j + q.1.length ≤ k := hbefore
        omega
      · have hbehind : k + sub.1.length ≤ k + j := hbehind
        omega
    refine (clear_found hne hfound).mpr ⟨hwithin, ih (k := k + sub.1.length) fun q hq e he e' he' => h q hq e ?_ e' ?_⟩
    · by_cases hqs : q = sub
      · subst hqs
        have hone : find [q] (q.1 ++ run (tokens rest)) = some q := by
          rw [find_single, if_pos (List.prefix_append _ _)]
        rw [pick_found hne hone]
        exact List.mem_cons_of_mem _ he
      · have hpast : ∀ i < sub.1.length, find [q] (sub.1.drop i ++ run (tokens rest)) = none := by
          intro i hi
          refine find_eq_none (List.forall_mem_singleton.mpr fun hhead => hqs ?_)
          rw [← List.drop_append_of_le_length (le_of_lt hi)] at hhead
          exact hwithin q hq i hi hhead
        rw [pick_past hpast, places_append_own]
        exact he
    · rw [pick_found hne hfound]
      exact List.mem_cons_of_mem _ he'

/-- **If in every order** the literal texts are replaced where those of a length are together, none ever begins within another. -/
theorem clearAll_of_places {subs : List (List α × List α)} (hne : ∀ sub ∈ subs, sub.1 ≠ [])
    (hx : ∀ n, Exclusive (ofLength n subs))
    {lengths : List Nat} {k : Nat} {rec : List (Slot α)}
    (h : ∀ subs', subs'.Perm subs → places k (pickAll (passes subs' lengths) rec) ⊆ places k (stage subs lengths rec)) :
    ClearAll subs lengths rec := by
  induction lengths generalizing rec with
  | nil => trivial
  | cons n lengths ih =>
    have hpasses : ∀ {subs' : List (List α × List α)}, subs'.Perm subs →
        ∀ sub ∈ passes subs' (n :: lengths), sub.1 ≠ [] := by
      intro subs' hperm sub hsub
      obtain ⟨m, -, hmem⟩ := List.mem_flatMap.mp hsub
      exact hne sub (hperm.mem_iff.mp (List.mem_filter.mp hmem).1)
    have hclear : Clear (ofLength n subs) 0 rec := by
      refine clear_of_places (hx n) (k := k) fun q hq e he e' he' => ?_
      have ⟨hq, hlength⟩ := List.mem_filter.mp hq
      -- list `q` first
      have hperm : (q :: subs.erase q).Perm subs := (List.perm_cons_erase hq).symm
      have hfirst : passes (q :: subs.erase q) (n :: lengths) =
          q :: (ofLength n (subs.erase q) ++ passes (q :: subs.erase q) lengths) := by
        show (List.filter _ (q :: subs.erase q)) ++ _ = _
        rw [List.filter_cons, if_pos hlength]
        rfl
      refine beside_of_mem (h _ hperm ?_) (places_stage hne lengths k _ he')
      have hrest : ∀ sub ∈ ofLength n (subs.erase q) ++ passes (q :: subs.erase q) lengths, sub.1 ≠ [] := fun sub hsub =>
        hpasses hperm sub (hfirst ▸ List.mem_cons_of_mem q hsub)
      rw [hfirst]
      exact places_pickAll hrest k _ he
    refine ⟨hclear, ih fun subs' hperm => ?_⟩
    have hclass : (ofLength n subs').Perm (ofLength n subs) := hperm.filter _
    have htogether : pickAll (ofLength n subs') rec = pick (find (ofLength n subs)) 0 rec := by
      rw [pickAll_eq ((hx n).subset hclass.subset) ((hx n).clear_perm hclass hclear), (hx n).find_perm hclass]
    have hall := h subs' hperm
    rw [show passes subs' (n :: lengths) = ofLength n subs' ++ passes subs' lengths from rfl,
      pickAll_append, htogether] at hall
    exact hall

/-! ## What is replaced -/

/-- The text before anything was replaced. -/
def original (rec : List (Slot α)) : List α := rec.flatMap (Sum.elim (fun c => [c]) Prod.fst)

/-- One stands at a place before another: it is longer, or as long and further to the left. -/
def Outranks (e e' : Nat × (List α × List α)) : Prop :=
  e'.2.1.length < e.2.1.length ∨ e.2.1.length = e'.2.1.length ∧ e.1 < e'.1

omit [DecidableEq α] in
theorem original_own (s : List α) : original (s.map .inl) = s := by
  induction s with
  | nil => rfl
  | cons c s ih => exact congrArg (c :: ·) ih

omit [DecidableEq α] in
theorem original_append_own (s : List α) (rest : List (Slot α)) : original (s.map .inl ++ rest) = s ++ original rest := by
  rw [original, List.flatMap_append]
  exact congrArg (· ++ original rest) (original_own s)

theorem original_pick {subs : List (List α × List α)} (hne : ∀ sub ∈ subs, sub.1 ≠ []) (rec : List (Slot α)) :
    original (pick (find subs) 0 rec) = original rec := by
  induction rec using pick_induction hne with
  | nil => rfl
  | put sub rest ih => exact congrArg (sub.1 ++ ·) ih
  | own c rest hnone ih =>
    rw [pick_own hnone]
    exact congrArg (c :: ·) ih
  | found sub rest hsub hfound ih =>
    rw [pick_found (hne sub hsub) hfound, original_append_own]
    exact congrArg (sub.1 ++ ·) ih

omit [DecidableEq α] in
/-- What has given way stood where the record says. -/
theorem occurs_of_mem {k : Nat} {rec : List (Slot α)} {e : Nat × (List α × List α)} (h : e ∈ places k rec) :
    e.2.1 <+: (original rec).drop (e.1 - k) := by
  induction rec generalizing k with
  | nil => cases h
  | cons t rec ih =>
    cases t with
    | inl c =>
      have hle := le_of_mem_places (k := k + 1) h
      have hrest := ih (k := k + 1) h
      show e.2.1 <+: (c :: original rec).drop (e.1 - k)
      rw [show e.1 - k = e.1 - (k + 1) + 1 by omega]
      exact hrest
    | inr sub =>
      show e.2.1 <+: (sub.1 ++ original rec).drop (e.1 - k)
      rcases List.mem_cons.mp h with rfl | h
      · rw [Nat.sub_self]
        exact List.prefix_append _ _
      · have hle := le_of_mem_places h
        have hrest := ih h
        rw [show e.1 - k = sub.1.length + (e.1 - (k + sub.1.length)) by omega, ← List.drop_drop, List.drop_left]
        exact hrest

omit [DecidableEq α] in
/-- What stands at the beginning, before everything that has given way, stands in the text's own characters. -/
theorem prefix_run {s : List α} {k : Nat} {rec : List (Slot α)} (h : s <+: original rec)
    (hplaces : ∀ e ∈ places k rec, k + s.length ≤ e.1) : s <+: run (tokens rec) := by
  induction s generalizing k rec with
  | nil => exact List.nil_prefix
  | cons c s ih =>
    cases rec with
    | nil => cases List.prefix_nil.mp h
    | cons t rec =>
      cases t with
      | inr sub =>
        have hle : k + (c :: s).length ≤ k := hplaces (k, sub) List.mem_cons_self
        rw [List.length_cons] at hle
        omega
      | inl d =>
        obtain ⟨rfl, hs⟩ := List.cons_prefix_cons.mp h
        refine List.cons_prefix_cons.mpr ⟨rfl, ih (k := k + 1) hs fun e he => ?_⟩
        have hle := hplaces e he
        rw [List.length_cons] at hle
        omega

omit [DecidableEq α] in
theorem mem_of_mem_places {k : Nat} {rec : List (Slot α)} {e : Nat × (List α × List α)}
    (h : e ∈ places k rec) : .inr e.2 ∈ rec := by
  induction rec generalizing k with
  | nil => cases h
  | cons t rec ih =>
    cases t with
    | inl c => exact List.mem_cons_of_mem _ (ih h)
    | inr sub =>
      rcases List.mem_cons.mp h with rfl | h
      · exact List.mem_cons_self
      · exact List.mem_cons_of_mem _ (ih h)

omit [DecidableEq α] in
theorem prefix_run_of_free {p : List α × List α} {k : Nat} {rec : List (Slot α)}
    (hfilled : Filled rec) (h : p.1 <+: original rec)
    (hfree : ∀ e ∈ places k rec, Beside e (k, p)) : p.1 <+: run (tokens rec) := by
  refine prefix_run (k := k) h fun e he => ?_
  have hle := le_of_mem_places he
  have hlength := List.length_pos_of_ne_nil (hfilled e.2 (mem_of_mem_places he))
  rcases hfree e he with hbefore | hafter
  · have hbefore : e.1 + e.2.1.length ≤ k := hbefore
    omega
  · exact hafter

/-- **One pass** replaces what stands apart from what has given way, or something before it. -/
theorem mem_pick {subs : List (List α × List α)} (hx : Exclusive subs) {p : List α × List α} (hp : p ∈ subs) {k i : Nat}
    {rec : List (Slot α)} (hfilled : Filled rec) (hi : k ≤ i) (hoccurs : p.1 <+: (original rec).drop (i - k))
    (hfree : ∀ e ∈ places k rec, Beside e (i, p)) :
    (i, p) ∈ places k (pick (find subs) 0 rec) ∨
      ∃ e ∈ places k (pick (find subs) 0 rec), e.2 ∈ subs ∧ e.1 < i ∧ ¬ Beside e (i, p) := by
  have hpos := List.length_pos_of_ne_nil (hx.ne p hp)
  induction rec using pick_induction hx.ne generalizing k with
  | nil =>
    rw [show original ([] : List (Slot α)) = [] from rfl, List.drop_nil] at hoccurs
    exact absurd (List.prefix_nil.mp hoccurs) (hx.ne p hp)
  | put sub rest ih =>
    have hlength := List.length_pos_of_ne_nil (hfilled sub List.mem_cons_self)
    have hafter : k + sub.1.length ≤ i := by
      rcases hfree (k, sub) List.mem_cons_self with hbefore | hafter
      · exact hbefore
      · have hafter : i + p.1.length ≤ k := hafter
        omega
    have hrest : p.1 <+: (original rest).drop (i - (k + sub.1.length)) := by
      have hoccurs : p.1 <+: (sub.1 ++ original rest).drop (i - k) := hoccurs
      rwa [show i - k = sub.1.length + (i - (k + sub.1.length)) by omega, ← List.drop_drop, List.drop_left] at hoccurs
    rcases ih (fun sub hsub => hfilled sub (List.mem_cons_of_mem _ hsub)) hafter hrest
      fun e he => hfree e (List.mem_cons_of_mem _ he) with hmem | ⟨e, he, hbefore⟩
    · exact .inl (List.mem_cons_of_mem _ hmem)
    · exact .inr ⟨e, List.mem_cons_of_mem _ he, hbefore⟩
  | own c rest hnone ih =>
    have hrest : Filled rest := fun sub hsub => hfilled sub (List.mem_cons_of_mem _ hsub)
    rw [pick_own hnone]
    rcases Nat.eq_or_lt_of_le hi with rfl | hlt
    · rw [Nat.sub_self] at hoccurs
      exact absurd (prefix_run_of_free hfilled hoccurs hfree) (find_none hnone p hp)
    · have hoccurs : p.1 <+: (c :: original rest).drop (i - k) := hoccurs
      rw [show i - k = i - (k + 1) + 1 by omega] at hoccurs
      exact ih (k := k + 1) hrest hlt hoccurs hfree
  | found sub rest hsub hfound ih =>
    have hrest : Filled rest := fun other hother => hfilled other (List.mem_append_right _ hother)
    rw [pick_found (hx.ne sub hsub) hfound]
    rcases Nat.eq_or_lt_of_le hi with rfl | hlt
    · rw [Nat.sub_self] at hoccurs
      have hhead := prefix_run_of_free hfilled hoccurs hfree
      rw [run_tokens_append] at hhead
      obtain rfl := hx.unique p hp sub hsub _ hhead (List.prefix_append _ _)
      exact .inl List.mem_cons_self
    · by_cases hwithin : i < k + sub.1.length
      · refine .inr ⟨(k, sub), List.mem_cons_self, hsub, hlt, ?_⟩
        rintro (hbefore | hafter)
        · have hbefore : k + sub.1.length ≤ i := hbefore
          omega
        · have hafter : i + p.1.length ≤ k := hafter
          omega
      · rw [original_append_own, show i - k = sub.1.length + (i - (k + sub.1.length)) by omega, ← List.drop_drop,
          List.drop_left] at hoccurs
        rw [places_append_own] at hfree
        rcases ih hrest (Nat.le_of_not_lt hwithin) hoccurs hfree with hmem | ⟨e, he, hbefore⟩
        · exact .inl (List.mem_cons_of_mem _ hmem)
        · exact .inr ⟨e, List.mem_cons_of_mem _ he, hbefore⟩

theorem mem_places_pick {subs : List (List α × List α)} (hne : ∀ sub ∈ subs, sub.1 ≠ []) {k : Nat} {rec : List (Slot α)}
    {e : Nat × (List α × List α)} (h : e ∈ places k (pick (find subs) 0 rec)) : e ∈ places k rec ∨ e.2 ∈ subs := by
  induction rec using pick_induction hne generalizing k with
  | nil => cases h
  | put sub rest ih =>
    rcases List.mem_cons.mp h with rfl | h
    · exact .inl List.mem_cons_self
    · exact (ih h).imp_left (List.mem_cons_of_mem _)
  | own c rest hnone ih =>
    rw [pick_own hnone] at h
    exact ih (k := k + 1) h
  | found sub rest hsub hfound ih =>
    rw [pick_found (hne sub hsub) hfound] at h
    rw [places_append_own]
    rcases List.mem_cons.mp h with rfl | h
    · exact .inr hsub
    · exact ih h

theorem mem_subs_of_stage {subs : List (List α × List α)} (hne : ∀ sub ∈ subs, sub.1 ≠ []) {lengths : List Nat} {k : Nat}
    {rec : List (Slot α)} {e : Nat × (List α × List α)} (h : e ∈ places k (stage subs lengths rec)) :
    e ∈ places k rec ∨ e.2 ∈ subs := by
  induction lengths generalizing rec with
  | nil => exact .inl h
  | cons n lengths ih =>
    rcases ih h with hpicked | hsub
    · have hclass : ∀ sub ∈ ofLength n subs, sub.1 ≠ [] := fun sub hsub => hne sub (List.mem_filter.mp hsub).1
      exact (mem_places_pick hclass hpicked).imp_right fun hmem => (List.mem_filter.mp hmem).1
    · exact .inr hsub

theorem original_stage {subs : List (List α × List α)} (hne : ∀ sub ∈ subs, sub.1 ≠ []) (lengths : List Nat)
    (rec : List (Slot α)) : original (stage subs lengths rec) = original rec := by
  induction lengths generalizing rec with
  | nil => rfl
  | cons n lengths ih =>
    have hclass : ∀ sub ∈ ofLength n subs, sub.1 ≠ [] := fun sub hsub => hne sub (List.mem_filter.mp hsub).1
    exact (ih _).trans (original_pick hclass rec)

/-- **All lengths, the greatest first:** a literal text is replaced where nothing that outranks it is replaced across it. -/
theorem mem_stage {subs : List (List α × List α)} (hne : ∀ sub ∈ subs, sub.1 ≠ []) (hx : ∀ n, Exclusive (ofLength n subs))
    {lengths : List Nat} (hdescend : lengths.Pairwise (· > ·)) {k i : Nat} {p : List α × List α} (hp : p ∈ subs)
    (hlength : p.1.length ∈ lengths) {rec : List (Slot α)} (hfilled : Filled rec) (hi : k ≤ i)
    (hlonger : ∀ e ∈ places k rec, p.1.length < e.2.1.length) (hoccurs : p.1 <+: (original rec).drop (i - k))
    (h : ∀ e ∈ places k (stage subs lengths rec), Outranks e (i, p) → Beside e (i, p)) :
    (i, p) ∈ places k (stage subs lengths rec) := by
  induction lengths generalizing rec with
  | nil => cases hlength
  | cons n lengths ih =>
    obtain ⟨hless, hdescend⟩ := List.pairwise_cons.mp hdescend
    have hclass := (hx n).ne
    have hmono : places k (pick (find (ofLength n subs)) 0 rec) ⊆ places k (stage subs (n :: lengths) rec) :=
      places_stage hne lengths k _
    by_cases hn : p.1.length = n
    · have hmem : p ∈ ofLength n subs := List.mem_filter.mpr ⟨hp, decide_eq_true hn⟩
      have hfree : ∀ e ∈ places k rec, Beside e (i, p) := fun e he =>
        h e (places_stage hne (n :: lengths) k rec he) (.inl (hlonger e he))
      rcases mem_pick (hx n) hmem hfilled hi hoccurs hfree with hpicked | ⟨e, he, hother, hbefore, hacross⟩
      · exact hmono hpicked
      · have hsame : e.2.1.length = p.1.length := (of_decide_eq_true (List.mem_filter.mp hother).2).trans hn.symm
        exact absurd (h e (hmono he) (.inr ⟨hsame, hbefore⟩)) hacross
    · have hlength := (List.mem_cons.mp hlength).resolve_left hn
      have hfilled : Filled (pick (find (ofLength n subs)) 0 rec) :=
        filled_pick (fun s sub hfound => hclass sub (find_some hfound).1) hfilled
      refine ih hdescend hlength hfilled (fun e he => ?_) ?_ h
      · rcases mem_places_pick hclass he with hold | hnew
        · exact hlonger e hold
        · rw [of_decide_eq_true (List.mem_filter.mp hnew).2]
          exact hless _ hlength
      · rw [original_pick hclass]
        exact hoccurs

end Rewrite
