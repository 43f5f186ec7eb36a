import Mathlib.Data.List.Infix

/-!
# `Lib.Rewrite` — substitutions in a text, one after another

A text is rewritten from left to right: where a match begins it gives way to another text, and the reading goes on behind the
match. When several such passes are made, a later one reads what an earlier one has put in. Here a text is taken with a record
of which parts are its own and which were put in (`Token`), so that it can be said what the passes would do if they touched
the text's own parts only (`mark`), and when that is what they do (`Local`).
-/

namespace Rewrite

variable {α : Type}

/-! ## Rewriting -/

/-- What begins a text: how much of it matches, less one, and what takes its place. -/
abbrev Matcher (α : Type) := List α → Option (Nat × List α)

/-- The rest of a text, the first `n` of which are behind a match. -/
def rewrite (m : Matcher α) : Nat → List α → List α
  | _, [] => []
  | n + 1, _ :: s => rewrite m n s
  | 0, c :: s =>
    match m (c :: s) with
    | some found => found.2 ++ rewrite m found.1 s
    | none => c :: rewrite m 0 s

def rewriteAll (ms : List (Matcher α)) (s : List α) : List α := ms.foldl (fun s m => rewrite m 0 s) s

/-- A match does not go beyond the text. -/
def Lawful (m : Matcher α) : Prop := ∀ s found, m s = some found → found.1 < s.length

def literal [DecidableEq α] (old new : List α) : Matcher α := fun s => if old <+: s then some (old.length - 1, new) else none

theorem lawful_literal [DecidableEq α] {old : List α} (hold : old ≠ []) (new : List α) : Lawful (literal old new) := by
  intro s found h
  rw [literal] at h
  split at h
  · rename_i hhead
    cases h
    have hle := hhead.length_le
    have hpos := List.length_pos_of_ne_nil hold
    show old.length - 1 < s.length
    omega
  · cases h

theorem rewrite_skip (m : Matcher α) (n : Nat) (s : List α) : rewrite m n s = rewrite m 0 (s.drop n) := by
  induction n generalizing s with
  | zero => rfl
  | succ n ih =>
    cases s with
    | nil => rfl
    | cons c s => exact ih s

/-- A text that is not there is not replaced. -/
theorem rewrite_of_not_infix [DecidableEq α] {old new s : List α} (h : ¬ old <:+: s) : rewrite (literal old new) 0 s = s := by
  induction s with
  | nil => rfl
  | cons c s ih =>
    have hnone : literal old new (c :: s) = none := if_neg fun hhead => h hhead.isInfix
    rw [rewrite, hnone]
    exact congrArg (c :: ·) (ih fun hinfix => h (List.infix_cons hinfix))

/-! ## Texts with a record -/

/-- A character of the text's own, or a text that was put in. -/
inductive Token (α : Type) where
  | own (c : α)
  | put (s : List α)
  deriving DecidableEq

def Token.text : Token α → List α
  | .own c => [c]
  | .put s => s

def text (ts : List (Token α)) : List α := ts.flatMap Token.text

/-- What is the text's own before anything was put in. -/
def run : List (Token α) → List α
  | .own c :: ts => c :: run ts
  | _ => []

/-- How far a match goes, less one. -/
def extent (m : Matcher α) (s : List α) : Nat := (m s).elim 0 Prod.fst

/-- The pass over the text's own parts. -/
def mark (m : Matcher α) : Nat → List (Token α) → List (Token α)
  | _, [] => []
  | n + 1, .own _ :: ts => mark m n ts
  | 0, .own c :: ts =>
    match m (c :: run ts) with
    | some found => .put found.2 :: mark m found.1 ts
    | none => .own c :: mark m 0 ts
  | _, .put s :: ts => .put s :: mark m 0 ts

def markAll (ms : List (Matcher α)) (ts : List (Token α)) : List (Token α) := ms.foldl (fun ts m => mark m 0 ts) ts

/-- The pass finds the same in the text as in its own parts, and nothing that begins in what was put in. -/
def Local (m : Matcher α) : Nat → List (Token α) → Prop
  | _, [] => True
  | n + 1, .own _ :: ts => Local m n ts
  | 0, .own c :: ts => m (c :: text ts) = m (c :: run ts) ∧ Local m (extent m (c :: run ts)) ts
  | _, .put s :: ts => (∀ t ∈ s.tails, t ≠ [] → m (t ++ text ts) = none) ∧ Local m 0 ts

instance decidableLocal [DecidableEq α] (m : Matcher α) : (n : Nat) → (ts : List (Token α)) → Decidable (Local m n ts)
  | _, [] => .isTrue trivial
  | n + 1, .own _ :: ts => decidableLocal m n ts
  | 0, .own c :: ts => @instDecidableAnd _ _ _ (decidableLocal m (extent m (c :: run ts)) ts)
  | 0, .put _ :: ts => @instDecidableAnd _ _ _ (decidableLocal m 0 ts)
  | _ + 1, .put _ :: ts => @instDecidableAnd _ _ _ (decidableLocal m 0 ts)

/-- Every pass is local in what the passes before it leave. -/
def LocalAll : List (Matcher α) → List (Token α) → Prop
  | [], _ => True
  | m :: ms, ts => Local m 0 ts ∧ LocalAll ms (mark m 0 ts)

instance decidableLocalAll [DecidableEq α] : (ms : List (Matcher α)) → (ts : List (Token α)) → Decidable (LocalAll ms ts)
  | [], _ => .isTrue trivial
  | m :: ms, ts => @instDecidableAnd _ _ _ (decidableLocalAll ms (mark m 0 ts))

theorem text_append (ts ts' : List (Token α)) : text (ts ++ ts') = text ts ++ text ts' := List.flatMap_append

theorem text_own (s : List α) : text (s.map .own) = s := by
  induction s with
  | nil => rfl
  | cons c s ih => exact congrArg (c :: ·) ih

theorem run_append_own (s : List α) (ts : List (Token α)) : run (s.map .own ++ ts) = s ++ run ts := by
  induction s with
  | nil => rfl
  | cons c s ih => exact congrArg (c :: ·) ih

/-- Nothing matches in a text that was put in. -/
theorem rewrite_put {m : Matcher α} {s rest : List α} (h : ∀ t ∈ s.tails, t ≠ [] → m (t ++ rest) = none) :
    rewrite m 0 (s ++ rest) = s ++ rewrite m 0 rest := by
  induction s with
  | nil => rfl
  | cons c s ih =>
    have hnone := h (c :: s) ((List.mem_tails _ _).mpr (List.suffix_refl _)) (List.cons_ne_nil c s)
    rw [List.cons_append] at hnone ⊢
    rw [rewrite, hnone]
    refine congrArg (c :: ·) (ih fun t ht => h t ?_)
    exact (List.mem_tails _ _).mpr (((List.mem_tails _ _).mp ht).trans (List.suffix_cons c s))

/-- **One pass**, where it is local. -/
theorem rewrite_text {m : Matcher α} (hlawful : Lawful m) {n : Nat} {ts : List (Token α)} (hn : n ≤ (run ts).length)
    (h : Local m n ts) : rewrite m n (text ts) = text (mark m n ts) := by
  induction ts generalizing n with
  | nil => cases n <;> rfl
  | cons t ts ih =>
    cases t with
    | own c =>
      cases n with
      | succ n => exact ih (Nat.le_of_succ_le_succ hn) h
      | zero =>
        obtain ⟨hsame, hrest⟩ := h
        show rewrite m 0 (c :: text ts) = _
        rw [rewrite, mark, hsame]
        rw [extent] at hrest
        cases hfound : m (c :: run ts) with
        | none =>
          rw [hfound] at hrest
          exact congrArg (c :: ·) (ih (Nat.zero_le _) hrest)
        | some found =>
          rw [hfound] at hrest
          have hlt := hlawful _ _ hfound
          rw [List.length_cons] at hlt
          exact congrArg (found.2 ++ ·) (ih (Nat.le_of_lt_succ hlt) hrest)
    | put s =>
      obtain rfl : n = 0 := Nat.le_zero.mp hn
      show rewrite m 0 (s ++ text ts) = _
      rw [rewrite_put h.1, ih (Nat.zero_le _) h.2]
      rfl

/-- **All passes**, where they are local. -/
theorem rewriteAll_text {ms : List (Matcher α)} (hlawful : ∀ m ∈ ms, Lawful m) {ts : List (Token α)} (h : LocalAll ms ts) :
    rewriteAll ms (text ts) = text (markAll ms ts) := by
  induction ms generalizing ts with
  | nil => rfl
  | cons m ms ih =>
    have ⟨hm, hms⟩ := List.forall_mem_cons.mp hlawful
    show rewriteAll ms (rewrite m 0 (text ts)) = text (markAll ms (mark m 0 ts))
    rw [rewrite_text hm (Nat.zero_le _) h.1, ih hms h.2]

theorem markAll_append (ms ms' : List (Matcher α)) (ts : List (Token α)) :
    markAll (ms ++ ms') ts = markAll ms' (markAll ms ts) := List.foldl_append

theorem rewriteAll_append (ms ms' : List (Matcher α)) (s : List α) :
    rewriteAll (ms ++ ms') s = rewriteAll ms' (rewriteAll ms s) := List.foldl_append

theorem localAll_append {ms ms' : List (Matcher α)} {ts : List (Token α)} :
    LocalAll (ms ++ ms') ts ↔ LocalAll ms ts ∧ LocalAll ms' (markAll ms ts) := by
  induction ms generalizing ts with
  | nil => exact (and_iff_right trivial).symm
  | cons m ms ih =>
    show Local m 0 ts ∧ LocalAll (ms ++ ms') (mark m 0 ts) ↔ (Local m 0 ts ∧ LocalAll ms (mark m 0 ts)) ∧ _
    rw [ih, and_assoc]
    rfl

/-! ## What marking leaves -/

theorem mark_append_own (m : Matcher α) (s : List α) (ts : List (Token α)) :
    mark m s.length (s.map .own ++ ts) = mark m 0 ts := by
  induction s with
  | nil => rfl
  | cons c s ih => exact ih

/-- Own text in which nothing matches stays. -/
theorem mark_past {m : Matcher α} {s : List α} {ts : List (Token α)} (h : ∀ t ∈ s.tails, t ≠ [] → m (t ++ run ts) = none) :
    mark m 0 (s.map .own ++ ts) = s.map .own ++ mark m 0 ts := by
  induction s with
  | nil => rfl
  | cons c s ih =>
    have hnone := h (c :: s) ((List.mem_tails _ _).mpr (List.suffix_refl _)) (List.cons_ne_nil c s)
    rw [List.cons_append, ← run_append_own] at hnone
    rw [List.map_cons, List.cons_append, mark, hnone]
    refine congrArg (Token.own c :: ·) (ih fun t ht => h t ?_)
    exact (List.mem_tails _ _).mpr (((List.mem_tails _ _).mp ht).trans (List.suffix_cons c s))

theorem prefix_of_mark {m : Matcher α} {ts : List (Token α)} {s : List α}
    (h : s.map .own <+: mark m 0 ts) : s.map .own <+: ts := by
  induction ts generalizing s with
  | nil => exact h
  | cons t ts ih =>
    cases s with
    | nil => exact List.nil_prefix
    | cons c s =>
      cases t with
      | own d =>
        rw [mark] at h
        split at h
        · cases (List.cons_prefix_cons.mp h).1
        · have ⟨hc, hs⟩ := List.cons_prefix_cons.mp h
          exact List.cons_prefix_cons.mpr ⟨hc, ih hs⟩
      | put v => cases (List.cons_prefix_cons.mp h).1

/-- What stands together after a pass stood together before it. -/
theorem infix_of_mark {m : Matcher α} {n : Nat} {ts : List (Token α)} {s : List α} (hs : s ≠ [])
    (h : s.map .own <:+: mark m n ts) : s.map .own <:+: ts := by
  have hput : ∀ {v : List α} {rest : List (Token α)}, s.map .own <:+: .put v :: rest → s.map .own <:+: rest := by
    intro v rest h
    obtain ⟨c, s, rfl⟩ := List.exists_cons_of_ne_nil hs
    rcases List.infix_cons_iff.mp h with h | h
    · cases (List.cons_prefix_cons.mp h).1
    · exact h
  induction ts generalizing n with
  | nil => cases n <;> exact h
  | cons t ts ih =>
    cases t with
    | own c =>
      cases n with
      | succ n => exact List.infix_cons (ih h)
      | zero =>
        rw [mark] at h
        split at h
        · exact List.infix_cons (ih (hput h))
        · rcases List.infix_cons_iff.mp h with h | h
          · obtain ⟨d, s, rfl⟩ := List.exists_cons_of_ne_nil hs
            have ⟨hd, hrest⟩ := List.cons_prefix_cons.mp h
            exact (List.cons_prefix_cons.mpr ⟨hd, prefix_of_mark hrest⟩).isInfix
          · exact List.infix_cons (ih h)
    | put v =>
      have h' : s.map .own <:+: .put v :: mark m 0 ts := by
        cases n <;> exact h
      exact List.infix_cons (ih (hput h'))

theorem infix_of_markAll {ms : List (Matcher α)} {ts : List (Token α)} {s : List α} (hs : s ≠ [])
    (h : s.map .own <:+: markAll ms ts) : s.map .own <:+: ts := by
  induction ms generalizing ts with
  | nil => exact h
  | cons m ms ih => exact infix_of_mark hs (ih h)

theorem infix_text {ts : List (Token α)} {s : List α} (h : s.map .own <:+: ts) : s <:+: text ts := by
  obtain ⟨front, back, rfl⟩ := h
  exact ⟨text front, text back, by rw [text_append, text_append, text_own]⟩

theorem run_starts (ts : List (Token α)) : (run ts).map .own <+: ts := by
  induction ts with
  | nil => exact List.nil_prefix
  | cons t ts ih =>
    cases t with
    | own c => exact List.cons_prefix_cons.mpr ⟨rfl, ih⟩
    | put v => exact List.nil_prefix

/-- A pass for what is not there leaves everything. -/
theorem mark_of_not_infix [DecidableEq α] {old new : List α} {ts : List (Token α)} (h : ¬ old.map .own <:+: ts) :
    mark (literal old new) 0 ts = ts := by
  induction ts with
  | nil => rfl
  | cons t ts ih =>
    have hrest : mark (literal old new) 0 ts = ts := ih fun hinfix => h (List.infix_cons hinfix)
    cases t with
    | own c =>
      have hnone : literal old new (c :: run ts) = none := by
        refine if_neg fun hhead => h ?_
        exact ((hhead.map Token.own).trans (run_starts (.own c :: ts))).isInfix
      rw [mark, hnone]
      exact congrArg (Token.own c :: ·) hrest
    | put v => exact congrArg (Token.put v :: ·) hrest

/-- Whether a pass for a literal text is local does not depend on what takes its place. -/
theorem local_literal [DecidableEq α] {old v : List α} (w : List α) {n : Nat} {ts : List (Token α)}
    (h : Local (literal old v) n ts) : Local (literal old w) n ts := by
  have hnone : ∀ {v : List α} (s : List α), literal old v s = none ↔ ¬ old <+: s := by
    intro v s
    rw [literal]
    split <;> simp_all
  have hextent : ∀ s, extent (literal old v) s = extent (literal old w) s := by
    intro s
    simp only [extent, literal]
    split <;> rfl
  induction ts generalizing n with
  | nil => cases n <;> trivial
  | cons t ts ih =>
    cases t with
    | own c =>
      cases n with
      | succ n => exact ih h
      | zero =>
        obtain ⟨hsame, hrest⟩ := h
        have hiff : old <+: c :: text ts ↔ old <+: c :: run ts := by
          rw [← not_iff_not, ← hnone (v := v), ← hnone (v := v), hsame]
        rw [hextent] at hrest
        refine ⟨?_, ih hrest⟩
        simp only [literal, hiff]
    | put s =>
      have hput : ∀ n, Local (literal old v) n (.put s :: ts) → Local (literal old w) n (.put s :: ts) := by
        intro n h
        cases n <;> exact ⟨fun t ht hne => (hnone _).mpr ((hnone _).mp (h.1 t ht hne)), ih h.2⟩
      exact hput n h

theorem markAll_nil (ms : List (Matcher α)) : markAll ms [] = [] := by
  induction ms with
  | nil => rfl
  | cons m ms ih => exact ih

/-! ## All at once -/

section
variable [DecidableEq α]

/-- The first of several literal texts that begins a text. -/
def first (subs : List (List α × List α)) : Matcher α := fun s =>
  (subs.find? fun sub => sub.1 <+: s).map fun sub => (sub.1.length - 1, sub.2)

/-- Every literal text gives way to its own value, in one pass. -/
def fill (subs : List (List α × List α)) (s : List α) : List α := rewrite (first subs) 0 s

/-- Two literal texts do not overlap: no end of the one is a beginning of the other, and none contains the other. -/
def Apart (p q : List α) : Prop := ∀ t ∈ p.tails, t ≠ [] → ¬ q <+: t ∧ ¬ t <+: q

instance (p q : List α) : Decidable (Apart p q) := List.decidableBAll _ _

/-- A text, taken apart: single characters, and literal texts with their values. -/
inductive Parsed (subs : List (List α × List α)) : List (α ⊕ (List α × List α)) → List α → Prop
  | nil : Parsed subs [] []
  | char {c : α} {slots : List (α ⊕ (List α × List α))} {s : List α} (hnone : ∀ sub ∈ subs, ¬ sub.1 <+: c :: s)
      (hrest : Parsed subs slots s) : Parsed subs (.inl c :: slots) (c :: s)
  | slot {sub : List α × List α} {slots : List (α ⊕ (List α × List α))} {s : List α} (hsub : sub ∈ subs)
      (hrest : Parsed subs slots s) : Parsed subs (.inr sub :: slots) (sub.1 ++ s)

/-- What is filled in. -/
def filled : α ⊕ (List α × List α) → List α := Sum.elim (fun c => [c]) Prod.snd

theorem exists_parsed {subs : List (List α × List α)} (hne : ∀ sub ∈ subs, sub.1 ≠ []) (s : List α) :
    ∃ slots, Parsed subs slots s ∧ fill subs s = slots.flatMap filled := by
  induction hn : s.length using Nat.strong_induction_on generalizing s with
  | _ n ih =>
    cases s with
    | nil => exact ⟨[], .nil, rfl⟩
    | cons c s =>
      rw [fill, rewrite, first]
      cases hfind : subs.find? fun sub => sub.1 <+: c :: s with
      | none =>
        obtain ⟨slots, hslots, hfill⟩ := ih s.length (by rw [← hn, List.length_cons]; omega) s rfl
        refine ⟨.inl c :: slots, .char (fun sub hsub => ?_) hslots, ?_⟩
        · simpa using List.find?_eq_none.mp hfind sub hsub
        · exact congrArg (c :: ·) hfill
      | some sub =>
        have hsub := List.mem_of_find?_eq_some hfind
        obtain ⟨rest, hrest⟩ : sub.1 <+: c :: s := by simpa using List.find?_some hfind
        obtain ⟨d, old, hold⟩ := List.exists_cons_of_ne_nil (hne sub hsub)
        have hs : s = old ++ rest := by
          rw [hold, List.cons_append] at hrest
          exact (List.cons.inj hrest).2.symm
        have hlength : sub.1.length - 1 = old.length := by rw [hold, List.length_cons, Nat.add_sub_cancel]
        obtain ⟨slots, hslots, hfill⟩ :=
          ih rest.length (by rw [← hn, hs, List.length_cons, List.length_append]; omega) rest rfl
        refine ⟨.inr sub :: slots, hrest ▸ .slot hsub hslots, ?_⟩
        show sub.2 ++ rewrite (first subs) (sub.1.length - 1) s = _
        rw [hlength, rewrite_skip, hs, List.drop_left]
        exact congrArg (sub.2 ++ ·) hfill

/-- The text with the values of some literal texts put in. -/
def view (done : List (List α × List α)) (slots : List (α ⊕ (List α × List α))) : List (Token α) :=
  slots.flatMap (Sum.elim (fun c => [.own c]) fun sub => if sub ∈ done then [.put sub.2] else sub.1.map .own)

theorem run_view_prefix {subs done : List (List α × List α)} {slots : List (α ⊕ (List α × List α))} {s : List α}
    (h : Parsed subs slots s) : run (view done slots) <+: s := by
  induction h with
  | nil => exact List.nil_prefix
  | char _ _ ih => exact List.cons_prefix_cons.mpr ⟨rfl, ih⟩
  | @slot sub slots s _ _ ih =>
    show run ((if sub ∈ done then [.put sub.2] else sub.1.map .own) ++ view done slots) <+: _
    split
    · exact List.nil_prefix
    · rw [run_append_own]
      exact List.prefix_append_right_inj _ |>.mpr ih

/-- **One pass** over a text that has been taken apart: it puts in one more value. -/
theorem mark_view {subs done : List (List α × List α)} {sub : List α × List α} (hsub : sub ∈ subs) (hne : sub.1 ≠ [])
    (hapart : ∀ p ∈ subs, p ≠ sub → Apart p.1 sub.1) {slots : List (α ⊕ (List α × List α))} {s : List α}
    (h : Parsed subs slots s) : mark (literal sub.1 sub.2) 0 (view done slots) = view (sub :: done) slots := by
  induction h with
  | nil => rfl
  | @char c slots s hnone hrest ih =>
    have hmatch : literal sub.1 sub.2 (c :: run (view done slots)) = none := by
      refine if_neg fun hhead => hnone sub hsub (hhead.trans ?_)
      exact List.cons_prefix_cons.mpr ⟨rfl, run_view_prefix hrest⟩
    show mark _ 0 (.own c :: view done slots) = .own c :: view (sub :: done) slots
    rw [mark, hmatch]
    exact congrArg (Token.own c :: ·) ih
  | @slot p slots s hp hrest ih =>
    show mark _ 0 ((if p ∈ done then [.put p.2] else p.1.map .own) ++ view done slots) =
      (if p ∈ sub :: done then [.put p.2] else p.1.map .own) ++ view (sub :: done) slots
    by_cases hdone : p ∈ done
    · rw [if_pos hdone, if_pos (List.mem_cons_of_mem sub hdone)]
      exact congrArg (Token.put p.2 :: ·) ih
    · rw [if_neg hdone]
      by_cases hps : p = sub
      · -- the literal text itself gives way
        subst hps
        rw [if_pos List.mem_cons_self]
        obtain ⟨c, old, hold⟩ := List.exists_cons_of_ne_nil hne
        have hmatch : literal p.1 p.2 (c :: run (old.map .own ++ view done slots)) = some (old.length, p.2) := by
          rw [literal, if_pos, hold, List.length_cons, Nat.add_sub_cancel]
          rw [run_append_own, hold, ← List.cons_append]
          exact List.prefix_append _ _
        rw [hold, List.map_cons, List.cons_append, ← hold, mark, hmatch]
        show Token.put p.2 :: mark _ old.length (old.map .own ++ view done slots) = _
        rw [mark_append_own, ih]
        rfl
      · have hnot : p ∉ sub :: done := by
          rw [List.mem_cons, not_or]
          exact ⟨hps, hdone⟩
        rw [if_neg hnot, mark_past, ih]
        intro t ht htne
        obtain ⟨hbefore, hafter⟩ := hapart p hp hps t ht htne
        refine if_neg fun hhead => ?_
        exact (List.prefix_or_prefix_of_prefix hhead (List.prefix_append t _)).elim hbefore hafter

theorem markAll_view {subs done rest : List (List α × List α)} (hsubs : rest ⊆ subs) (hne : ∀ sub ∈ subs, sub.1 ≠ [])
    (hapart : ∀ p ∈ subs, ∀ q ∈ subs, p ≠ q → Apart p.1 q.1) {slots : List (α ⊕ (List α × List α))} {s : List α}
    (h : Parsed subs slots s) : markAll (rest.map fun sub => literal sub.1 sub.2) (view done slots) =
      view (rest.reverse ++ done) slots := by
  induction rest generalizing done with
  | nil => rfl
  | cons sub rest ih =>
    have ⟨hsub, hrest⟩ := List.cons_subset.mp hsubs
    show markAll _ (mark (literal sub.1 sub.2) 0 (view done slots)) = _
    rw [mark_view hsub (hne sub hsub) (fun p hp => hapart p hp sub hsub) h, ih hrest, List.reverse_cons, List.append_assoc]
    rfl

theorem view_nil {subs : List (List α × List α)} {slots : List (α ⊕ (List α × List α))} {s : List α}
    (h : Parsed subs slots s) :
    view [] slots = s.map .own := by
  induction h with
  | nil => rfl
  | char _ _ ih => exact congrArg (Token.own _ :: ·) ih
  | slot _ _ ih =>
    rw [List.map_append, ← ih]
    rfl

theorem text_view {subs done : List (List α × List α)} (hdone : subs ⊆ done) {slots : List (α ⊕ (List α × List α))}
    {s : List α} (h : Parsed subs slots s) : text (view done slots) = slots.flatMap filled := by
  induction h with
  | nil => rfl
  | char _ _ ih => exact congrArg (_ :: ·) ih
  | @slot sub slots s hsub _ ih =>
    show text ((if sub ∈ done then [.put sub.2] else sub.1.map .own) ++ view done slots) = sub.2 ++ slots.flatMap filled
    rw [if_pos (hdone hsub), ← ih]
    rfl

/-- **All at once is one after another**, on a text's own parts, for literal texts that do not overlap. -/
theorem fill_eq {subs : List (List α × List α)} (hne : ∀ sub ∈ subs, sub.1 ≠ [])
    (hapart : ∀ p ∈ subs, ∀ q ∈ subs, p ≠ q → Apart p.1 q.1) (s : List α) :
    fill subs s = text (markAll (subs.map fun sub => literal sub.1 sub.2) (s.map .own)) := by
  obtain ⟨slots, hslots, hfill⟩ := exists_parsed hne s
  rw [hfill, ← view_nil hslots, markAll_view (List.Subset.refl _) hne hapart hslots, List.append_nil,
    text_view (fun sub hsub => List.mem_reverse.mpr hsub) hslots]

end

end Rewrite
