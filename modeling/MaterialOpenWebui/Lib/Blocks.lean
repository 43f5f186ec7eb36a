import Mathlib.Data.List.Range

/-!
# `Lib.Blocks` — a stream of numbered blocks

A stream starts blocks, adds to them and stops them. `Reaches` says which blocks a list of marks leaves, each with its kind
and whether it is open: a block is started under the next number, and only an open one is added to or stopped. What this
comes to for each number is `WellFormed`: once every block is stopped, the marks of a number are one start, deltas of the
kind it was started with, and one stop.
-/

namespace Blocks

variable {κ : Type}

/-! ## Marks -/

/-- What is done to a block. -/
inductive Mark (κ : Type) where
  | start (i : Nat) (kind : κ)
  | delta (i : Nat) (kind : κ)
  | stop (i : Nat)

def Mark.index : Mark κ → Nat
  | .start i _ => i
  | .delta i _ => i
  | .stop i => i

def Mark.started : Mark κ → Option Nat
  | .start i _ => some i
  | _ => none

structure Block (κ : Type) where
  kind : κ
  isOpen : Bool

/-- The marks leave these blocks. -/
inductive Reaches : List (Mark κ) → List (Block κ) → Prop
  | nil : Reaches [] []
  | start {marks blocks} (kind : κ) : Reaches marks blocks →
      Reaches (marks ++ [.start blocks.length kind]) (blocks ++ [⟨kind, true⟩])
  | delta {marks blocks} {i : Nat} {kind : κ} : Reaches marks blocks → blocks[i]? = some ⟨kind, true⟩ →
      Reaches (marks ++ [.delta i kind]) blocks
  | stop {marks blocks} {i : Nat} {kind : κ} : Reaches marks blocks → blocks[i]? = some ⟨kind, true⟩ →
      Reaches (marks ++ [.stop i]) (blocks.set i ⟨kind, false⟩)

/-! ## Numbers -/

/-- The marks of a number: a start, deltas of the same kind, and a stop. -/
def Lifecycle (i : Nat) (marks : List (Mark κ)) : Prop :=
  ∃ kind n, marks = .start i kind :: List.replicate n (.delta i kind) ++ [.stop i]

/-- There are `n` blocks, started in order. -/
structure WellFormed (n : Nat) (marks : List (Mark κ)) : Prop where
  started : marks.filterMap Mark.started = List.range n
  lifecycle : ∀ i < n, Lifecycle i (marks.filter fun m => m.index = i)
  index_lt : ∀ m ∈ marks, m.index < n

theorem getElem?_lt {blocks : List (Block κ)} {i : Nat} {b : Block κ} (h : blocks[i]? = some b) : i < blocks.length := by
  obtain ⟨hlt, -⟩ := List.getElem?_eq_some_iff.mp h
  exact hlt

theorem Reaches.started {marks : List (Mark κ)} {blocks : List (Block κ)} (h : Reaches marks blocks) :
    marks.filterMap Mark.started = List.range blocks.length := by
  induction h with
  | nil => rfl
  | start kind _ ih =>
    rw [List.filterMap_append, ih, List.length_append, List.length_singleton, List.range_succ]
    rfl
  | delta _ _ ih =>
    rw [List.filterMap_append, ih]
    exact List.append_nil _
  | stop _ _ ih =>
    rw [List.filterMap_append, ih, List.length_set]
    exact List.append_nil _

theorem Reaches.index_lt {marks : List (Mark κ)} {blocks : List (Block κ)} (h : Reaches marks blocks) :
    ∀ m ∈ marks, m.index < blocks.length := by
  induction h with
  | nil => exact List.forall_mem_nil _
  | start kind _ ih =>
    intro m hm
    rw [List.length_append, List.length_singleton]
    rcases List.mem_append.mp hm with hm | hm
    · exact Nat.lt_succ_of_lt (ih m hm)
    · rw [List.mem_singleton.mp hm]
      exact Nat.lt_succ_self _
  | delta _ hopen ih =>
    intro m hm
    rcases List.mem_append.mp hm with hm | hm
    · exact ih m hm
    · rw [List.mem_singleton.mp hm]
      exact getElem?_lt hopen
  | stop _ hopen ih =>
    intro m hm
    rw [List.length_set]
    rcases List.mem_append.mp hm with hm | hm
    · exact ih m hm
    · rw [List.mem_singleton.mp hm]
      exact getElem?_lt hopen

/-- The marks of a number that is not given yet. -/
theorem Reaches.filter_eq_nil {marks : List (Mark κ)} {blocks : List (Block κ)} (h : Reaches marks blocks) {i : Nat}
    (hi : blocks.length ≤ i) : marks.filter (fun m => m.index = i) = [] := by
  rw [List.filter_eq_nil_iff]
  intro m hm heq
  have hlt := h.index_lt m hm
  rw [of_decide_eq_true heq] at hlt
  exact absurd hlt (Nat.not_lt.mpr hi)

theorem filter_concat_of_ne {marks : List (Mark κ)} {m : Mark κ} {i : Nat} (h : m.index ≠ i) :
    (marks ++ [m]).filter (fun m => m.index = i) = marks.filter fun m => m.index = i := by
  rw [List.filter_append, List.filter_singleton, decide_eq_false h]
  exact List.append_nil _

theorem filter_concat_self {marks : List (Mark κ)} {m : Mark κ} {i : Nat} (h : m.index = i) :
    (marks ++ [m]).filter (fun m => m.index = i) = (marks.filter fun m => m.index = i) ++ [m] := by
  rw [List.filter_append, List.filter_singleton, decide_eq_true h]
  rfl

/-- The marks of a block so far. -/
theorem Reaches.lifecycle {marks : List (Mark κ)} {blocks : List (Block κ)} (h : Reaches marks blocks) :
    ∀ i b, blocks[i]? = some b → ∃ n, marks.filter (fun m => m.index = i) =
      .start i b.kind :: List.replicate n (.delta i b.kind) ++ if b.isOpen then [] else [.stop i] := by
  induction h with
  | nil =>
    intro i b hb
    cases hb
  | @start marks blocks kind hreaches ih =>
    intro i b hb
    by_cases hi : i < blocks.length
    · rw [List.getElem?_append_left hi] at hb
      rw [filter_concat_of_ne (Nat.ne_of_gt hi)]
      exact ih i b hb
    · have hlt := getElem?_lt hb
      rw [List.length_append, List.length_singleton] at hlt
      have heq : i = blocks.length := by omega
      subst heq
      rw [List.getElem?_concat_length, Option.some.injEq] at hb
      subst hb
      refine ⟨0, ?_⟩
      rw [filter_concat_self (i := blocks.length) rfl, hreaches.filter_eq_nil (Nat.le_refl _)]
      rfl
  | @delta marks blocks j kind _ hopen ih =>
    intro i b hb
    obtain ⟨n, hn⟩ := ih i b hb
    by_cases hi : j = i
    · subst hi
      rw [hopen, Option.some.injEq] at hb
      subst hb
      refine ⟨n + 1, ?_⟩
      rw [filter_concat_self (i := j) rfl, hn, List.replicate_succ']
      simp
    · have hne : (Mark.delta j kind).index ≠ i := hi
      exact ⟨n, by rw [filter_concat_of_ne hne, hn]⟩
  | @stop marks blocks j kind _ hopen ih =>
    intro i b hb
    by_cases hi : j = i
    · subst hi
      rw [List.getElem?_set_self (getElem?_lt hopen), Option.some.injEq] at hb
      subst hb
      obtain ⟨n, hn⟩ := ih j _ hopen
      refine ⟨n, ?_⟩
      rw [filter_concat_self (i := j) rfl, hn]
      simp
    · rw [List.getElem?_set_ne hi] at hb
      obtain ⟨n, hn⟩ := ih i b hb
      have hne : (Mark.stop j : Mark κ).index ≠ i := hi
      exact ⟨n, by rw [filter_concat_of_ne hne, hn]⟩

/-- **When no block is left open, every number has its lifecycle.** -/
theorem Reaches.wellFormed {marks : List (Mark κ)} {blocks : List (Block κ)} (h : Reaches marks blocks)
    (hclosed : ∀ (i : Nat) (b : Block κ), blocks[i]? = some b → b.isOpen = false) : WellFormed blocks.length marks := by
  refine ⟨h.started, ?_, h.index_lt⟩
  intro i hi
  have hb := List.getElem?_eq_getElem hi
  obtain ⟨n, hn⟩ := h.lifecycle i _ hb
  rw [hclosed i _ hb] at hn
  exact ⟨_, n, hn⟩

end Blocks
