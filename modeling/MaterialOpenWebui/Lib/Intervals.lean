import Mathlib.Order.Interval.Set.OrdConnected

/-!
# `Lib.Intervals` — when ascending intervals make one

A list of nonempty half-open intervals, each ending no later than the next begins, covers one interval
exactly when each begins where the one before ends.
-/

namespace Intervals

variable {α : Type} [LinearOrder α]

/-- The points of the intervals `[p.1, p.2)`. -/
def union (l : List (α × α)) : Set α := {x | ∃ p ∈ l, p.1 ≤ x ∧ x < p.2}

/-- Each begins where the one before ends. -/
def Joined (l : List (α × α)) : Prop := l.IsChain (fun p q => p.2 = q.1)

instance decidableJoined (l : List (α × α)) : Decidable (Joined l) :=
  inferInstanceAs (Decidable (l.IsChain _))

/-- Ascending: each ends before the next begins, or there. -/
def Ascending (l : List (α × α)) : Prop := l.Pairwise (fun p q => p.2 ≤ q.1)

/-- From the start of joined intervals on, whatever is below a point covered is covered. -/
theorem mem_of_joined {p : α × α} {l : List (α × α)} (h : Joined (p :: l)) {x y : α} (hx : p.1 ≤ x)
    (hxy : x ≤ y) (hy : y ∈ union (p :: l)) : x ∈ union (p :: l) := by
  induction l generalizing p with
  | nil =>
    obtain ⟨q, hq, -, hlt⟩ := hy
    rw [List.mem_singleton.mp hq] at hlt
    exact ⟨p, List.mem_cons_self, hx, lt_of_le_of_lt hxy hlt⟩
  | cons q l ih =>
    obtain ⟨hpq, hrest⟩ := List.isChain_cons_cons.mp h
    by_cases hlt : x < p.2
    · exact ⟨p, List.mem_cons_self, hx, hlt⟩
    · have hy' : y ∈ union (q :: l) := by
        obtain ⟨r, hr, hle, hlt'⟩ := hy
        rcases List.mem_cons.mp hr with rfl | hr
        · exact absurd (lt_of_le_of_lt hxy hlt') hlt
        · exact ⟨r, hr, hle, hlt'⟩
      obtain ⟨r, hr, hmem⟩ := ih hrest (hpq ▸ not_lt.mp hlt) hy'
      exact ⟨r, List.mem_cons_of_mem p hr, hmem⟩

/-- Points of the later intervals lie at or after the end of the first. -/
theorem le_of_mem_union {p : α × α} {l : List (α × α)} (h : Ascending (p :: l)) {x : α}
    (hx : x ∈ union l) : p.2 ≤ x := by
  obtain ⟨q, hq, hle, -⟩ := hx
  exact le_trans ((List.pairwise_cons.mp h).1 q hq) hle

/-- **Ascending intervals cover one interval exactly when they are joined.** -/
theorem ordConnected_iff {l : List (α × α)} (hne : ∀ p ∈ l, p.1 < p.2) (hasc : Ascending l) :
    (union l).OrdConnected ↔ Joined l := by
  induction l with
  | nil =>
    have hempty : union ([] : List (α × α)) = ∅ := by
      ext x
      simp [union]
    rw [hempty]
    exact ⟨fun _ => .nil, fun _ => Set.ordConnected_empty⟩
  | cons p l ih =>
    have hne' : ∀ q ∈ l, q.1 < q.2 := fun q hq => hne q (List.mem_cons_of_mem p hq)
    constructor
    · intro h
      -- the later intervals are one as well: what lies between their points is not in the first
      have htail : (union l).OrdConnected := by
        refine ⟨fun x hx y hy z hz => ?_⟩
        have hx' : x ∈ union (p :: l) := hx.imp fun q hq => ⟨List.mem_cons_of_mem p hq.1, hq.2⟩
        have hy' : y ∈ union (p :: l) := hy.imp fun q hq => ⟨List.mem_cons_of_mem p hq.1, hq.2⟩
        obtain ⟨q, hq, hle, hlt⟩ := h.out hx' hy' hz
        rcases List.mem_cons.mp hq with rfl | hq
        · exact absurd hlt (not_lt.mpr (le_trans (le_of_mem_union hasc hx) hz.1))
        · exact ⟨q, hq, hle, hlt⟩
      have hjoined := (ih hne' (List.pairwise_cons.mp hasc).2).mp htail
      cases l with
      | nil => exact .singleton p
      | cons q l =>
        refine List.isChain_cons_cons.mpr ⟨?_, hjoined⟩
        have hle : p.2 ≤ q.1 := (List.pairwise_cons.mp hasc).1 q List.mem_cons_self
        refine le_antisymm hle (not_lt.mp fun hgap => ?_)
        -- the end of the first interval would lie in the gap
        have hp : p.1 ∈ union (p :: q :: l) := ⟨p, List.mem_cons_self, le_refl _, hne p List.mem_cons_self⟩
        have hq : q.1 ∈ union (p :: q :: l) :=
          ⟨q, List.mem_cons_of_mem p List.mem_cons_self, le_refl _, hne' q List.mem_cons_self⟩
        obtain ⟨r, hr, hler, hltr⟩ := h.out hp hq ⟨le_of_lt (hne p List.mem_cons_self), hle⟩
        rcases List.mem_cons.mp hr with rfl | hr
        · exact lt_irrefl _ hltr
        · rcases List.mem_cons.mp hr with rfl | hr'
          · exact absurd hgap (not_lt.mpr hler)
          · have hqr := (List.pairwise_cons.mp (List.pairwise_cons.mp hasc).2).1 r hr'
            have hlate : q.1 < r.1 := lt_of_lt_of_le (hne' q List.mem_cons_self) hqr
            exact absurd (lt_trans hgap hlate) (not_lt.mpr hler)
    · intro h
      refine ⟨fun x hx y hy z hz => ?_⟩
      refine mem_of_joined h ?_ hz.2 hy
      obtain ⟨q, hq, hle, -⟩ := hx
      rcases List.mem_cons.mp hq with rfl | hq
      · exact le_trans hle hz.1
      · have hfirst := (List.pairwise_cons.mp hasc).1 q hq
        exact le_trans (le_of_lt (hne p List.mem_cons_self)) (le_trans hfirst (le_trans hle hz.1))

end Intervals
