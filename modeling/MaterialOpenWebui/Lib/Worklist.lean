import Mathlib.Logic.Relation

/-!
# `Lib.Worklist` — visiting what can be reached

A traversal keeps what it has seen and what it has still to see. If it started from one place, put there only what places it has
seen lead to, and left nothing of that out, then at the end it has seen exactly the places that can be reached.
-/

namespace Worklist

variable {α : Type} (edge : α → α → Prop) (source : α)

/-- What holds of a traversal at any time. -/
structure Inv (seen pending : List α) : Prop where
  begun : source ∈ seen ∨ source ∈ pending
  reached : ∀ a, a ∈ seen ∨ a ∈ pending → Relation.ReflTransGen edge source a
  led : ∀ a ∈ seen, ∀ b, edge a b → b ∈ seen ∨ b ∈ pending

variable {edge source} {seen pending : List α}

theorem Inv.start : Inv edge source [] [source] where
  begun := .inr (List.mem_singleton_self _)
  reached a ha := by
    rw [List.mem_singleton.mp (ha.resolve_left List.not_mem_nil)]
  led _ ha := absurd ha List.not_mem_nil

/-- What has been seen need not be seen again. -/
theorem Inv.skip {a : α} (h : Inv edge source seen (a :: pending)) (ha : a ∈ seen) : Inv edge source seen pending := by
  have hmem : ∀ b, b ∈ seen ∨ b ∈ a :: pending → b ∈ seen ∨ b ∈ pending := by
    intro b hb
    rcases hb with hb | hb
    · exact .inl hb
    · rcases List.mem_cons.mp hb with rfl | hb
      · exact .inl ha
      · exact .inr hb
  exact ⟨hmem _ h.begun, fun b hb => h.reached b (hb.imp id (List.mem_cons_of_mem a)),
    fun b hb c hc => hmem c (h.led b hb c hc)⟩

/-- A place is seen, and what it leads to is pending. -/
theorem Inv.visit {a : α} (h : Inv edge source seen (a :: pending)) {more : List α} (hmore : ∀ b ∈ more, edge a b)
    (hall : ∀ b, edge a b → b ∈ seen ++ [a] ∨ b ∈ more) : Inv edge source (seen ++ [a]) (pending ++ more) := by
  have ha : Relation.ReflTransGen edge source a := h.reached a (.inr List.mem_cons_self)
  have hmem : ∀ b, b ∈ seen ∨ b ∈ a :: pending → b ∈ seen ++ [a] ∨ b ∈ pending ++ more := by
    intro b hb
    rcases hb with hb | hb
    · exact .inl (List.mem_append_left _ hb)
    · rcases List.mem_cons.mp hb with rfl | hb
      · exact .inl (List.mem_append_right _ (List.mem_singleton_self _))
      · exact .inr (List.mem_append_left _ hb)
  refine ⟨hmem _ h.begun, fun b hb => ?_, fun b hb c hc => ?_⟩
  · rcases hb with hb | hb
    · rcases List.mem_append.mp hb with hb | hb
      · exact h.reached b (.inl hb)
      · rwa [List.mem_singleton.mp hb]
    · rcases List.mem_append.mp hb with hb | hb
      · exact h.reached b (.inr (List.mem_cons_of_mem a hb))
      · exact ha.tail (hmore b hb)
  · rcases List.mem_append.mp hb with hb | hb
    · exact hmem c (h.led b hb c hc)
    · rw [List.mem_singleton.mp hb] at hc
      exact (hall c hc).imp id (List.mem_append_right _)

/-- **At the end.** -/
theorem Inv.seen_iff (h : Inv edge source seen []) {a : α} : a ∈ seen ↔ Relation.ReflTransGen edge source a := by
  constructor
  · exact fun ha => h.reached a (.inl ha)
  · intro ha
    induction ha with
    | refl => exact h.begun.resolve_right List.not_mem_nil
    | tail _ hedge ih => exact (h.led _ ih _ hedge).resolve_right List.not_mem_nil

end Worklist
