import MaterialOpenWebui.Js.Value
import MaterialOpenWebui.Lib.Forest

/-!
# `Messages.List` — the messages shown (`createMessagesList`, `src/lib/utils/index.ts`)

The list goes from a message up its parents, and remembers nothing of where it has been. It is told by what is found under a
value (a property access, which throws where the value cannot be converted to a name), and by the parent that a message names,
so that it serves histories of any form.
-/

namespace MaterialOpenWebui
namespace Messages
open Js

section
variable {N : Type} (message : JsValue → Option (Option N)) (parentId : N → JsValue)

/-- The loop, the newest message first; `none` if it throws or has not ended after so many turns. -/
def walkUp : Nat → JsValue → Option (List N)
  | 0, _ => none
  | fuel + 1, currentId =>
    if currentId.isNullish then some []
    else
      (message currentId).bind fun found =>
        match found with
        | none => some []
        | some m => (walkUp fuel (parentId m)).map (m :: ·)

/-- `createMessagesList`, as far as so many turns show it. -/
def createMessagesList (fuel : Nat) (messageId : JsValue) : Option (List N) :=
  (walkUp message parentId fuel messageId).map List.reverse

/-- The message that is found under the parent that a message names. -/
def link (m : N) : Option N := if (parentId m).isNullish then none else (message (parentId m)).join

/-- Going on from a message does not throw. -/
def Readable (m : N) : Prop := (parentId m).isNullish = true ∨ (message (parentId m)).isSome = true

variable {message parentId}

theorem walkUp_none (fuel : Nat) {currentId : JsValue} (h : currentId.isNullish = true ∨ message currentId = some none) :
    walkUp message parentId (fuel + 1) currentId = some [] := by
  rw [walkUp]
  by_cases hnull : currentId.isNullish = true
  · rw [if_pos hnull]
  · rw [if_neg hnull, h.resolve_left hnull, Option.bind_some]

theorem walkUp_some (fuel : Nat) {currentId : JsValue} {m : N} (hnull : currentId.isNullish = false)
    (h : message currentId = some (some m)) : walkUp message parentId (fuel + 1) currentId =
      (walkUp message parentId fuel (parentId m)).map (m :: ·) := by
  rw [walkUp, hnull, if_neg Bool.false_ne_true, h, Option.bind_some]

/-- How it goes on from a message: it throws, it ends, or there is a parent. -/
inductive Onward (message : JsValue → Option (Option N)) (parentId : N → JsValue) (m : N) : Prop
  | throws (hread : ¬ Readable message parentId m) (hwalk : ∀ fuel, walkUp message parentId fuel (parentId m) = none)
  | ends (hread : Readable message parentId m) (hlink : link message parentId m = none)
      (hwalk : ∀ fuel, walkUp message parentId (fuel + 1) (parentId m) = some [])
  | parent (p : N) (hread : Readable message parentId m) (hlink : link message parentId m = some p)
      (hnull : (parentId m).isNullish = false) (hfound : message (parentId m) = some (some p))

variable (message parentId) in
theorem onward (m : N) : Onward message parentId m := by
  cases hnull : (parentId m).isNullish with
  | true => exact .ends (.inl hnull) (by rw [link, if_pos hnull]) fun fuel => walkUp_none fuel (.inl hnull)
  | false =>
    have hlink : link message parentId m = (message (parentId m)).join := by
      rw [link, hnull, if_neg Bool.false_ne_true]
    cases hfound : message (parentId m) with
    | none =>
      refine .throws ?_ ?_
      · rintro (h | h)
        · exact Bool.false_ne_true (hnull.symm.trans h)
        · rw [hfound] at h
          cases h
      · intro fuel
        cases fuel with
        | zero => rfl
        | succ fuel => rw [walkUp, hnull, if_neg Bool.false_ne_true, hfound, Option.bind_none]
    | some found =>
      have hread : Readable message parentId m := .inr (by rw [hfound]; rfl)
      rw [hfound] at hlink
      cases found with
      | none => exact .ends hread hlink fun fuel => walkUp_none fuel (.inr hfound)
      | some p => exact .parent p hread hlink hnull hfound

/-- What is shown is a lineage that can be read. -/
theorem lineage_of_walkUp {fuel : Nat} {currentId : JsValue} {m : N} {l : List N} (hnull : currentId.isNullish = false)
    (hm : message currentId = some (some m)) (h : walkUp message parentId fuel currentId = some l) :
    Forest.Lineage (link message parentId) m l ∧ ∀ a ∈ l, Readable message parentId a := by
  induction fuel generalizing currentId m l with
  | zero => cases h
  | succ fuel ih =>
    rw [walkUp_some fuel hnull hm] at h
    obtain ⟨l, hl, rfl⟩ := Option.map_eq_some_iff.mp h
    cases onward message parentId m with
    | throws _ hwalk =>
      rw [hwalk] at hl
      cases hl
    | ends hread hlink hwalk =>
      cases fuel with
      | zero => cases hl
      | succ fuel =>
        rw [hwalk] at hl
        cases hl
        exact ⟨.root hlink, fun a ha => List.mem_singleton.mp ha ▸ hread⟩
    | parent p hread hlink hnull hfound =>
      obtain ⟨hline, hall⟩ := ih hnull hfound hl
      refine ⟨.step hlink hline, fun a ha => ?_⟩
      rcases List.mem_cons.mp ha with rfl | ha
      · exact hread
      · exact hall a ha

/-- A lineage that can be read is shown. -/
theorem walkUp_of_lineage {m : N} {l : List N} (h : Forest.Lineage (link message parentId) m l)
    (hall : ∀ a ∈ l, Readable message parentId a) {currentId : JsValue} (hnull : currentId.isNullish = false)
    (hm : message currentId = some (some m)) : walkUp message parentId (l.length + 1) currentId = some l := by
  induction h generalizing currentId with
  | @root m hlink =>
    rw [walkUp_some _ hnull hm]
    cases onward message parentId m with
    | throws hread _ => exact absurd (hall m List.mem_cons_self) hread
    | ends _ _ hwalk => rw [List.length_singleton, hwalk, Option.map_some]
    | parent p _ hsome _ _ =>
      rw [hlink] at hsome
      cases hsome
  | @step m q l hlink hline ih =>
    rw [walkUp_some _ hnull hm]
    cases onward message parentId m with
    | throws hread _ => exact absurd (hall m List.mem_cons_self) hread
    | ends _ hnone _ =>
      rw [hlink] at hnone
      cases hnone
    | parent p _ hsome hnull' hfound =>
      obtain rfl : q = p := Option.some.inj (hlink.symm.trans hsome)
      rw [List.length_cons, ih (fun a ha => hall a (List.mem_cons_of_mem m ha)) hnull' hfound, Option.map_some]

/-- **What is shown from a message**: a list, without repetition, if no message above it is above itself and all can be read. -/
theorem shows_iff (nodes : List N) {currentId : JsValue} {m : N} (hnull : currentId.isNullish = false)
    (hm : message currentId = some (some m))
    (hnodes : ∀ a, a = m ∨ Forest.Ancestor (link message parentId) a m → a ∈ nodes) :
    (∃ fuel l, createMessagesList message parentId fuel currentId = some l ∧ l.Nodup) ↔
      ∀ a, a = m ∨ Forest.Ancestor (link message parentId) a m →
        Readable message parentId a ∧ ¬ Forest.Ancestor (link message parentId) a a := by
  constructor
  · rintro ⟨fuel, l, hl, -⟩
    obtain ⟨l, hwalk, rfl⟩ := Option.map_eq_some_iff.mp hl
    obtain ⟨hline, hall⟩ := lineage_of_walkUp hnull hm hwalk
    intro a ha
    have hmem : a ∈ l := hline.mem_iff.mpr ha
    obtain ⟨_, back, -, hback⟩ := hline.suffix hmem
    exact ⟨hall a hmem, hback.irrefl⟩
  · intro h
    obtain ⟨l, hline⟩ := Forest.exists_lineage nodes hnodes fun a ha => (h a ha).2
    refine ⟨l.length + 1, l.reverse, ?_, List.nodup_reverse.mpr hline.nodup⟩
    rw [createMessagesList, walkUp_of_lineage hline (fun a ha => (h a (hline.mem_iff.mp ha)).1) hnull hm, Option.map_some]

end

end Messages
end MaterialOpenWebui
