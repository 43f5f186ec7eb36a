import MaterialOpenWebui.Responses.Event

/-!
# `Responses.Stray` — events for items that are not there

An event may be for an item that is not there, or for a part of it that is not there. Such an event is to be passed
over: the handler returns, and leaves the output as it is. Where it does is `tolerated_iff`.
-/

namespace MaterialOpenWebui
namespace Responses
open Py

/-! ## The item of an event -/

/-- The place of the item that an event is for, if it is there. -/
def addressed (e : Event) (current_output : List Obj) : Option Nat :=
  (e.output_index current_output.length).integer?.bind fun i =>
    if 0 ≤ i ∧ i < current_output.length then some i.toNat else none

/-- The index can be compared, and is an integer if it is in the range. -/
def IndexReads (e : Event) (current_output : List Obj) : Prop :=
  addresses e current_output = some (addressed e current_output).isSome

theorem number?_of_integer? {v : Val} {i : Int} (h : v.integer? = some i) : v.number? = some (i : Rat) := by
  cases v with
  | bool b =>
    cases b <;> cases h <;> rfl
  | int n =>
    cases h
    rfl
  | _ => cases h

theorem within_of_integer? {index : Val} {i : Int} (h : index.integer? = some i) (n : Nat) :
    within index n = some (decide (0 ≤ i) && decide (i < n)) := by
  rw [within, number?_of_integer? h]
  show some (decide (0 ≤ (i : Rat).num) && decide ((i : Rat).num < (n : Int) * (i : Rat).den)) = _
  rw [Rat.num_intCast, Rat.den_intCast]
  exact congrArg (fun bound => some (decide (0 ≤ i) && decide (i < bound))) (Int.mul_one _)

theorem place_of_nonneg {index : Val} {i : Int} (h : index.integer? = some i) {n : Nat} (hlow : 0 ≤ i) (hhigh : i < n) :
    place index n = some i.toNat := by
  rw [place, h, Option.bind_some, if_pos hlow, if_pos hhigh]

/-- What an index is found to be: none that can be compared, one out of the range, one that is not whole, or the place of
an item. -/
theorem addresses_cases (e : Event) (current_output : List Obj) :
    addresses e current_output = none ∧ addressed e current_output = none ∨
    addresses e current_output = some false ∧ addressed e current_output = none ∨
    addresses e current_output = some true ∧ addressed e current_output = none ∧
      place (e.output_index current_output.length) current_output.length = none ∨
    ∃ p item, addresses e current_output = some true ∧ addressed e current_output = some p ∧
      place (e.output_index current_output.length) current_output.length = some p ∧ current_output[p]? = some item := by
  rw [addresses, addressed, place]
  cases hindex : (e.output_index current_output.length).integer? with
  | none =>
    by_cases hempty : current_output = []
    · rw [if_pos hempty]
      exact Or.inr (Or.inl ⟨rfl, rfl⟩)
    · rw [if_neg hempty]
      cases within (e.output_index current_output.length) current_output.length with
      | none => exact Or.inl ⟨rfl, rfl⟩
      | some found =>
        cases found with
        | false => exact Or.inr (Or.inl ⟨rfl, rfl⟩)
        | true => exact Or.inr (Or.inr (Or.inl ⟨rfl, rfl, rfl⟩))
  | some i =>
    rw [within_of_integer? hindex]
    by_cases hrange : 0 ≤ i ∧ i < current_output.length
    · obtain ⟨hlow, hhigh⟩ := hrange
      have hplace : i.toNat < current_output.length := by omega
      have hempty : current_output ≠ [] := List.length_pos_iff.mp (Nat.zero_lt_of_lt hplace)
      refine Or.inr (Or.inr (Or.inr ⟨i.toNat, current_output[i.toNat], ?_, ?_, ?_, List.getElem?_eq_getElem hplace⟩))
      · rw [if_neg hempty, decide_eq_true hlow, decide_eq_true hhigh]
        rfl
      · exact if_pos ⟨hlow, hhigh⟩
      · rw [Option.bind_some, if_pos hlow, if_pos hhigh]
    · refine Or.inr (Or.inl ⟨?_, if_neg hrange⟩)
      split
      · rfl
      · rw [← Bool.decide_and, decide_eq_false hrange]

/-! ## Parts -/

/-- There is a part at an index of a list. -/
def HasPart (parts : List Val) (index : Val) : Prop :=
  ∃ p v, place index parts.length = some p ∧ parts[p]? = some v ∧ v.isDict

theorem isSome_obj? (v : Val) : v.obj?.isSome = v.isDict := by
  cases v <;> rfl

theorem changePart_isSome (item : Obj) (key : Str) (parts : List Val) (index : Val) (change : Obj → Obj) :
    (changePart item key parts index change).isSome ↔ HasPart parts index := by
  rw [changePart, Option.isSome_bind, Option.any_eq_true]
  apply exists_congr
  intro p
  rw [Option.isSome_map, Option.isSome_bind, Option.any_eq_true]
  constructor
  · rintro ⟨hplace, v, hv, hdict⟩
    exact ⟨v, hplace, hv, isSome_obj? v ▸ hdict⟩
  · rintro ⟨v, hplace, hv, hdict⟩
    exact ⟨hplace, v, hv, (isSome_obj? v).symm ▸ hdict⟩

/-- There is a part at an index of what a field lists, or parts can be added up to there. -/
def CanHavePart (item : Obj) (key : Str) (index : Val) : Prop :=
  ∃ parts i, listField item key = some parts ∧ index.integer? = some i ∧ (parts.length ≤ i ∨ HasPart parts index)

theorem hasPart_padded {parts : List Val} {index : Val} {i : Int} (h : index.integer? = some i) (added : Obj) :
    HasPart (padded parts i (.dict added.items)) index ↔ parts.length ≤ i ∨ HasPart parts index := by
  by_cases hlong : (parts.length : Int) ≤ i
  · apply iff_of_true _ (Or.inl hlong)
    have hlength : (padded parts i (.dict added.items)).length = i.toNat + 1 := by
      rw [padded, List.length_append, List.length_replicate]
      omega
    refine ⟨i.toNat, .dict added.items, ?_, ?_, rfl⟩
    · apply place_of_nonneg h <;> omega
    · rw [padded, List.getElem?_append_right (by omega), List.getElem?_replicate, if_pos (by omega)]
  · have hnone : (i + 1 - (parts.length : Int)).toNat = 0 := by omega
    rw [padded, hnone, List.replicate_zero, List.append_nil, or_iff_right hlong]

theorem changeOrAddPart_isSome (item : Obj) (key : Str) (index : Val) (added : Obj) (change : Obj → Obj) :
    (changeOrAddPart item key index added change).isSome ↔ CanHavePart item key index := by
  rw [changeOrAddPart, Option.isSome_bind, Option.any_eq_true]
  apply exists_congr
  intro parts
  rw [Option.isSome_bind, Option.any_eq_true]
  constructor
  · rintro ⟨hparts, i, hi, hsome⟩
    rw [changePart_isSome, hasPart_padded hi] at hsome
    exact ⟨i, hparts, hi, hsome⟩
  · rintro ⟨i, hparts, hi, hpart⟩
    refine ⟨hparts, i, hi, ?_⟩
    rw [changePart_isSome, hasPart_padded hi]
    exact hpart

/-! ## When an event is tolerated -/

/-- A reply that is a pair, and leaves the output as it is when the item is not there. -/
def Harmless (reply : Reply) (e : Event) (current_output : List Obj) : Prop :=
  ∃ output metadata, reply = some (output, metadata) ∧ (addressed e current_output = none → output = current_output)

/-- Of the item that the event is for, if it is there. -/
def OfAddressed (e : Event) (current_output : List Obj) (P : Obj → Prop) : Prop :=
  ∀ p item, addressed e current_output = some p → current_output[p]? = some item → P item

theorem harmless_same (e : Event) (current_output : List Obj) (metadata : Option Obj) :
    Harmless (some (current_output, metadata)) e current_output := ⟨_, _, rfl, fun _ => rfl⟩

theorem not_harmless_none (e : Event) (current_output : List Obj) : ¬ Harmless none e current_output := by
  rintro ⟨output, metadata, h, -⟩
  cases h

theorem ofAddressed_of_none {e : Event} {current_output : List Obj} (h : addressed e current_output = none)
    (P : Obj → Prop) : OfAddressed e current_output P := by
  intro p item hp
  rw [h] at hp
  cases hp

theorem ofAddressed_of_some {e : Event} {current_output : List Obj} {p : Nat} {item : Obj}
    (h : addressed e current_output = some p) (hitem : current_output[p]? = some item) (P : Obj → Prop) :
    OfAddressed e current_output P ↔ P item := by
  constructor
  · exact fun hall => hall p item h hitem
  · intro hP q other hq hother
    rw [h, Option.some.injEq] at hq
    subst hq
    rw [hitem, Option.some.injEq] at hother
    exact hother ▸ hP

theorem changeItem_of_place {current_output : List Obj} {index : Val} {p : Nat} {item : Obj}
    (h : place index current_output.length = some p) (hitem : current_output[p]? = some item)
    (change : Obj → Option Obj) :
    changeItem current_output index change = (change item).map fun item => current_output.set p item := by
  rw [changeItem, h, Option.bind_some, hitem, Option.bind_some]

theorem harmless_changed {e : Event} {current_output : List Obj} {p : Nat} (h : addressed e current_output = some p)
    (changed : Option Obj) (metadata : Option Obj) :
    Harmless ((changed.map fun item => current_output.set p item).map fun output => (output, metadata)) e
      current_output ↔ changed.isSome := by
  cases changed with
  | none => exact iff_of_false (not_harmless_none e current_output) Bool.noConfusion
  | some item =>
    apply iff_of_true _ rfl
    refine ⟨_, _, rfl, fun hnone => ?_⟩
    rw [h] at hnone
    cases hnone

/-- A branch that changes the item that is addressed. -/
theorem harmless_changeAddressed (e : Event) (current_output : List Obj) (change : Obj → Option Obj) :
    Harmless (changeAddressed e current_output change) e current_output ↔
      IndexReads e current_output ∧ OfAddressed e current_output fun item => (change item).isSome := by
  rw [changeAddressed, IndexReads]
  rcases addresses_cases e current_output with ⟨haddr, hnone⟩ | ⟨haddr, hnone⟩ | ⟨haddr, hnone, hplace⟩ |
    ⟨p, item, haddr, hsome, hplace, hitem⟩
  · rw [haddr]
    exact iff_of_false (not_harmless_none e current_output) fun h => by cases h.1
  · rw [haddr, hnone]
    exact iff_of_true (harmless_same e current_output none) ⟨rfl, ofAddressed_of_none hnone _⟩
  · rw [haddr, hnone, Option.bind_some, if_pos rfl, changeItem, hplace]
    exact iff_of_false (not_harmless_none e current_output) fun h => by cases h.1
  · rw [haddr, hsome, Option.bind_some, if_pos rfl, changeItem_of_place hplace hitem, harmless_changed hsome,
      ofAddressed_of_some hsome hitem]
    exact (and_iff_right rfl).symm

/-- What a delta needs of its item. -/
def DeltaReads (e : Event) (delta_type : Str) (item : Obj) : Prop :=
  if delta_type = py "function_call_arguments" then
    isType item (py "function_call") → ((item.get? (py "arguments")).getD (.str [])).text?.isSome
  else if isType item (py "message") then
    (delta_type = py "reasoning_text" ∨ delta_type = py "reasoning_summary_text") ∨
      CanHavePart item (py "content") e.content_index
  else if isType item (py "reasoning") then
    if delta_type = py "reasoning_summary_text" then CanHavePart item (py "summary") e.summary_index
    else delta_type = py "reasoning_text" → CanHavePart item (py "content") e.content_index
  else True

theorem delta_item_isSome (str_ : Val → Str) (e : Event) (delta_type : Str) (item : Obj) :
    (delta_item str_ e delta_type item).isSome ↔ DeltaReads e delta_type item := by
  rw [delta_item, DeltaReads]
  by_cases harguments : delta_type = py "function_call_arguments"
  · rw [if_pos harguments, if_pos harguments]
    by_cases hcall : isType item (py "function_call")
    · rw [if_pos hcall, imp_iff_right hcall]
      cases (item.get? (py "arguments")).getD (.str []) <;> rfl
    · rw [if_neg hcall]
      exact iff_of_true rfl fun h => absurd h hcall
  · rw [if_neg harguments, if_neg harguments]
    by_cases hmessage : isType item (py "message")
    · rw [if_pos hmessage, if_pos hmessage]
      split
      · rename_i hskipped
        exact iff_of_true rfl (Or.inl hskipped)
      · rename_i hskipped
        rw [or_iff_right hskipped]
        exact changeOrAddPart_isSome _ _ _ _ _
    · rw [if_neg hmessage, if_neg hmessage]
      by_cases hreasoning : isType item (py "reasoning")
      · rw [if_pos hreasoning, if_pos hreasoning]
        by_cases hsummary : delta_type = py "reasoning_summary_text"
        · rw [if_pos hsummary, if_pos hsummary]
          exact changeOrAddPart_isSome _ _ _ _ _
        · rw [if_neg hsummary, if_neg hsummary]
          by_cases htext : delta_type = py "reasoning_text"
          · rw [if_pos htext, imp_iff_right htext]
            exact changeOrAddPart_isSome _ _ _ _ _
          · rw [if_neg htext]
            exact iff_of_true rfl fun h => absurd h htext
      · rw [if_neg hreasoning, if_neg hreasoning]
        exact iff_of_true rfl trivial

/-- A delta is for a field that its name gives, and needs the item to be there. -/
def DeltaAcceptable (e : Event) (current_output : List Obj) : Prop :=
  ∃ first delta_type third rest, split e.type = first :: delta_type :: third :: rest ∧
    (addressed e current_output).isSome ∧ OfAddressed e current_output (DeltaReads e delta_type)

theorem harmless_response_delta (str_ : Val → Str) (e : Event) (current_output : List Obj) :
    Harmless (response_delta str_ e current_output) e current_output ↔ DeltaAcceptable e current_output := by
  rw [response_delta]
  split
  · rename_i first delta_type third rest hsplit
    have hacceptable : DeltaAcceptable e current_output ↔ (addressed e current_output).isSome ∧
        OfAddressed e current_output (DeltaReads e delta_type) := by
      constructor
      · rintro ⟨first', delta_type', third', rest', hsplit', h⟩
        rw [hsplit] at hsplit'
        cases hsplit'
        exact h
      · exact fun h => ⟨first, delta_type, third, rest, hsplit, h⟩
    rw [hacceptable]
    rcases addresses_cases e current_output with ⟨haddr, hnone⟩ | ⟨haddr, hnone⟩ | ⟨haddr, hnone, hplace⟩ |
      ⟨p, item, haddr, hsome, hplace, hitem⟩
    · rw [haddr, hnone]
      exact iff_of_false (not_harmless_none e current_output) fun h => by cases h.1
    · -- the output that is to be returned is not bound
      rw [haddr, hnone]
      exact iff_of_false (not_harmless_none e current_output) fun h => by cases h.1
    · rw [haddr, hnone, Option.bind_some, if_pos rfl, changeItem, hplace]
      exact iff_of_false (not_harmless_none e current_output) fun h => by cases h.1
    · rw [haddr, hsome, Option.bind_some, if_pos rfl, changeItem_of_place hplace hitem, harmless_changed hsome,
        ofAddressed_of_some hsome hitem, delta_item_isSome]
      exact (and_iff_right rfl).symm
  · rename_i hsplit
    apply iff_of_false (not_harmless_none e current_output)
    rintro ⟨first, delta_type, third, rest, h, -⟩
    exact hsplit first delta_type third rest h

/-- What the end of a part needs of its item. -/
def PartReads (key : Str) (index : Option Val) (item : Obj) : Prop :=
  ∀ v, item.get? key = some v → ∃ parts found, iterate v = some parts ∧
    within (index.getD (.int (parts.length - 1))) parts.length = some found ∧
    (found → (index.getD (.int (parts.length - 1))).integer?.isSome)

theorem place_isSome_of_within {index : Val} {n : Nat} (h : within index n = some true) :
    (place index n).isSome ↔ index.integer?.isSome := by
  cases hindex : index.integer? with
  | none =>
    rw [place, hindex]
    rfl
  | some i =>
    rw [within_of_integer? hindex, Option.some.injEq, Bool.and_eq_true, decide_eq_true_eq, decide_eq_true_eq] at h
    rw [place_of_nonneg hindex h.1 h.2]
    exact iff_of_true rfl rfl

theorem replacePart_isSome (key : Str) (index : Option Val) (part item : Obj) :
    (replacePart key index part item).isSome ↔ PartReads key index item := by
  rw [replacePart, PartReads]
  cases hv : item.get? key with
  | none => exact iff_of_true rfl fun v h => by cases h
  | some v =>
    rw [Option.isSome_bind, Option.any_eq_true]
    constructor
    · rintro ⟨parts, hparts, h⟩ w hw
      cases hw
      rw [Option.isSome_bind, Option.any_eq_true] at h
      obtain ⟨found, hfound, h⟩ := h
      refine ⟨parts, found, hparts, hfound, ?_⟩
      rintro rfl
      rw [if_pos rfl, Option.isSome_map] at h
      exact (place_isSome_of_within hfound).mp h
    · intro h
      obtain ⟨parts, found, hparts, hfound, hindex⟩ := h v rfl
      refine ⟨parts, hparts, ?_⟩
      show ((within (index.getD (.int (parts.length - 1))) parts.length).bind _).isSome = true
      rw [hfound, Option.bind_some]
      cases found with
      | false => rfl
      | true =>
        rw [if_pos rfl, Option.isSome_map]
        exact (place_isSome_of_within hfound).mpr (hindex rfl)

/-- The end of a part needs the item only if the event has the part. -/
def PartAcceptable (key : Str) (index : Option Val) (e : Event) (current_output : List Obj) : Prop :=
  ∀ part, e.part = some part → part.items ≠ [] →
    IndexReads e current_output ∧ OfAddressed e current_output (PartReads key index)

theorem harmless_part_done (key : Str) (index : Option Val) (e : Event) (current_output : List Obj) :
    Harmless (part_done key index e current_output) e current_output ↔ PartAcceptable key index e current_output := by
  rw [part_done, PartAcceptable]
  cases hpart : e.part with
  | none => exact iff_of_true (harmless_same e current_output none) fun part h => by cases h
  | some part =>
    have hall : (∀ other, some part = some other → other.items ≠ [] → IndexReads e current_output ∧
        OfAddressed e current_output (PartReads key index)) ↔ (part.items ≠ [] → IndexReads e current_output ∧
        OfAddressed e current_output (PartReads key index)) := by
      constructor
      · exact fun h => h part rfl
      · rintro h other hother
        cases hother
        exact h
    rw [hall]
    show Harmless (if part.items = [] then _ else _) e current_output ↔ _
    by_cases hempty : part.items = []
    · rw [if_pos hempty]
      exact iff_of_true (harmless_same e current_output none) fun h => absurd hempty h
    · rw [if_neg hempty, imp_iff_right hempty, IndexReads]
      rcases addresses_cases e current_output with ⟨haddr, hnone⟩ | ⟨haddr, hnone⟩ | ⟨haddr, hnone, hplace⟩ |
        ⟨p, item, haddr, hsome, hplace, hitem⟩
      · rw [haddr]
        exact iff_of_false (not_harmless_none e current_output) fun h => by cases h.1
      · rw [haddr, hnone]
        exact iff_of_true (harmless_same e current_output none) ⟨rfl, ofAddressed_of_none hnone _⟩
      · rw [haddr, hnone, Option.bind_some, if_pos rfl, hplace]
        exact iff_of_false (not_harmless_none e current_output) fun h => by cases h.1
      · rw [haddr, hsome, Option.bind_some, if_pos rfl, hplace, Option.bind_some, hitem, Option.bind_some,
          ofAddressed_of_some hsome hitem, ← replacePart_isSome key index part item]
        cases replacePart key index part item with
        | none => exact iff_of_false (not_harmless_none e current_output) fun h => by cases h.2
        | some replaced =>
          apply iff_of_true _ ⟨rfl, rfl⟩
          cases replaced with
          | none => exact harmless_same e current_output none
          | some item =>
            refine ⟨_, _, rfl, fun hnone => ?_⟩
            rw [hsome] at hnone
            cases hnone

/-- What the final value of a field needs of its item. -/
def DoneReads (e : Event) (type_name : Str) (item : Obj) : Prop :=
  type_name ≠ py "function_call_arguments" → isType item (py "message") →
    ∀ v, item.get? (py "content") = some v → ∃ content x, iterate v = some content ∧
      e.content_index.number? = some x ∧
      (x.num < (content.length : Int) * x.den → HasPart content e.content_index)

theorem done_item_isSome (e : Event) (type_name : Str) (final_value : Val) (item : Obj) :
    (done_item e type_name final_value item).isSome ↔ DoneReads e type_name item := by
  rw [done_item, DoneReads]
  by_cases harguments : type_name = py "function_call_arguments"
  · rw [if_pos harguments]
    exact iff_of_true rfl fun h => absurd harguments h
  · rw [if_neg harguments, imp_iff_right harguments]
    by_cases hmessage : isType item (py "message")
    · rw [if_pos hmessage, imp_iff_right hmessage]
      cases hv : item.get? (py "content") with
      | none => exact iff_of_true rfl fun v h => by cases h
      | some v =>
        rw [Option.isSome_bind, Option.any_eq_true]
        constructor
        · rintro ⟨content, hcontent, h⟩ w hw
          cases hw
          rw [Option.isSome_bind, Option.any_eq_true] at h
          obtain ⟨x, hx, h⟩ := h
          refine ⟨content, x, hcontent, hx, fun hlow => ?_⟩
          rw [if_pos hlow, changePart_isSome] at h
          exact h
        · intro h
          obtain ⟨content, x, hcontent, hx, hpart⟩ := h v rfl
          refine ⟨content, hcontent, ?_⟩
          rw [hx, Option.bind_some]
          split
          · rename_i hlow
            exact (changePart_isSome _ _ _ _ _).mpr (hpart hlow)
          · rfl
    · rw [if_neg hmessage]
      apply iff_of_true _ fun h => absurd h hmessage
      split <;> rfl

/-- The final value of a field needs the item only if the event has the value. -/
def FieldAcceptable (e : Event) (type_name : Str) (current_output : List Obj) : Prop :=
  (addresses e current_output).isSome ∧ ((e.data.get? (doneKey type_name)).isSome →
    IndexReads e current_output ∧ OfAddressed e current_output (DoneReads e type_name))

theorem harmless_field_done (e : Event) (type_name : Str) (current_output : List Obj) :
    Harmless (field_done e type_name current_output) e current_output ↔
      FieldAcceptable e type_name current_output := by
  rw [field_done, FieldAcceptable, IndexReads]
  cases hvalue : e.data.get? (doneKey type_name) with
  | none =>
    rw [and_iff_left fun h => by cases h]
    cases addresses e current_output with
    | none => exact iff_of_false (not_harmless_none e current_output) Bool.noConfusion
    | some found =>
      apply iff_of_true _ rfl
      cases found <;> exact harmless_same e current_output none
  | some final_value =>
    rw [imp_iff_right (Option.isSome_some)]
    rcases addresses_cases e current_output with ⟨haddr, hnone⟩ | ⟨haddr, hnone⟩ | ⟨haddr, hnone, hplace⟩ |
      ⟨p, item, haddr, hsome, hplace, hitem⟩
    · rw [haddr]
      exact iff_of_false (not_harmless_none e current_output) fun h => by cases h.1
    · rw [haddr, hnone]
      exact iff_of_true (harmless_same e current_output none) ⟨rfl, rfl, ofAddressed_of_none hnone _⟩
    · rw [haddr, hnone, Option.bind_some, if_pos rfl]
      show Harmless ((changeItem current_output (e.output_index current_output.length) _).map _) _ _ ↔ _
      rw [changeItem, hplace]
      exact iff_of_false (not_harmless_none e current_output) fun h => by cases h.2.1
    · rw [haddr, hsome, Option.bind_some, if_pos rfl]
      show Harmless ((changeItem current_output (e.output_index current_output.length) _).map _) _ _ ↔ _
      rw [changeItem_of_place hplace hitem, harmless_changed hsome, ofAddressed_of_some hsome hitem,
        done_item_isSome]
      exact ⟨fun h => ⟨rfl, rfl, h⟩, fun h => h.2.2⟩

/-- The end of something; what is named decides what of the event is read. -/
def DoneAcceptable (e : Event) (current_output : List Obj) : Prop :=
  ∀ first type_name third rest, split e.type = first :: type_name :: third :: rest →
    if type_name = py "content_part" then
      PartAcceptable (py "content") (e.data.get? (py "content_index")) e current_output
    else if type_name = py "reasoning_summary_part" then
      PartAcceptable (py "summary") (e.data.get? (py "summary_index")) e current_output
    else type_name ≠ py "output_item" → type_name ≠ py "completed" → type_name ≠ py "failed" →
      FieldAcceptable e type_name current_output

theorem harmless_response_done (e : Event) (current_output : List Obj) :
    Harmless (response_done e current_output) e current_output ↔ DoneAcceptable e current_output := by
  rw [response_done]
  split
  · rename_i first type_name third rest hsplit
    have hacceptable : DoneAcceptable e current_output ↔
        (if type_name = py "content_part" then
          PartAcceptable (py "content") (e.data.get? (py "content_index")) e current_output
        else if type_name = py "reasoning_summary_part" then
          PartAcceptable (py "summary") (e.data.get? (py "summary_index")) e current_output
        else type_name ≠ py "output_item" → type_name ≠ py "completed" → type_name ≠ py "failed" →
          FieldAcceptable e type_name current_output) := by
      constructor
      · exact fun h => h first type_name third rest hsplit
      · intro h first' type_name' third' rest' hsplit'
        rw [hsplit] at hsplit'
        cases hsplit'
        exact h
    rw [hacceptable]
    have hsame := harmless_same e current_output none
    by_cases hcontent : type_name = py "content_part"
    · rw [if_pos hcontent, if_pos hcontent]
      exact harmless_part_done _ _ e current_output
    rw [if_neg hcontent, if_neg hcontent]
    by_cases hsummary : type_name = py "reasoning_summary_part"
    · rw [if_pos hsummary, if_pos hsummary]
      exact harmless_part_done _ _ e current_output
    rw [if_neg hsummary, if_neg hsummary]
    by_cases hitem : type_name = py "output_item"
    · rw [if_pos hitem]
      exact iff_of_true hsame fun h => absurd hitem h
    rw [if_neg hitem, imp_iff_right hitem]
    by_cases hother : type_name = py "completed" ∨ type_name = py "failed"
    · rw [if_pos hother]
      exact iff_of_true hsame fun hcompleted hfailed => absurd hother (not_or.mpr ⟨hcompleted, hfailed⟩)
    · obtain ⟨hcompleted, hfailed⟩ := not_or.mp hother
      rw [if_neg hother, imp_iff_right hcompleted, imp_iff_right hfailed]
      exact harmless_field_done e type_name current_output
  · rename_i hsplit
    apply iff_of_true (harmless_same e current_output none)
    intro first type_name third rest h
    exact absurd h (hsplit first type_name third rest)

/-- The event is for an item that the output has: it does not bring one, or the whole output. -/
def ForItem (e : Event) : Prop := e.type ≠ py "response.output_item.added" ∧ e.type ≠ py "response.completed"

/-- The handler returns a pair, leaves the output that it was given as it was, and returns it when the item of the event
is not there. -/
def Tolerated (str_ : Val → Str) (e : Event) (current_output : List Obj) : Prop :=
  ∃ output metadata, handle_responses_streaming_event str_ e current_output =
      ⟨some (output, metadata), current_output⟩ ∧
    (ForItem e → addressed e current_output = none → output = current_output)

/-- No reasoning item is left to be marked. -/
def AllCompleted (current_output : List Obj) : Prop :=
  ∀ item ∈ current_output, isType item (py "reasoning") →
    (item.get? (py "status")).bind Val.text? = some (py "completed")

/-- What an event needs, by its name. -/
def Acceptable (e : Event) (current_output : List Obj) : Prop :=
  if e.type = py "response.output_item.added" then True
  else if e.type = py "response.content_part.added" then
    IndexReads e current_output ∧ OfAddressed e current_output fun item => (listField item (py "content")).isSome
  else if e.type = py "response.reasoning_summary_part.added" then
    IndexReads e current_output ∧ OfAddressed e current_output fun item => (listField item (py "summary")).isSome
  else if isResponse (py ".delta") e.type then DeltaAcceptable e current_output
  else if isResponse (py ".done") e.type then DoneAcceptable e current_output
  else if e.type = py "response.completed" then e.final_output = none → AllCompleted current_output
  else True

theorem forItem_of_ne {e : Event} (hadded : e.type ≠ py "response.output_item.added")
    (hcompleted : e.type ≠ py "response.completed") {str_ : Val → Str} {current_output : List Obj} {reply : Reply}
    (h : handle_responses_streaming_event str_ e current_output = ⟨reply, current_output⟩) :
    Tolerated str_ e current_output ↔ Harmless reply e current_output := by
  rw [Tolerated, h]
  apply exists_congr
  intro output
  apply exists_congr
  intro metadata
  rw [imp_iff_right (show ForItem e from ⟨hadded, hcompleted⟩), Outcome.mk.injEq, and_iff_left rfl]

theorem markCompleted_eq_iff (item : Obj) : markCompleted item = item ↔
    (isType item (py "reasoning") → (item.get? (py "status")).bind Val.text? = some (py "completed")) := by
  rw [markCompleted]
  split
  · rename_i hmarked
    apply iff_of_false
    · intro heq
      rw [← heq, Dict.get?_set, if_pos rfl] at hmarked
      exact hmarked.2 rfl
    · exact fun h => hmarked.2 (h hmarked.1)
  · rename_i hkept
    apply iff_of_true rfl
    intro hreasoning
    by_contra hstatus
    exact hkept ⟨hreasoning, hstatus⟩

theorem map_markCompleted_eq_iff (items : List Obj) : items.map markCompleted = items ↔ AllCompleted items := by
  induction items with
  | nil => exact iff_of_true rfl (List.forall_mem_nil _)
  | cons item items ih => rw [List.map_cons, List.cons_eq_cons, AllCompleted, List.forall_mem_cons, markCompleted_eq_iff,
      ih, AllCompleted]

theorem tolerated_completed (str_ : Val → Str) {e : Event} (htype : e.type = py "response.completed")
    (current_output : List Obj) :
    Tolerated str_ e current_output ↔ (e.final_output = none → AllCompleted current_output) := by
  have hitem : ¬ ForItem e := fun hfor => hfor.2 htype
  have hcall : handle_responses_streaming_event str_ e current_output = response_completed e current_output := by
    rw [handle_responses_streaming_event, htype]
    rfl
  rw [Tolerated, hcall, response_completed]
  cases e.final_output with
  | some final_output =>
    apply iff_of_true _ fun hnone => by cases hnone
    exact ⟨_, _, rfl, fun hfor => absurd hfor hitem⟩
  | none =>
    rw [imp_iff_right rfl, ← map_markCompleted_eq_iff]
    constructor
    · rintro ⟨output, metadata, heq, -⟩
      exact (Outcome.mk.inj heq).2
    · intro heq
      refine ⟨current_output, completedMetadata e, ?_, fun hfor => absurd hfor hitem⟩
      show Outcome.mk (some (current_output.map markCompleted, _)) (current_output.map markCompleted) = _
      rw [heq]

theorem tolerated_added (str_ : Val → Str) {e : Event} (htype : e.type = py "response.output_item.added")
    (current_output : List Obj) : Tolerated str_ e current_output := by
  have hitem : ¬ ForItem e := fun hfor => hfor.1 htype
  rw [Tolerated, handle_responses_streaming_event, if_pos htype, output_item_added]
  cases e.item with
  | none => exact ⟨_, _, rfl, fun hfor => absurd hfor hitem⟩
  | some item => exact ⟨_, _, rfl, fun hfor => absurd hfor hitem⟩

/-- The branches that change a copy of the item. -/
theorem harmless_parts (e : Event) (current_output : List Obj) {change : Obj → Option Obj} {key : Str}
    (h : ∀ item, (change item).isSome = (listField item key).isSome) :
    Harmless (changeAddressed e current_output change) e current_output ↔
      IndexReads e current_output ∧ OfAddressed e current_output fun item => (listField item key).isSome := by
  rw [harmless_changeAddressed, OfAddressed, OfAddressed]
  simp only [h]

theorem tolerated_iff_acceptable (str_ : Val → Str) (e : Event) (current_output : List Obj) :
    Tolerated str_ e current_output ↔ Acceptable e current_output := by
  by_cases hcompleted : e.type = py "response.completed"
  · rw [tolerated_completed str_ hcompleted, Acceptable, hcompleted]
    rfl
  rw [Acceptable]
  by_cases hadded : e.type = py "response.output_item.added"
  · rw [if_pos hadded]
    exact iff_of_true (tolerated_added str_ hadded current_output) trivial
  rw [if_neg hadded]
  have hreply : ∀ reply, handle_responses_streaming_event str_ e current_output = ⟨reply, current_output⟩ →
      (Tolerated str_ e current_output ↔ Harmless reply e current_output) :=
    fun reply => forItem_of_ne hadded hcompleted
  rw [handle_responses_streaming_event, if_neg hadded] at hreply
  by_cases hcontent : e.type = py "response.content_part.added"
  · rw [if_pos hcontent] at hreply ⊢
    rw [hreply _ rfl]
    exact harmless_parts e current_output fun item => Option.isSome_map
  rw [if_neg hcontent] at hreply ⊢
  by_cases hsummary : e.type = py "response.reasoning_summary_part.added"
  · rw [if_pos hsummary] at hreply ⊢
    rw [hreply _ rfl]
    exact harmless_parts e current_output fun item => Option.isSome_map
  rw [if_neg hsummary] at hreply ⊢
  by_cases hdelta : isResponse (py ".delta") e.type
  · rw [if_pos hdelta] at hreply ⊢
    rw [hreply _ rfl]
    exact harmless_response_delta str_ e current_output
  rw [if_neg hdelta] at hreply ⊢
  by_cases hdone : isResponse (py ".done") e.type
  · rw [if_pos hdone] at hreply ⊢
    rw [hreply _ rfl]
    exact harmless_response_done e current_output
  have hitem : e.type ≠ py "response.output_item.done" := by
    intro htype
    rw [htype] at hdone
    exact hdone (by decide)
  rw [if_neg hdone, if_neg hitem, if_neg hcompleted] at hreply
  rw [if_neg hdone, if_neg hcompleted]
  apply iff_of_true _ trivial
  split at hreply
  · rw [hreply _ rfl]
    exact harmless_same e current_output _
  · split at hreply
    · rw [hreply _ rfl]
      exact harmless_same e current_output _
    · rw [hreply _ rfl]
      exact harmless_same e current_output _

/-- **Which events are tolerated**, whatever their indices are and whatever the output holds. -/
theorem tolerated_iff (str_ : Val → Str) (e : Event) (current_output : List Obj) :
    Tolerated str_ e current_output ↔ Acceptable e current_output :=
  tolerated_iff_acceptable str_ e current_output

/-! ## The exceptions -/

/-- Text for an item, before there is one. -/
def strayDelta : Event where
  data := Dict.ofList [(py "type", .str (py "response.output_text.delta")), (py "delta", .str (py "a"))]
  typed := by
    refine ⟨?_, ?_, ?_, ?_⟩ <;> intro v h <;> cases h
    rfl

/-- The output that the branch is to return is bound only where there is an item. -/
theorem delta_for_nothing : ¬ ∀ (str_ : Val → Str) (e : Event) (current_output : List Obj),
    Tolerated str_ e current_output := by
  intro h
  obtain ⟨output, metadata, hreply, -⟩ := h (fun _ => []) strayDelta []
  have hlost : (handle_responses_streaming_event (fun _ => []) strayDelta []).reply.isSome = false := by decide
  rw [hreply] at hlost
  cases hlost

end Responses
end MaterialOpenWebui
