import MaterialOpenWebui.Chats.Tree

/-!
# `Chats.Merging` — merging any two histories

`merge_history` lays the incoming messages over the existing ones and rebuilds every list of children from the parents. It
need not be given trees: a parent may be missing, the two histories may disagree about a link, and a list of children may be
anything, since it is thrown away. After some of the messages have been gone through, the lists are those of these messages
(`rebuilt`), so the result is known at once (`foldlM_adopt`). Only a value that is no key of a dictionary stops it.
-/

namespace MaterialOpenWebui
namespace Chats
open Py

/-! ## Keys -/

/-- A value that can be looked up: lists and dictionaries cannot. -/
def IsKey : Val → Prop
  | .list _ => False
  | .dict _ => False
  | _ => True

instance : DecidablePred IsKey := fun v => by
  cases v <;> unfold IsKey <;> infer_instance

theorem find?_of_isKey {α : Type} (d : Dict Str α) {v : Val} (h : IsKey v) : find? d v = some (v.text?.bind d.get?) := by
  cases v <;> first | rfl | exact h.elim

theorem find?_of_not_isKey {α : Type} (d : Dict Str α) {v : Val} (h : ¬ IsKey v) : find? d v = none := by
  cases v <;> first | rfl | exact absurd trivial h

/-! ## The lists -/

/-- The messages with the lists of children that some of them make. -/
def rebuilt (raw : Dict Str Obj) (items : List (Str × Obj)) : Dict Str Obj :=
  raw.map fun id message => message.set kChildrenIds
    (.list ((items.filter fun p => (field p.2 kParentId).text? = some id).map fun p => .str p.1))

theorem get?_rebuilt (raw : Dict Str Obj) (items : List (Str × Obj)) (id : Str) :
    (rebuilt raw items).get? id = (raw.get? id).map fun message => message.set kChildrenIds
      (.list ((items.filter fun p => (field p.2 kParentId).text? = some id).map fun p => .str p.1)) :=
  Dict.get?_map _ _ _

/-- **A message joins the children of its parent**, if that is there. -/
theorem adopt_rebuilt (raw : Dict Str Obj) (items : List (Str × Obj)) {p : Str × Obj} (hkey : IsKey (field p.2 kParentId)) :
    adopt (rebuilt raw items) p = some (rebuilt raw (items ++ [p])) := by
  unfold adopt
  rw [find?_of_isKey _ hkey]
  -- nobody whose id is not the parent's gets a child
  have hother : ∀ id, (field p.2 kParentId).text? ≠ some id →
      (rebuilt raw (items ++ [p])).get? id = (rebuilt raw items).get? id := by
    intro id hne
    rw [get?_rebuilt, get?_rebuilt, List.filter_append, List.filter_cons_of_neg (by simpa using hne), List.filter_nil,
      List.append_nil]
  have hkeys : (rebuilt raw (items ++ [p])).keys = (rebuilt raw items).keys := by
    rw [rebuilt, rebuilt, Dict.keys_map, Dict.keys_map]
  have hsame : (∀ id, (field p.2 kParentId).text? = some id → id ∉ raw) → rebuilt raw items = rebuilt raw (items ++ [p]) := by
    intro hmissing
    refine Dict.ext hkeys.symm fun id => ?_
    by_cases hid : (field p.2 kParentId).text? = some id
    · rw [get?_rebuilt, get?_rebuilt, Dict.get?_eq_none_iff.mpr (hmissing id hid)]
      rfl
    · exact (hother id hid).symm
  cases hfield : field p.2 kParentId with
  | str parent =>
    rw [hfield] at hother hsame
    cases hparent : raw.get? parent with
    | none =>
      have hget : (rebuilt raw items).get? parent = none := by rw [get?_rebuilt, hparent, Option.map_none]
      have hnot : parent ∉ raw := Dict.get?_eq_none_iff.mp hparent
      simp only [Val.text?, Option.bind_some, hget, Option.bind_eq_bind]
      refine congrArg some (hsame fun id hid => ?_)
      cases hid
      exact hnot
    | some message =>
      have hget : (rebuilt raw items).get? parent = some (message.set kChildrenIds
          (.list ((items.filter fun p => (field p.2 kParentId).text? = some parent).map fun p => .str p.1))) := by
        rw [get?_rebuilt, hparent, Option.map_some]
      simp only [Val.text?, Option.bind_some, hget, Option.bind_eq_bind, field_set, if_true, iterate, Dict.set_set]
      refine congrArg some (Dict.ext ?_ fun id => ?_)
      · rw [Dict.keys_set_of_mem _ (Dict.mem_of_get? hget), hkeys]
      · rw [Dict.get?_set]
        split
        · rename_i hid
          rw [hid, get?_rebuilt, hparent, Option.map_some, List.filter_append, List.filter_cons_of_pos (by rw [hfield]; simp [Val.text?]),
            List.map_append]
          rfl
        · rename_i hid
          refine (hother id fun heq => hid ?_).symm
          exact (Option.some.inj heq).symm
  | list vs => rw [hfield] at hkey; exact hkey.elim
  | dict items => rw [hfield] at hkey; exact hkey.elim
  | none | bool b | int n | float x =>
    rw [hfield] at hsame
    refine congrArg some (hsame fun id hid => ?_)
    cases hid

theorem adopt_eq_none (messages : Dict Str Obj) {p : Str × Obj} (hkey : ¬ IsKey (field p.2 kParentId)) :
    adopt messages p = none := by
  unfold adopt
  rw [find?_of_not_isKey _ hkey]
  cases field p.2 kParentId <;> rfl

/-- **All lists are rebuilt**, or some message names what is no key as its parent. -/
theorem foldlM_adopt (raw : Dict Str Obj) (items done : List (Str × Obj)) :
    items.foldlM adopt (rebuilt raw done) =
      if ∀ p ∈ items, IsKey (field p.2 kParentId) then some (rebuilt raw (done ++ items)) else none := by
  induction items generalizing done with
  | nil => simp
  | cons p items ih =>
    rw [List.foldlM_cons]
    by_cases hkey : IsKey (field p.2 kParentId)
    · rw [adopt_rebuilt raw done hkey]
      simp only [Option.bind_eq_bind, Option.bind_some]
      rw [ih, List.append_assoc]
      exact if_congr (by simp [hkey]) rfl rfl
    · rw [adopt_eq_none _ hkey]
      simp [hkey]

/-! ## The result -/

/-- Nothing that is looked up is a list or a dictionary: the parents that the merged messages name, and the ids that are
to become current. -/
structure Mergeable (existing incoming : History) : Prop where
  parents : ∀ id message, (existing.messages.update incoming.messages).get? id = some message →
    IsKey (field message kParentId)
  asked : IsKey incoming.currentId
  fallback : (∃ id, incoming.currentId = .str id ∧
    (id ∈ existing.messages ∨ id ∈ incoming.messages)) ∨ IsKey existing.currentId

/-- What merging two histories is to give. -/
structure Merges (existing incoming h : History) : Prop where
  ids : ∀ id, id ∈ h.messages ↔ id ∈ existing.messages ∨ id ∈ incoming.messages
  overlays : ∀ id message, incoming.messages.get? id = some message →
    ∃ merged, h.messages.get? id = some merged ∧ ∀ key, key ≠ kChildrenIds → merged.get? key = message.get? key
  keeps : ∀ id message, id ∉ incoming.messages → existing.messages.get? id = some message →
    ∃ merged, h.messages.get? id = some merged ∧ ∀ key, key ≠ kChildrenIds → merged.get? key = message.get? key
  children : ∀ id merged, h.messages.get? id = some merged →
    merged.get? kChildrenIds = some (.list ((h.messages.keys.filter fun c => parentOf h.messages c = some id).map .str))
  current : h.currentId = .none ∨ ∃ id ∈ h.messages, h.currentId = .str id

/-- The messages of both, each with the children it has among them. -/
def rejoined (existing incoming : History) : Dict Str Obj :=
  rebuilt (existing.messages.update incoming.messages) (overlaid existing.messages incoming.messages).items

/-- The id that becomes current. -/
def mergedCurrent (existing incoming : History) : Val :=
  if (incoming.currentId.text?.bind (rejoined existing incoming).get?).isSome then incoming.currentId
  else if (existing.currentId.text?.bind (rejoined existing incoming).get?).isSome then existing.currentId
  else .none

theorem overlaid_eq_rebuilt (existing incoming : Dict Str Obj) :
    overlaid existing incoming = rebuilt (existing.update incoming) [] := rfl

theorem mem_rejoined {existing incoming : History} {id : Str} :
    id ∈ rejoined existing incoming ↔ id ∈ existing.messages ∨ id ∈ incoming.messages := by
  rw [rejoined, rebuilt, Dict.mem_map, Dict.mem_update]

theorem parents_overlaid {existing incoming : History} :
    (∀ p ∈ (overlaid existing.messages incoming.messages).items, IsKey (field p.2 kParentId)) ↔
      ∀ id message, (existing.messages.update incoming.messages).get? id = some message →
        IsKey (field message kParentId) := by
  constructor
  · intro h id message hmessage
    have hitem : (id, message.set kChildrenIds (.list [])) ∈ (overlaid existing.messages incoming.messages).items := by
      rw [← Dict.get?_eq_some_iff, overlaid, Dict.get?_map, hmessage, Option.map_some]
    rw [← field_setChildren]
    exact h _ hitem
  · rintro h ⟨id, message⟩ hp
    have hmessage := Dict.get?_eq_some_iff.mpr hp
    rw [overlaid, Dict.get?_map, Option.map_eq_some_iff] at hmessage
    obtain ⟨old, hold, rfl⟩ := hmessage
    show IsKey (field (old.set kChildrenIds (.list [])) kParentId)
    rw [field_setChildren]
    exact h id old hold

/-- The id that a value is looked up by names a message or not. -/
theorem isSome_lookup {messages : Dict Str Obj} {v : Val} :
    (v.text?.bind messages.get?).isSome = true ↔ ∃ id, v = .str id ∧ id ∈ messages := by
  cases v with
  | str s =>
    simp only [Val.text?, Option.bind_some, Val.str.injEq, exists_eq_left', Dict.mem_iff]
    exact Option.isSome_iff_exists
  | none | bool b | int n | float x | list vs | dict items => simp [Val.text?]

/-- **When two histories can be merged**, and what they are merged into. -/
theorem merge_history_eq (existing incoming : Option History) :
    (¬ Mergeable (existing.getD .empty) (incoming.getD .empty) → merge_history existing incoming = none) ∧
      (Mergeable (existing.getD .empty) (incoming.getD .empty) → merge_history existing incoming =
        some ⟨rejoined (existing.getD .empty) (incoming.getD .empty),
          mergedCurrent (existing.getD .empty) (incoming.getD .empty),
          (existing.getD .empty).others.update (incoming.getD .empty).others⟩) := by
  unfold merge_history
  generalize existing.getD .empty = ex
  generalize incoming.getD .empty = inc
  have hfold := foldlM_adopt (ex.messages.update inc.messages) (overlaid ex.messages inc.messages).items []
  rw [← overlaid_eq_rebuilt, List.nil_append, ← rejoined] at hfold
  have hstep : ((ex.messages.update inc.messages).map fun _ message => message.set kChildrenIds (.list [])) =
      overlaid ex.messages inc.messages := rfl
  simp only [hstep, hfold, Option.bind_eq_bind]
  have hnamed : (inc.currentId.text?.bind (rejoined ex inc).get?).isSome = true ↔
      ∃ id, inc.currentId = .str id ∧ (id ∈ ex.messages ∨ id ∈ inc.messages) := by
    rw [isSome_lookup]
    exact exists_congr fun id => and_congr_right fun _ => mem_rejoined
  by_cases hparents : ∀ p ∈ (overlaid ex.messages inc.messages).items, IsKey (field p.2 kParentId)
  case neg =>
    rw [if_neg hparents]
    exact ⟨fun _ => rfl, fun h => absurd (parents_overlaid.mpr h.parents) hparents⟩
  rw [if_pos hparents, Option.bind_some]
  by_cases hinc : IsKey inc.currentId
  case neg =>
    rw [find?_of_not_isKey _ hinc]
    exact ⟨fun _ => rfl, fun h => absurd h.asked hinc⟩
  rw [find?_of_isKey _ hinc, Option.bind_some]
  unfold mergedCurrent
  cases hfound : inc.currentId.text?.bind (rejoined ex inc).get? with
  | some message =>
    rw [hfound] at hnamed
    exact ⟨fun h => absurd ⟨parents_overlaid.mp hparents, hinc, Or.inl (hnamed.mp rfl)⟩ h, fun _ => rfl⟩
  | none =>
    rw [hfound] at hnamed
    by_cases hex : IsKey ex.currentId
    · simp only [find?_of_isKey _ hex, Option.bind_some]
      refine ⟨fun h => absurd ⟨parents_overlaid.mp hparents, hinc, Or.inr hex⟩ h, fun _ => ?_⟩
      cases ex.currentId.text?.bind (rejoined ex inc).get? <;> rfl
    · rw [find?_of_not_isKey _ hex]
      refine ⟨fun _ => rfl, fun h => absurd h.fallback ?_⟩
      exact not_or.mpr ⟨fun hid => Bool.false_ne_true (hnamed.mpr hid), hex⟩

theorem get?_rejoined {existing incoming : History} {id : Str} {merged : Obj}
    (h : (rejoined existing incoming).get? id = some merged) :
    ∃ message children, (existing.messages.update incoming.messages).get? id = some message ∧
      merged = message.set kChildrenIds children := by
  rw [rejoined, get?_rebuilt, Option.map_eq_some_iff] at h
  obtain ⟨message, hmessage, rfl⟩ := h
  exact ⟨message, _, hmessage, rfl⟩

/-- The parents are those that the messages of the two histories name. -/
theorem parentOf_rejoined (existing incoming : History) :
    parentOf (rejoined existing incoming) = parentOf (existing.messages.update incoming.messages) := by
  funext c
  cases hmessage : (existing.messages.update incoming.messages).get? c with
  | none =>
    have hget : (rejoined existing incoming).get? c = none := by rw [rejoined, get?_rebuilt, hmessage, Option.map_none]
    rw [parentOf, parentOf, hget, hmessage]
  | some message =>
    have hget := get?_rebuilt (existing.messages.update incoming.messages)
      (overlaid existing.messages incoming.messages).items c
    rw [hmessage, Option.map_some] at hget
    rw [parentOf_eq (show (rejoined existing incoming).get? c = _ from hget), field_setChildren, parentOf_eq hmessage]

theorem keys_rejoined (existing incoming : History) :
    (rejoined existing incoming).keys = (existing.messages.update incoming.messages).keys := by
  rw [rejoined, rebuilt, Dict.keys_map]

theorem children_rejoined {existing incoming : History} {id : Str} {merged : Obj}
    (h : (rejoined existing incoming).get? id = some merged) :
    merged.get? kChildrenIds = some (.list (((rejoined existing incoming).keys.filter fun c =>
      parentOf (rejoined existing incoming) c = some id).map .str)) := by
  rw [rejoined, get?_rebuilt, Option.map_eq_some_iff] at h
  obtain ⟨message, -, rfl⟩ := h
  have hkeys : (rejoined existing incoming).keys = (overlaid existing.messages incoming.messages).items.map Prod.fst := by
    rw [keys_rejoined]
    exact (Dict.keys_map _ _).symm
  rw [Dict.get?_set_self, hkeys, List.filter_map, List.map_map]
  refine congrArg (fun l : List (Str × Obj) => some (Val.list (l.map fun p => .str p.1))) (List.filter_congr fun p hp => ?_)
  rw [Function.comp_apply, parentOf_rejoined, decide_eq_decide]
  have hmessage := Dict.get?_eq_some_iff.mpr hp
  rw [overlaid, Dict.get?_map, Option.map_eq_some_iff] at hmessage
  obtain ⟨old, hold, heq⟩ := hmessage
  rw [parentOf_eq hold, ← heq, field_setChildren]

theorem mergedCurrent_named (existing incoming : History) : mergedCurrent existing incoming = .none ∨
    ∃ id ∈ rejoined existing incoming, mergedCurrent existing incoming = .str id := by
  unfold mergedCurrent
  split
  · rename_i h
    obtain ⟨id, hstr, hid⟩ := isSome_lookup.mp h
    exact Or.inr ⟨id, hid, hstr⟩
  · split
    · rename_i h
      obtain ⟨id, hstr, hid⟩ := isSome_lookup.mp h
      exact Or.inr ⟨id, hid, hstr⟩
    · exact Or.inl rfl

theorem merges (existing incoming : History) : Merges existing incoming
    ⟨rejoined existing incoming, mergedCurrent existing incoming, existing.others.update incoming.others⟩ := by
  have hkept : ∀ id message, (existing.messages.update incoming.messages).get? id = some message →
      ∃ merged, (rejoined existing incoming).get? id = some merged ∧
        ∀ key, key ≠ kChildrenIds → merged.get? key = message.get? key := by
    intro id message hmessage
    have hget := get?_rebuilt (existing.messages.update incoming.messages)
      (overlaid existing.messages incoming.messages).items id
    rw [hmessage, Option.map_some] at hget
    exact ⟨_, hget, fun key hkey => Dict.get?_set_of_ne _ _ hkey⟩
  refine ⟨fun id => mem_rejoined, fun id message h => hkept id message ?_, fun id message hnot h => hkept id message ?_,
    fun id merged h => children_rejoined h, mergedCurrent_named existing incoming⟩
  · rw [Dict.get?_update, h, Option.some_or]
  · rw [Dict.get?_update, Dict.get?_eq_none_iff.mpr hnot, Option.none_or, h]

/-! ## Merging again -/

/-- The merged messages under the incoming ones, again. -/
theorem overlaid_rejoined (existing incoming : History) :
    overlaid (rejoined existing incoming) incoming.messages = overlaid existing.messages incoming.messages := by
  refine Dict.ext ?_ fun id => ?_
  · rw [overlaid, overlaid, Dict.keys_map, Dict.keys_map, Dict.keys_update, keys_rejoined]
    intro id hid
    exact mem_rejoined.mpr (Or.inr hid)
  · rw [overlaid, overlaid, Dict.get?_map, Dict.get?_map, Dict.get?_update, Dict.get?_update]
    cases hin : incoming.messages.get? id with
    | some message => rw [Option.some_or, Option.some_or]
    | none =>
      rw [Option.none_or, Option.none_or, rejoined, get?_rebuilt, Dict.get?_update, hin, Option.none_or, Option.map_map]
      refine congrArg (fun f => Option.map f (existing.messages.get? id)) (funext fun message => ?_)
      exact Dict.set_set _ _ _ _

theorem rejoined_again (existing incoming h : History) (hmessages : h.messages = rejoined existing incoming) :
    rejoined h incoming = rejoined existing incoming := by
  refine Dict.ext ?_ fun id => ?_
  · rw [keys_rejoined, hmessages, Dict.keys_update]
    intro id hid
    exact mem_rejoined.mpr (Or.inr hid)
  · have hsame : ∀ items, (rebuilt (h.messages.update incoming.messages) items).get? id =
        (rebuilt (existing.messages.update incoming.messages) items).get? id := by
      intro items
      rw [get?_rebuilt, get?_rebuilt, Dict.get?_update, Dict.get?_update, hmessages]
      cases hin : incoming.messages.get? id with
      | some message => rw [Option.some_or, Option.some_or]
      | none =>
        rw [Option.none_or, Option.none_or, rejoined, get?_rebuilt, Dict.get?_update, hin, Option.none_or, Option.map_map]
        refine congrArg (fun f => Option.map f (existing.messages.get? id)) (funext fun message => ?_)
        exact Dict.set_set _ _ _ _
    show (rebuilt (h.messages.update incoming.messages) (overlaid h.messages incoming.messages).items).get? id = _
    rw [hsame, hmessages, overlaid_rejoined, ← rejoined]

theorem mergedCurrent_again (existing incoming h : History) (hmessages : h.messages = rejoined existing incoming)
    (hcurrent : h.currentId = mergedCurrent existing incoming) :
    mergedCurrent h incoming = mergedCurrent existing incoming := by
  have hunfold : mergedCurrent existing incoming =
      if (incoming.currentId.text?.bind (rejoined existing incoming).get?).isSome then incoming.currentId
      else if (existing.currentId.text?.bind (rejoined existing incoming).get?).isSome then existing.currentId
      else .none := rfl
  rw [mergedCurrent, rejoined_again existing incoming h hmessages, hcurrent]
  split
  · rename_i hin
    rw [hunfold, if_pos hin]
  · rcases mergedCurrent_named existing incoming with hnone | ⟨id, hid, hstr⟩
    · rw [hnone, ite_self]
    · rw [if_pos (isSome_lookup.mpr ⟨id, hstr, hid⟩)]

theorem update_again (others others' : Obj) : (others.update others').update others' = others.update others' := by
  refine Dict.ext (Dict.keys_update fun key hkey => Dict.mem_update.mpr (Or.inr hkey)) fun key => ?_
  rw [Dict.get?_update, Dict.get?_update, ← Option.or_assoc, Option.or_self]

/-- **Two histories are merged** exactly when all that is looked up are keys, and merging the incoming one again changes
nothing. -/
theorem merge_history_spec (existing incoming : Option History) :
    (¬ Mergeable (existing.getD .empty) (incoming.getD .empty) ∧ merge_history existing incoming = none) ∨
      ∃ h', Mergeable (existing.getD .empty) (incoming.getD .empty) ∧ merge_history existing incoming = some h' ∧
        Merges (existing.getD .empty) (incoming.getD .empty) h' ∧ merge_history (some h') incoming = some h' := by
  by_cases h : Mergeable (existing.getD .empty) (incoming.getD .empty)
  case neg => exact Or.inl ⟨h, (merge_history_eq existing incoming).1 h⟩
  have hmerged := (merge_history_eq existing incoming).2 h
  refine Or.inr ⟨_, h, hmerged, merges _ _, ?_⟩
  generalize existing.getD .empty = ex at *
  generalize hinc : incoming.getD .empty = inc at *
  let h' : History := ⟨rejoined ex inc, mergedCurrent ex inc, ex.others.update inc.others⟩
  have hagain : Mergeable h' inc := by
    refine ⟨fun id message hmessage => ?_, h.asked, Or.inr ?_⟩
    · rw [Dict.get?_update] at hmessage
      cases hin : inc.messages.get? id with
      | some m =>
        rw [hin, Option.some_or] at hmessage
        cases hmessage
        exact h.parents id message (by rw [Dict.get?_update, hin, Option.some_or])
      | none =>
        rw [hin, Option.none_or] at hmessage
        obtain ⟨m, children, hm, rfl⟩ := get?_rejoined hmessage
        rw [field_setChildren]
        exact h.parents id m hm
    · show IsKey (mergedCurrent ex inc)
      rcases mergedCurrent_named ex inc with hnone | ⟨id, -, hstr⟩
      · rw [hnone]
        trivial
      · rw [hstr]
        trivial
  have hresult := (merge_history_eq (some h') incoming).2 (by rw [hinc]; exact hagain)
  rw [hinc, Option.getD_some, rejoined_again ex inc h' rfl, mergedCurrent_again ex inc h' rfl rfl] at hresult
  rw [hresult]
  exact congrArg some (congrArg (History.mk _ _) (update_again _ _))

/-- A message whose parent is a list. -/
def listParent : History := ⟨Dict.empty.set (py "m") (Dict.empty.set kParentId (.list [])), .none, .empty⟩

/-- A list cannot be looked up: nothing is merged. -/
theorem unmerged_listParent : merge_history (some listParent) (some .empty) = none := by
  rcases merge_history_eq (some listParent) (some .empty) with ⟨hnone, -⟩
  refine hnone fun h => ?_
  exact h.parents (py "m") (Dict.empty.set kParentId (.list [])) rfl

end Chats
end MaterialOpenWebui
