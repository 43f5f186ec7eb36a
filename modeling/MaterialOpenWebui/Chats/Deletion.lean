import MaterialOpenWebui.Chats.Tree

/-!
# `Chats.Deletion` — deleting a message from a tree

`delete_message_from_history` takes a message out with its children and moves its grandchildren up to its
parent. On a tree the lists it reads are the children and grandchildren by the parents, so what it leaves is
described by the parents alone (`splice_spec`), and every new link was a chain of old ones. Its walk to
a new current message goes down the tree, so it ends, at a leaf.
-/

namespace MaterialOpenWebui
namespace Chats
open Py Forest

/-! ## What is read -/

theorem present_eq {messages : Dict Str Obj} {ids : List Str} (h : ∀ id ∈ ids, id ∈ messages) :
    present messages (ids.map .str) = some ids := by
  induction ids with
  | nil => rfl
  | cons id ids ih =>
    obtain ⟨message, hmessage⟩ := Dict.mem_iff.mp (h id List.mem_cons_self)
    rw [List.map_cons, present, ih fun c hc => h c (List.mem_cons_of_mem _ hc), find?, hmessage]
    rfl

theorem iterate_or {vs : List Val} : iterate ((Val.list vs).or (.list [])) = some vs := by
  cases vs <;> rfl

variable {messages : Dict Str Obj}

/-- The message is there, and these are its children as it lists them. -/
def Lists (messages : Dict Str Obj) (id : Str) (ids : List Str) : Prop :=
  (messages.get? id).bind (·.get? kChildrenIds) = some (.list (ids.map .str))

/-- The children that a message lists are those that name it. -/
theorem childIds_eq (hl : Linked messages (IsParent (parentOf messages))) {id : Str} {message : Obj}
    (hmessage : messages.get? id = some message) :
    ∃ ids, childIds messages message = some ids ∧ Lists messages id ids ∧ ids.Nodup ∧
      ∀ c, c ∈ ids ↔ parentOf messages c = some id := by
  obtain ⟨ids, hids, hnodup, hmem⟩ := hl id message hmessage
  refine ⟨ids, ?_, ?_, hnodup, hmem⟩
  · rw [childIds, field_eq hids, iterate_or]
    exact present_eq fun c hc => mem_of_parentOf ((hmem c).mp hc)
  · rw [Lists, hmessage, Option.bind_some, hids]

theorem grandchildIds_eq (hl : Linked messages (IsParent (parentOf messages))) {ids : List Str}
    (hids : ∀ id ∈ ids, id ∈ messages) (hnodup : ids.Nodup) :
    ∃ lists, (ids.mapM fun id => childIds messages ((messages.get? id).getD .empty)) = some lists ∧
      List.Forall₂ (Lists messages) ids lists ∧ lists.flatten.Nodup ∧
        ∀ c, c ∈ lists.flatten ↔ ∃ id ∈ ids, parentOf messages c = some id := by
  induction ids with
  | nil => exact ⟨[], rfl, .nil, List.nodup_nil, fun c => by simp⟩
  | cons id ids ih =>
    obtain ⟨hnot, hrest⟩ := List.nodup_cons.mp hnodup
    obtain ⟨lists, hlists, hlisted, hflat, hmem⟩ := ih (fun c hc => hids c (List.mem_cons_of_mem _ hc)) hrest
    obtain ⟨message, hmessage⟩ := Dict.mem_iff.mp (hids id List.mem_cons_self)
    obtain ⟨kids, hkids, hkidsListed, hkidsNodup, hkidsMem⟩ := childIds_eq hl hmessage
    refine ⟨kids :: lists, ?_, .cons hkidsListed hlisted, ?_, fun c => ?_⟩
    · rw [List.mapM_cons, hmessage, Option.getD_some, hkids, hlists]
      rfl
    · rw [List.flatten_cons]
      refine List.nodup_append.mpr ⟨hkidsNodup, hflat, ?_⟩
      rintro a ha _ hb rfl
      obtain ⟨id', hid', hparent'⟩ := (hmem a).mp hb
      have hparent := (hkidsMem a).mp ha
      rw [hparent] at hparent'
      cases hparent'
      exact hnot hid'
    · rw [List.flatten_cons, List.mem_append, hkidsMem, hmem]
      simp

/-! ## What is left -/

/-- `messages[id]['parentId'] = parent_id` for some of the messages. -/
theorem get?_assigned (parent_id : Val) (ids : List Str) (c : Str) :
    (ids.foldl (fun messages id => assign messages id kParentId parent_id) messages).get? c =
      (messages.get? c).map fun message => if c ∈ ids then message.set kParentId parent_id else message := by
  induction ids generalizing messages with
  | nil => simp
  | cons id ids ih =>
    have hassign : (assign messages id kParentId parent_id).get? c =
        (messages.get? c).map fun message => if c = id then message.set kParentId parent_id else message := by
      unfold assign
      cases hmessage : messages.get? id with
      | none =>
        by_cases hc : c = id
        · simp [hc, hmessage]
        · simp [hc]
      | some message =>
        by_cases hc : c = id
        · simp [hc, hmessage]
        · simp [hc, Dict.get?_set_of_ne]
    rw [List.foldl_cons, ih, hassign, Option.map_map]
    congr 1
    funext message
    by_cases hid : c = id <;> by_cases hids : c ∈ ids <;> simp [hid, hids, Dict.set_set]

theorem keys_assigned (parent_id : Val) (ids : List Str) :
    (ids.foldl (fun messages id => assign messages id kParentId parent_id) messages).keys = messages.keys := by
  induction ids generalizing messages with
  | nil => rfl
  | cons id ids ih =>
    rw [List.foldl_cons, ih]
    unfold assign
    split
    · rename_i message hmessage
      exact Dict.keys_set_of_mem _ (Dict.mem_of_get? hmessage)
    · rfl

theorem assign_spec {listed : Str → Str → Prop} (hl : Linked messages listed) (parent_id : Val) (ids : List Str) :
    let messages' := ids.foldl (fun messages id => assign messages id kParentId parent_id) messages
    (∀ c, c ∈ messages' ↔ c ∈ messages) ∧ Linked messages' listed ∧
      (∀ c message', messages'.get? c = some message' → ∃ message, messages.get? c = some message ∧
        field message' kParentId = if c ∈ ids then parent_id else field message kParentId) := by
  refine ⟨fun c => ?_, fun c message' h => ?_, fun c message' h => ?_⟩
  · rw [Dict.mem_iff_mem_keys, keys_assigned, Dict.mem_iff_mem_keys]
  · rw [get?_assigned, Option.map_eq_some_iff] at h
    obtain ⟨message, hmessage, rfl⟩ := h
    obtain ⟨kids, hkids, hrest⟩ := hl c message hmessage
    have hne : kChildrenIds ≠ kParentId := by decide
    refine ⟨kids, ?_, hrest⟩
    split
    · exact (Dict.get?_set_of_ne _ _ hne).trans hkids
    · exact hkids
  · rw [get?_assigned, Option.map_eq_some_iff] at h
    obtain ⟨message, hmessage, rfl⟩ := h
    refine ⟨message, hmessage, ?_⟩
    split
    · rw [field_set, if_pos rfl]
    · rfl

theorem get?_foldl_erase (ids : List Str) (c : Str) :
    (ids.foldl Dict.erase messages).get? c = if c ∈ ids then none else messages.get? c := by
  induction ids generalizing messages with
  | nil => simp
  | cons id ids ih =>
    rw [List.foldl_cons, ih, Dict.get?_erase]
    by_cases hc : c = id <;> simp [hc]

theorem keys_foldl_erase (ids : List Str) :
    (ids.foldl Dict.erase messages).keys = messages.keys.filter (· ∉ ids) := by
  induction ids generalizing messages with
  | nil => simp
  | cons id ids ih =>
    have herase : (messages.erase id).keys = messages.keys.filter (· ≠ id) := by
      rw [Dict.keys, Dict.keys, List.filter_map]
      rfl
    rw [List.foldl_cons, ih, herase, List.filter_filter]
    refine List.filter_congr fun c _ => ?_
    rw [Bool.eq_iff_iff]
    simp [and_comm]

theorem filter_ne_str (ids : List Str) (s : Str) :
    (ids.map Val.str).filter (fun v => !v.eq (.str s)) = (ids.filter (· ≠ s)).map .str := by
  rw [List.filter_map]
  congr 1
  apply List.filter_congr
  intro id _
  show (!Val.eq (.str id) (.str s)) = decide (id ≠ s)
  rw [Val.eq]
  simp [Val.text?, beq_eq_decide, eq_comm]

/-- The parent lists the grandchildren in place of the message. -/
theorem relist_parent {parent id : Str} {old : Obj} {ids : List Str} (hold : messages.get? parent = some old)
    (hids : old.get? kChildrenIds = some (.list (ids.map .str))) (grandkids : List Str) :
    relist messages id (.str parent) grandkids =
      some (messages.set parent (old.set kChildrenIds (.list ((ids.filter (· ≠ id) ++ grandkids).map .str)))) := by
  simp only [relist, find?, hold, Option.bind_eq_bind, Option.bind_some, field_eq hids, iterate_or, filter_ne_str,
    List.map_append]

theorem relist_spec (hf : Forested messages) (hl : Linked messages (IsParent (parentOf messages))) {id : Str}
    {message : Obj} (hmessage : messages.get? id = some message) {grandkids : List Str} (hnodup : grandkids.Nodup)
    (hapart : ∀ c ∈ grandkids, parentOf messages c ≠ parentOf messages id) :
    ∃ messages', relist messages id (field message kParentId) grandkids = some messages' ∧
      messages'.keys = messages.keys ∧ parentOf messages' = parentOf messages ∧ Forested messages' ∧
      (Linked messages' fun q c =>
        parentOf messages c = some q ∧ c ≠ id ∨ parentOf messages id = some q ∧ c ∈ grandkids) ∧
      (∀ c m', messages'.get? c = some m' → ∃ m, messages.get? c = some m ∧
        (∀ key, key ≠ kChildrenIds → m'.get? key = m.get? key) ∧ (parentOf messages id ≠ some c → m' = m)) ∧
      ∀ p ids, parentOf messages id = some p → Lists messages p ids →
        Lists messages' p (ids.filter (· ≠ id) ++ grandkids) := by
  have hparentOf : parentOf messages id = (field message kParentId).text? := parentOf_eq hmessage
  rcases hf.parents id message hmessage with hnone | ⟨parent, hparent, hstr⟩
  · have hroot : parentOf messages id = none := by rw [hparentOf, hnone]; rfl
    refine ⟨messages, by rw [hnone]; rfl, rfl, rfl, hf, hl.congr fun q c => ?_, fun c m hm => ⟨m, hm, fun _ _ => rfl, fun _ => rfl⟩,
      fun p ids hp => ?_⟩
    · rw [IsParent, hroot]
      constructor
      · intro hc
        refine Or.inl ⟨hc, ?_⟩
        rintro rfl
        rw [hroot] at hc
        cases hc
      · rintro (⟨hc, -⟩ | ⟨hc, -⟩)
        · exact hc
        · cases hc
    · rw [hroot] at hp
      cases hp
  · obtain ⟨old, hold⟩ := Dict.mem_iff.mp hparent
    obtain ⟨ids, hids, hidsNodup, hmem⟩ := hl parent old hold
    have hup : parentOf messages id = some parent := by rw [hparentOf, hstr]; rfl
    have hsame := field_setChildren old (.list ((ids.filter (· ≠ id) ++ grandkids).map .str))
    have hall : (ids.filter (· ≠ id) ++ grandkids).Nodup := by
      refine List.nodup_append.mpr ⟨hidsNodup.filter _, hnodup, ?_⟩
      rintro c hc _ hc' rfl
      exact hapart c hc' (((hmem c).mp (List.mem_filter.mp hc).1).trans hup.symm)
    refine ⟨_, hstr ▸ relist_parent hold hids grandkids, Dict.keys_set_of_mem _ hparent, parentOf_revise hold hsame,
      hf.revise hold hsame, ?_, ?_, ?_⟩
    · apply hl.revise _ (Dict.get?_set_self _ _ _) hall
      · intro c
        rw [List.mem_append, List.mem_filter, hmem, hup]
        simp [IsParent]
      · intro q c hq
        rw [IsParent, hup]
        constructor
        · rintro (⟨hc, -⟩ | ⟨heq, -⟩)
          · exact hc
          · exact absurd (Option.some.inj heq).symm hq
        · intro hc
          refine Or.inl ⟨hc, ?_⟩
          rintro rfl
          exact hq (Option.some.inj (hc.symm.trans hup))
    · intro c m' hm'
      rw [Dict.get?_set] at hm'
      split at hm'
      · rename_i hc
        cases hm'
        exact ⟨old, hc ▸ hold, fun key hkey => Dict.get?_set_of_ne _ _ hkey, fun hne => absurd (hc ▸ hup) hne⟩
      · exact ⟨m', hm', fun _ _ => rfl, fun _ => rfl⟩
    · intro p ids' hp hlists
      rw [hup] at hp
      cases hp
      rw [Lists, hold, Option.bind_some, hids] at hlists
      have heq : ids.map Val.str = ids'.map Val.str := Val.list.inj (Option.some.inj hlists)
      rw [← List.map_injective_iff.mpr (fun _ _ => Val.str.inj) heq, Lists, Dict.get?_set_self, Option.bind_some,
        Dict.get?_set_self]

/-- What becomes of the messages when one is deleted. -/
structure Deleted (messages messages' : Dict Str Obj) (id : Str) (kids grandkids : List Str) : Prop where
  left : messages'.keys = messages.keys.filter (· ∉ id :: kids)
  kept : ∀ c m', messages'.get? c = some m' → ∃ m, messages.get? c = some m ∧
    ∀ key, key ≠ kParentId → key ≠ kChildrenIds → m'.get? key = m.get? key
  moved : ∀ c ∈ grandkids, c ∈ messages' ∧ parentOf messages' c = parentOf messages id
  stayed : ∀ c ∈ messages', c ∉ grandkids → parentOf messages' c = parentOf messages c
  siblings : ∀ p ids, parentOf messages id = some p → Lists messages p ids →
    Lists messages' p (ids.filter (· ≠ id) ++ grandkids)
  lists : ∀ c ∈ messages', parentOf messages id ≠ some c → ∀ ids, Lists messages c ids → Lists messages' c ids

/-- The messages form a forest, and list their children. -/
def IsForest (messages : Dict Str Obj) : Prop := Forested messages ∧ Linked messages (IsParent (parentOf messages))

/-- **What is left of a forest** without a message and its children. -/
theorem splice_spec (hforest : IsForest messages) {id : Str} {message : Obj} (hmessage : messages.get? id = some message)
    {kids grandkids : List Str} (hkids : ∀ c, c ∈ kids ↔ parentOf messages c = some id) (hnodup : grandkids.Nodup)
    (hgrandkids : ∀ c, c ∈ grandkids ↔ Grandchild (parentOf messages) id c) :
    ∃ messages', splice messages id message kids grandkids = some messages' ∧ IsForest messages' ∧
      Deleted messages messages' id kids grandkids := by
  obtain ⟨hf, hl⟩ := hforest
  have hup : parentOf messages id = (field message kParentId).text? := parentOf_eq hmessage
  have hapart : ∀ c ∈ grandkids, parentOf messages c ≠ parentOf messages id := by
    intro c hc heq
    obtain ⟨kid, hkid, hparent⟩ := (hgrandkids c).mp hc
    exact hf.rooted.parent_apart (heq.symm.trans hparent) (Or.inr hkid)
  obtain ⟨messages₁, hrelist, hkeys₁, hsame₁, hf₁, hl₁, hkept₁, hsiblings₁⟩ := relist_spec hf hl hmessage hnodup hapart
  have hassign := assign_spec hl₁ (field message kParentId) grandkids
  have hkeys₂ := @keys_assigned messages₁ (field message kParentId) grandkids
  have hget₂ := @get?_assigned messages₁ (field message kParentId) grandkids
  generalize hm₂ : grandkids.foldl (fun messages id => assign messages id kParentId (field message kParentId))
    messages₁ = messages₂ at hassign hkeys₂ hget₂
  obtain ⟨-, hl₂, hfield₂⟩ := hassign
  have hsplice : splice messages id message kids grandkids = some ((id :: kids).foldl Dict.erase messages₂) := by
    rw [splice, hrelist, Option.map_some, hm₂]
  have hout : ∀ c, c ∈ id :: kids ↔ c = id ∨ parentOf messages c = some id := fun c => by
    rw [List.mem_cons, hkids]
  have hget : ∀ c, ((id :: kids).foldl Dict.erase messages₂).get? c =
      if c ∈ id :: kids then none else messages₂.get? c := get?_foldl_erase (id :: kids)
  have hleft : ((id :: kids).foldl Dict.erase messages₂).keys = messages.keys.filter (· ∉ id :: kids) := by
    rw [keys_foldl_erase, hkeys₂, hkeys₁]
  generalize (id :: kids).foldl Dict.erase messages₂ = messages' at hget hsplice hleft
  have hmem' : ∀ c, c ∈ messages' ↔ c ∈ messages ∧ ¬ (c = id ∨ parentOf messages c = some id) := by
    intro c
    rw [Dict.mem_iff_mem_keys, hleft, List.mem_filter, decide_eq_true_iff, hout, Dict.mem_iff_mem_keys]
  have hstays : ∀ c m', messages'.get? c = some m' → messages₂.get? c = some m' := by
    intro c m' hm'
    rw [hget] at hm'
    split at hm'
    · cases hm'
    · exact hm'
  -- what a message that stays names as its parent
  have hparentOf : ∀ c, c ∈ messages' →
      parentOf messages' c = if c ∈ grandkids then parentOf messages id else parentOf messages c := by
    intro c hc
    obtain ⟨m', hm'⟩ := Dict.mem_iff.mp hc
    obtain ⟨m, hm, hfield⟩ := hfield₂ c m' (hstays c m' hm')
    rw [parentOf_eq hm', hfield, hup, ← hsame₁, parentOf_eq hm]
    split <;> rfl
  have hspliced : Spliced (parentOf messages) (parentOf messages') id := by
    intro c
    refine ⟨fun hcut => parentOf_of_not_mem fun hc => ((hmem' c).mp hc).2 hcut, fun hstay hgrand => ?_,
      fun hstay hgrand => ?_⟩
    · have hgrand' := hgrand
      obtain ⟨kid, -, hparent⟩ := hgrand'
      rw [hparentOf c ((hmem' c).mpr ⟨mem_of_parentOf hparent, hstay⟩), if_pos ((hgrandkids c).mpr hgrand)]
    · by_cases hc : c ∈ messages
      · rw [hparentOf c ((hmem' c).mpr ⟨hc, hstay⟩), if_neg fun h => hgrand ((hgrandkids c).mp h)]
      · rw [parentOf_of_not_mem hc, parentOf_of_not_mem fun h => hc ((hmem' c).mp h).1]
  have hlists : ∀ c ∈ messages', ∀ ids, Lists messages₁ c ids → Lists messages' c ids := by
    intro c hc ids hids
    have hne : kChildrenIds ≠ kParentId := by decide
    have hnot : c ∉ id :: kids := fun hcut => ((hmem' c).mp hc).2 ((hout c).mp hcut)
    rw [Lists, hget, if_neg hnot, hget₂, Option.bind_map]
    rw [Lists] at hids
    rw [← hids]
    congr 1
    funext m
    show (if c ∈ grandkids then m.set kParentId (field message kParentId) else m).get? kChildrenIds = m.get? kChildrenIds
    split
    · exact Dict.get?_set_of_ne _ _ hne
    · rfl
  refine ⟨messages', hsplice, ⟨⟨?_, rooted_spliced hf.rooted hspliced⟩, ?_⟩, hleft, ?_, ?_, ?_, ?_, ?_⟩
  · intro c m' hm'
    obtain ⟨m, hm, hfield⟩ := hfield₂ c m' (hstays c m' hm')
    have hcases : field m' kParentId = .none ∨ ∃ p, field m' kParentId = .str p := by
      rw [hfield]
      split
      · exact (hf.parents id message hmessage).imp_right (Exists.imp fun _ h => h.2)
      · exact (hf₁.parents c m hm).imp_right (Exists.imp fun _ h => h.2)
    rcases hcases with hnone | ⟨p, hstr⟩
    · exact Or.inl hnone
    · have hp : parentOf messages' c = some p := by
        rw [parentOf_eq hm', hstr]
        rfl
      refine Or.inr ⟨p, (hmem' p).mpr ⟨?_, hspliced.stays hf.rooted hp⟩, hstr⟩
      rw [hparentOf c (Dict.mem_of_get? hm')] at hp
      split at hp <;> exact hf.parent_mem hp
  · intro q m' hm'
    have hq := ((hmem' q).mp (Dict.mem_of_get? hm')).2
    obtain ⟨ids, hids, hidsNodup, hmem⟩ := hl₂ q m' (hstays q m' hm')
    refine ⟨ids, hids, hidsNodup, fun c => ?_⟩
    have hlisted : c ∈ ids ↔
        parentOf messages c = some q ∧ c ≠ id ∨ parentOf messages id = some q ∧ c ∈ grandkids := hmem c
    rw [hlisted, IsParent, hspliced.child_iff hf.rooted hq, hgrandkids]
  · intro c m' hm'
    have hm₂' := hstays c m' hm'
    rw [hget₂, Option.map_eq_some_iff] at hm₂'
    obtain ⟨m₁, hm₁, rfl⟩ := hm₂'
    obtain ⟨m, hm, hsame, -⟩ := hkept₁ c m₁ hm₁
    refine ⟨m, hm, fun key hparent hchildren => ?_⟩
    rw [← hsame key hchildren]
    split
    · exact Dict.get?_set_of_ne _ _ hparent
    · rfl
  · intro c hc
    obtain ⟨kid, hkid, hparent⟩ := (hgrandkids c).mp hc
    have hstay : ¬ (c = id ∨ parentOf messages c = some id) := by
      rintro (rfl | hchild)
      · exact hf.rooted.not_grandchild_self c ⟨kid, hkid, hparent⟩
      · exact hf.rooted.not_grandchild_of_child hchild ⟨kid, hkid, hparent⟩
    have hin := (hmem' c).mpr ⟨mem_of_parentOf hparent, hstay⟩
    exact ⟨hin, by rw [hparentOf c hin, if_pos hc]⟩
  · intro c hc hnot
    rw [hparentOf c hc, if_neg hnot]
  · intro p ids hp hids
    exact hlists p ((hmem' p).mpr ⟨hf.parent_mem hp, hf.rooted.parent_apart hp⟩) _ (hsiblings₁ p ids hp hids)
  · intro c hc hother ids hids
    refine hlists c hc ids ?_
    obtain ⟨m, hm⟩ := Dict.mem_iff.mp ((hmem' c).mp hc).1
    obtain ⟨m₁, hm₁⟩ := Dict.mem_iff.mp (Dict.mem_iff_mem_keys.mpr
      (hkeys₁ ▸ Dict.mem_iff_mem_keys.mp (Dict.mem_of_get? hm)) : c ∈ messages₁)
    obtain ⟨m', hm', -, hsame⟩ := hkept₁ c m₁ hm₁
    rw [Lists, hm₁, hsame hother, ← hm']
    exact hids

/-! ## The walk -/

theorem lastOf_str {ids : List Str} (hne : ids ≠ []) :
    ∃ last ∈ ids, lastOf (.list (ids.map .str)) = some (.str last) := by
  refine ⟨ids.getLast hne, List.getLast_mem hne, ?_⟩
  rw [lastOf, List.getLast?_map, List.getLast?_eq_some_getLast hne]
  rfl

theorem lineage_mem (hf : Forested messages) {id : Str} (hid : id ∈ messages) {l : List Str}
    (hlineage : Lineage (parentOf messages) id l) : ∀ c ∈ l, c ∈ messages := by
  intro c hc
  rcases hlineage.mem_iff.mp hc with rfl | hancestor
  · exact hid
  · clear hid hlineage
    induction hancestor with
    | single hparent => exact hf.parent_mem hparent
    | tail _ _ ih => exact ih

/-- A chain of messages is no longer than there are messages. -/
theorem lineage_length_le (hf : Forested messages) {id : Str} (hid : id ∈ messages) {l : List Str}
    (hlineage : Lineage (parentOf messages) id l) : l.length ≤ messages.size := by
  have hle := hlineage.length_le messages.keys (lineage_mem hf hid hlineage)
  rwa [Dict.keys, List.length_map] at hle

/-- A message without children. -/
def Leaf (messages : Dict Str Obj) (id : Str) : Prop := id ∈ messages ∧ ∀ c, parentOf messages c ≠ some id

/-- **The walk ends at a leaf**: each step is one further from the root, `l` the chain up to it. -/
theorem descend_returns (hforest : IsForest messages) (fuel : Nat) :
    ∀ {current_id : Val} {ids l : List Str},
      (∀ c ∈ ids, c ∈ messages ∧ Lineage (parentOf messages) c (c :: l)) → l.length ≤ messages.size →
      messages.size < fuel + l.length →
      ∃ v, descend messages fuel current_id (.list (ids.map .str)) = some v ∧
        (ids = [] ∧ v = current_id ∨ ∃ leaf, Leaf messages leaf ∧ v = .str leaf) := by
  induction fuel with
  | zero =>
    intro _ _ l _ hle hfuel
    omega
  | succ fuel ih =>
    intro current_id ids l hids _ hfuel
    by_cases hempty : ids = []
    · subst hempty
      exact ⟨current_id, rfl, Or.inl ⟨rfl, rfl⟩⟩
    obtain ⟨last, hlast, hlastOf⟩ := lastOf_str hempty
    obtain ⟨hin, hlineage⟩ := hids last hlast
    obtain ⟨message, hmessage⟩ := Dict.mem_iff.mp hin
    obtain ⟨kids, hkids, -, hmem⟩ := hforest.2 last message hmessage
    have htruthy : (Val.list (ids.map .str)).truthy = true := by
      cases ids with
      | nil => exact absurd rfl hempty
      | cons => rfl
    obtain ⟨v, hv, hform⟩ := @ih (.str last) _ _
      (fun c (hc : c ∈ kids) => ⟨mem_of_parentOf ((hmem c).mp hc), .step ((hmem c).mp hc) hlineage⟩)
      (lineage_length_le hforest.1 hin hlineage) (by rw [List.length_cons]; omega)
    refine ⟨v, ?_, Or.inr ?_⟩
    · simp only [descend, if_pos htruthy, hlastOf, find?, hmessage, hkids, Option.bind_eq_bind, Option.bind_some,
        Option.getD_some]
      exact hv
    · rcases hform with ⟨hnone, rfl⟩ | hleaf
      · refine ⟨last, ⟨hin, fun c hc => ?_⟩, rfl⟩
        have hkid := (hmem c).mpr hc
        rw [hnone] at hkid
        cases hkid
      · exact hleaf

/-- In a forest without roots there is no message. -/
theorem keys_eq_nil (hf : Forested messages)
    (h : ∀ c message, messages.get? c = some message → field message kParentId ≠ .none) :
    messages.keys = [] := by
  refine List.eq_nil_iff_forall_not_mem.mpr fun c hc => ?_
  obtain ⟨l, hlineage⟩ := hf.rooted.lineage c
  obtain ⟨front, root, rfl, hroot⟩ := hlineage.last
  have hin := lineage_mem hf (Dict.mem_iff_mem_keys.mpr hc) hlineage root (List.mem_append_right front List.mem_cons_self)
  obtain ⟨message, hmessage⟩ := Dict.mem_iff.mp hin
  rcases hf.parents root message hmessage with hnone | ⟨p, -, hstr⟩
  · exact h root message hmessage hnone
  · rw [parentOf_eq hmessage, hstr] at hroot
    cases hroot

/-- The walk from the parent of a deleted message, or from the roots. -/
theorem walk_returns (hforest : IsForest messages) {parent_id : Val}
    (hparent : parent_id = .none ∨ ∃ p ∈ messages, parent_id = .str p) :
    ∃ child_ids current_id, startingChildren messages parent_id = some child_ids ∧
      descend messages (messages.size + 2) parent_id child_ids = some current_id ∧
      (messages.keys = [] ∧ current_id = .none ∨ ∃ leaf, Leaf messages leaf ∧ current_id = .str leaf) := by
  rcases hparent with rfl | ⟨parent, hparent, rfl⟩
  · let roots := (messages.items.filter fun p => (field p.2 kParentId).isNone).map Prod.fst
    have hstart : startingChildren messages .none = some (.list (roots.map .str)) := by
      rw [List.map_map]
      rfl
    have hroots : ∀ c ∈ roots, c ∈ messages ∧ Lineage (parentOf messages) c [c] := by
      intro c hc
      obtain ⟨⟨_, message⟩, hp, rfl⟩ := List.mem_map.mp hc
      obtain ⟨hitem, hnone⟩ := List.mem_filter.mp hp
      have hmessage := Dict.get?_eq_some_iff.mpr hitem
      refine ⟨Dict.mem_of_get? hmessage, .root ?_⟩
      rw [parentOf_eq hmessage]
      revert hnone
      cases field message kParentId <;> simp [Val.isNone, Val.text?]
    obtain ⟨v, hv, hform⟩ := @descend_returns messages hforest (messages.size + 2) .none _ _ hroots (Nat.zero_le _)
      (by rw [List.length_nil]; omega)
    refine ⟨_, v, hstart, hv, hform.imp_left fun hempty => ⟨?_, hempty.2⟩⟩
    refine keys_eq_nil hforest.1 fun c message hmessage hfield => ?_
    have hroot : c ∈ roots := by
      refine List.mem_map.mpr ⟨(c, message), List.mem_filter.mpr ⟨Dict.get?_eq_some_iff.mp hmessage, ?_⟩, rfl⟩
      rw [hfield]
      rfl
    rw [hempty.1] at hroot
    cases hroot
  · obtain ⟨message, hmessage⟩ := Dict.mem_iff.mp hparent
    obtain ⟨kids, hkids, -, hmem⟩ := hforest.2 parent message hmessage
    obtain ⟨l, hlineage⟩ := hforest.1.rooted.lineage parent
    have hstart : startingChildren messages (.str parent) = some (.list (kids.map .str)) := by
      have hstr : ¬ (Val.str parent).isNone = true := Bool.false_ne_true
      rw [startingChildren, if_neg hstr, find?, hmessage, Option.map_some]
      simp only [hkids, Option.getD_some]
    obtain ⟨v, hv, hform⟩ := @descend_returns messages hforest (messages.size + 2) (.str parent) _ _
      (fun c hc => ⟨mem_of_parentOf ((hmem c).mp hc), .step ((hmem c).mp hc) hlineage⟩)
      (lineage_length_le hforest.1 hparent hlineage) (by omega)
    refine ⟨_, v, hstart, hv, Or.inr ?_⟩
    rcases hform with ⟨hnone, rfl⟩ | hleaf
    · refine ⟨parent, ⟨hparent, fun c hc => ?_⟩, rfl⟩
      have hkid := (hmem c).mpr hc
      rw [hnone] at hkid
      cases hkid
    · exact hleaf

/-- What deleting a message of a forest comes to. -/
theorem delete_forest {h : History} (hforest : IsForest h.messages) {message_id : Str} (hid : message_id ∈ h.messages) :
    ∃ h' kids lists, delete_message_from_history h message_id = some (h', message_id :: kids) ∧
      Lists h.messages message_id kids ∧ List.Forall₂ (Lists h.messages) kids lists ∧
      Deleted h.messages h'.messages message_id kids lists.flatten ∧ IsForest h'.messages ∧
      (h'.messages.keys = [] ∧ h'.currentId = .none ∨ ∃ leaf, Leaf h'.messages leaf ∧ h'.currentId = .str leaf) ∧
      h'.others = h.others := by
  obtain ⟨message, hget⟩ := Dict.mem_iff.mp hid
  obtain ⟨kids, hkids, hkidsListed, hkidsNodup, hkidsMem⟩ := childIds_eq hforest.2 hget
  obtain ⟨lists, hlists, hlisted, hnodup, hmem⟩ := grandchildIds_eq hforest.2
    (fun c hc => mem_of_parentOf ((hkidsMem c).mp hc)) hkidsNodup
  have hgrandkids : ∀ c, c ∈ lists.flatten ↔ Grandchild (parentOf h.messages) message_id c := by
    intro c
    rw [hmem]
    exact exists_congr fun kid => and_congr_left' (hkidsMem kid)
  obtain ⟨messages', hsplice, hforest', hdeleted⟩ := splice_spec hforest hget hkidsMem hnodup hgrandkids
  have hparent : field message kParentId = .none ∨ ∃ p ∈ messages', field message kParentId = .str p := by
    rcases hforest.1.parents message_id message hget with hnone | ⟨p, hp, hstr⟩
    · exact Or.inl hnone
    · have hup : parentOf h.messages message_id = some p := by
        rw [parentOf_eq hget, hstr]
        rfl
      refine Or.inr ⟨p, ?_, hstr⟩
      rw [Dict.mem_iff_mem_keys, hdeleted.left, List.mem_filter, decide_eq_true_iff, List.mem_cons, hkidsMem]
      exact ⟨hp, hforest.1.rooted.parent_apart hup⟩
  obtain ⟨child_ids, current_id, hstart, hwalk, hcurrent⟩ := walk_returns hforest' hparent
  obtain ⟨found, hfound, hsome⟩ : ∃ found, find? messages' current_id = some found ∧
      (found.isSome = true ∨ current_id = .none) := by
    rcases hcurrent with ⟨-, rfl⟩ | ⟨leaf, hleaf, rfl⟩
    · exact ⟨none, rfl, Or.inr rfl⟩
    · obtain ⟨m, hm⟩ := Dict.mem_iff.mp hleaf.1
      exact ⟨some m, congrArg some hm, Or.inl rfl⟩
  have hresult : (if found.isSome = true then current_id else .none) = current_id := by
    rcases hsome with hsome | hnone
    · rw [if_pos hsome]
    · rw [hnone, ite_self]
  refine ⟨{ h with messages := messages', currentId := current_id },
    kids, lists, ?_, hkidsListed, hlisted, hdeleted, hforest',
    hcurrent, rfl⟩
  rw [delete_message_from_history, hget]
  simp only [hkids, hlists, hsplice, hstart, hwalk, hfound, hresult, Option.bind_eq_bind, Option.bind_some]

theorem Lists.mem_iff (hl : Linked messages (IsParent (parentOf messages))) {id : Str} {ids : List Str}
    (h : Lists messages id ids)
    (c : Str) : c ∈ ids ↔ parentOf messages c = some id := by
  obtain ⟨message, hmessage, hlisted⟩ := Option.bind_eq_some_iff.mp h
  obtain ⟨ids', hids', -, hmem⟩ := hl id message hmessage
  rw [hids'] at hlisted
  rw [← List.map_injective_iff.mpr (fun _ _ => Val.str.inj) (Val.list.inj (Option.some.inj hlisted))]
  exact hmem c

/-- **Deleting a message of a forest** takes it out with its children, hangs its grandchildren under its parent, behind its
siblings, and leaves a forest of which a leaf is current. -/
theorem deleted_from_forest {h : History} (hforest : IsForest h.messages) {message_id : Str} (hid : message_id ∈ h.messages) :
    ∃ h' kids lists, delete_message_from_history h message_id = some (h', message_id :: kids) ∧
      (∀ c, c ∈ kids ↔ parentOf h.messages c = some message_id) ∧
      (∀ c, c ∈ h'.messages ↔ c ∈ h.messages ∧ c ≠ message_id ∧ parentOf h.messages c ≠ some message_id) ∧
      Lists h.messages message_id kids ∧ List.Forall₂ (Lists h.messages) kids lists ∧
      Deleted h.messages h'.messages message_id kids lists.flatten ∧ IsForest h'.messages ∧
      (h'.messages.keys = [] ∧ h'.currentId = .none ∨ ∃ leaf, Leaf h'.messages leaf ∧ h'.currentId = .str leaf) ∧
      h'.others = h.others := by
  obtain ⟨h', kids, lists, hdelete, hkids, hlists, hdeleted, hrest⟩ := delete_forest hforest hid
  have hmem := hkids.mem_iff hforest.2
  refine ⟨h', kids, lists, hdelete, hmem, fun c => ?_, hkids, hlists, hdeleted, hrest⟩
  rw [Dict.mem_iff_mem_keys, hdeleted.left, List.mem_filter, decide_eq_true_iff, List.mem_cons, hmem, not_or,
    Dict.mem_iff_mem_keys]

/-- **Deleting any message of a tree leaves a tree.** -/
theorem delete_spec {h : History} (htree : Tree h) (message_id : Str) :
    ∃ h' ids, delete_message_from_history h message_id = some (h', ids) ∧ Tree h' := by
  by_cases hid : message_id ∈ h.messages
  · obtain ⟨h', kids, lists, hdelete, -, -, hdeleted, hforest, hcurrent, -⟩ :=
      delete_forest ⟨htree.grown.forested, htree.linked⟩ hid
    refine ⟨h', _, hdelete, ⟨fun hempty => htree.grown.named ?_, hforest.1.parents, hforest.1.rooted⟩, hforest.2, ?_⟩
    · rw [Dict.mem_iff_mem_keys, hdeleted.left] at hempty
      exact (List.mem_filter.mp hempty).1
    · exact hcurrent.imp And.right fun ⟨leaf, hleaf, heq⟩ => ⟨leaf, hleaf.1, heq⟩
  · exact ⟨h, [], by rw [delete_message_from_history, Dict.get?_eq_none_iff.mpr hid], htree⟩

/-! ## Histories that come about -/

/-- The histories that the operations and their callers make of the empty one. -/
inductive Reachable : History → Prop
  | empty : Reachable .empty
  | message {h h' : History} {id : Str} {message : Obj} {now : Int} (hreach : Reachable h)
      (hnew : id ∉ h.messages) (hnames : Names h.messages message) (hchildless : Childless message)
      (hsave : saveUserMessage h id message now = some h') : Reachable h'
  | replies {h h' : History} {user_message_id : Str} {replies : List (Str × Obj)} {now : Int}
      (hreach : Reachable h) (huser : user_message_id ∈ h.messages) (hnodup : (replies.map Prod.fst).Nodup)
      (hreplies : ∀ p ∈ replies, p.1 ∉ h.messages ∧ field p.2 kParentId = .str user_message_id ∧ Childless p.2)
      (hsave : saveReplies h user_message_id replies now = some h') : Reachable h'
  | update {h h' : History} {message_id : Str} {existing message saved : Obj} {now : Int} (hreach : Reachable h)
      (hexisting : h.messages.get? message_id = some existing)
      (hparent : (existing.update message).get? kParentId = existing.get? kParentId)
      (hchildren : (existing.update message).get? kChildrenIds = existing.get? kChildrenIds)
      (hupsert : upsert_message_to_history h message_id message now = some (h', saved)) : Reachable h'
  | merge {existing incoming h' : History} (hexisting : Reachable existing) (hincoming : Reachable incoming)
      (hmerge : merge_history (some existing) (some incoming) = some h') : Reachable h'
  | delete {h h' : History} {message_id : Str} {ids : List Str} (hreach : Reachable h)
      (hdelete : delete_message_from_history h message_id = some (h', ids)) : Reachable h'

theorem Reachable.tree {h : History} (hreach : Reachable h) : Tree h := by
  induction hreach with
  | empty => exact tree_empty
  | message _ hnew hnames hchildless hsave ih => exact tree_saveUserMessage ih hnew hnames hchildless hsave
  | replies _ huser hnodup hreplies hsave ih => exact tree_saveReplies ih huser hnodup hreplies hsave
  | update _ hexisting hparent hchildren hupsert ih => exact tree_update ih hexisting hparent hchildren hupsert
  | merge _ _ hmerge ihExisting ihIncoming =>
    obtain ⟨h', hmerged, htree⟩ := merge_spec ihExisting ihIncoming
    rw [hmerge] at hmerged
    cases hmerged
    exact htree
  | @delete h h' message_id ids _ hdelete ih =>
    obtain ⟨h'', ids', hdeleted, htree⟩ := delete_spec ih message_id
    rw [hdelete] at hdeleted
    cases hdeleted
    exact htree

/-- **Every history that comes about is a tree**, and any of its messages can be deleted. -/
theorem tree_of_reachable {h : History} (hreach : Reachable h) :
    Tree h ∧ ∀ message_id, (delete_message_from_history h message_id).isSome = true := by
  refine ⟨hreach.tree, fun message_id => ?_⟩
  obtain ⟨h', ids, hdelete, -⟩ := delete_spec hreach.tree message_id
  rw [hdelete]
  rfl

/-- A question. -/
def asked : Obj := Dict.empty.set kRole (.str (py "user"))

/-- An answer to it. -/
def answered : Obj := Dict.empty.set kParentId (.str (py "q"))

def question : History := (saveUserMessage .empty (py "q") asked 1772820000).getD .empty

def conversation : History := (saveReplies question (py "q") [(py "a", answered)] 1772820001).getD .empty

def deletedQuestion : Option (History × List Str) := delete_message_from_history conversation (py "q")

theorem reachable_conversation : Reachable conversation := by
  have hquestion : Reachable question := @Reachable.message .empty _ (py "q") asked 1772820000 .empty
    (by decide) (Or.inl rfl) (Or.inr rfl) rfl
  exact @Reachable.replies question _ (py "q") [(py "a", answered)] 1772820001 hquestion (by decide) (by decide)
    (fun p hp => by
      rw [List.mem_singleton.mp hp]
      exact ⟨by decide, rfl, Or.inr rfl⟩) rfl

/-- The question is deleted with its answer. -/
theorem tree_deletedQuestion : ∃ h ids, deletedQuestion = some (h, ids) ∧ ids = [py "q", py "a"] ∧ Tree h ∧
    ∀ message_id, (delete_message_from_history h message_id).isSome = true :=
  ⟨_, _, rfl, rfl, tree_of_reachable (@Reachable.delete conversation _ (py "q") _ reachable_conversation rfl)⟩

/-- A question behind the answer. -/
def asksOn : Obj := (Dict.empty.set kParentId (.str (py "a"))).set kRole (.str (py "user"))

def followedUp : History := (saveUserMessage conversation (py "f") asksOn 1772820002).getD .empty

theorem isForest_followedUp : IsForest followedUp.messages := by
  have hfollowed : Reachable followedUp := @Reachable.message conversation _ (py "f") asksOn 1772820002 reachable_conversation
    (by decide) (Or.inr ⟨py "a", by decide, rfl⟩) (Or.inr rfl) rfl
  exact ⟨hfollowed.tree.grown.forested, hfollowed.tree.linked⟩

/-- The first question is deleted with its answer, and the second one is left, as a root. -/
theorem deleted_from_followedUp : ∃ h' kids lists,
    delete_message_from_history followedUp (py "q") = some (h', py "q" :: kids) ∧
    Deleted followedUp.messages h'.messages (py "q") kids lists ∧ h'.messages.keys = [py "f"] := by
  obtain ⟨h', kids, lists, hdelete, -, -, -, -, hdeleted, -⟩ :=
    deleted_from_forest isForest_followedUp (by decide : py "q" ∈ followedUp.messages)
  have hkids : kids = [py "a"] := by
    have hsame := congrArg (Option.map Prod.snd) hdelete
    exact (List.cons.inj (Option.some.inj hsame)).2.symm
  refine ⟨h', kids, _, hdelete, hdeleted, ?_⟩
  rw [hdeleted.left, hkids]
  decide

/-- A question and its answer, each stored by `upsert_message_to_history` alone. -/
def unlinked : Option History := do
  let (h, _) ← upsert_message_to_history .empty (py "q") asked 1772820000
  let (h, _) ← upsert_message_to_history h (py "a") answered 1772820001
  some h

/-- A message that lists a child which is not there. -/
def foreseen : Option History := do
  let (h, _) ← upsert_message_to_history .empty (py "q")
    (asked.set kChildrenIds (.list [.str (py "a")])) 1772820000
  some h

/-- **Neither is a tree**: the question does not list its answer, and the child that is listed is not there. -/
theorem unlinked_child : (∃ h, unlinked = some h ∧ ¬ Tree h) ∧ ∃ h, foreseen = some h ∧ ¬ Tree h := by
  constructor
  · refine ⟨_, rfl, fun htree => ?_⟩
    obtain ⟨ids, hids, -, hmem⟩ := htree.linked (py "q") _ rfl
    have hstored : some (Val.list []) = some (Val.list (ids.map .str)) := hids
    have hempty : ids = [] := List.map_eq_nil_iff.mp (Val.list.inj (Option.some.inj hstored)).symm
    have hlisted := (hmem (py "a")).mpr rfl
    rw [hempty] at hlisted
    cases hlisted
  · refine ⟨_, rfl, fun htree => ?_⟩
    obtain ⟨ids, hids, -, hmem⟩ := htree.linked (py "q") _ rfl
    have hstored : some (Val.list [.str (py "a")]) = some (Val.list (ids.map .str)) := hids
    have hlisted : Val.str (py "a") ∈ ids.map .str := by
      rw [← Val.list.inj (Option.some.inj hstored)]
      exact List.mem_singleton_self _
    obtain ⟨id, hid, heq⟩ := List.mem_map.mp hlisted
    cases heq
    cases (hmem (py "a")).mp hid

end Chats
end MaterialOpenWebui
