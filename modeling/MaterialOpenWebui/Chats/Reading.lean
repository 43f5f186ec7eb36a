import MaterialOpenWebui.Chats.Rows
import MaterialOpenWebui.Chats.Tree

/-!
# `Chats.Reading` — the messages that rows make

What `get_messages_map_by_chat_id` returns, under each id: the message of the row, column by column, with the
list of those messages that name it as their parent. Only a message whose id is the empty text lists nobody.

The children are a fold over the messages in which every step looks the parent up in the map so far. Its
invariant is `Adopted`: each message lists the children among those that were passed.
-/

namespace MaterialOpenWebui
namespace Chats
open Py

/-! ## One row -/

theorem nodup_columns : (columns.map Prod.fst).Nodup := by decide

/-- The columns that are not NULL, under their keys. -/
def columnMessage (message_id : Str) (row : Row) : Obj :=
  (Dict.empty.set kId (.str message_id)).setEach (columnValue row) (columns.map Prod.fst)

theorem get?_columnMessage (message_id : Str) (row : Row) {c : Str × (Row → Val)} (hc : c ∈ columns) :
    (columnMessage message_id row).get? c.1 = if (c.2 row).isNone then none else some (c.2 row) := by
  have hlookup : Dict.lookup columns c.1 = some c.2 := (Dict.lookup_eq_some_iff nodup_columns).mpr hc
  have hid : ∀ c ∈ columns, c.1 ≠ kId := by decide
  rw [columnMessage, Dict.get?_setEach, if_pos (List.mem_map_of_mem hc), columnValue, hlookup, Option.bind_some,
    Dict.get?_set_of_ne _ _ (hid c hc), Dict.get?_empty, Option.or_none]

theorem field_columnMessage (message_id : Str) (row : Row) {c : Str × (Row → Val)} (hc : c ∈ columns) :
    field (columnMessage message_id row) c.1 = c.2 row := by
  rw [field, get?_columnMessage message_id row hc]
  cases hvalue : c.2 row <;> rfl

/-- Usage is repeated under `info`; the other keys are as they were. -/
theorem get?_rowMessage (message_id : Str) (row : Row) {key : Str} (hinfo : key ≠ kInfo) :
    (rowMessage message_id row).get? key =
      (if kContent ∈ columnMessage message_id row then columnMessage message_id row
        else (columnMessage message_id row).set kContent (.str [])).get? key := by
  rw [rowMessage, ← columnMessage]
  generalize (if kContent ∈ columnMessage message_id row then columnMessage message_id row
    else (columnMessage message_id row).set kContent (.str [])) = message
  split
  · exact Dict.get?_set_of_ne _ _ hinfo
  · rfl

theorem id_rowMessage (message_id : Str) (row : Row) : field (rowMessage message_id row) kId = .str message_id := by
  have hinfo : kId ≠ kInfo := by decide
  have hcontent : kId ≠ kContent := by decide
  have hcolumns : kId ∉ columns.map Prod.fst := by decide
  have hid : (columnMessage message_id row).get? kId = some (.str message_id) := by
    rw [columnMessage, Dict.get?_setEach, if_neg hcolumns, Dict.get?_set_self]
  apply field_eq
  rw [get?_rowMessage message_id row hinfo]
  split
  · exact hid
  · rw [Dict.get?_set_of_ne _ _ hcontent, hid]

/-- A column under its key, but for the content. -/
theorem field_rowMessage (message_id : Str) (row : Row) {c : Str × (Row → Val)} (hc : c ∈ columns)
    (hcontent : c.1 ≠ kContent) : field (rowMessage message_id row) c.1 = c.2 row := by
  have hinfo : ∀ c ∈ columns, c.1 ≠ kInfo := by decide
  rw [← field_columnMessage message_id row hc, field, field, get?_rowMessage message_id row (hinfo c hc)]
  split
  · rfl
  · rw [Dict.get?_set_of_ne _ _ hcontent]

/-- The content, which is the empty text where the column is NULL. -/
theorem content_rowMessage (message_id : Str) (row : Row) :
    field (rowMessage message_id row) kContent = if row.content.isNone then .str [] else row.content := by
  have hinfo : kContent ≠ kInfo := by decide
  have hcolumn : (kContent, Row.content) ∈ columns := by simp [columns]
  have hget := get?_columnMessage message_id row hcolumn
  rw [field, get?_rowMessage message_id row hinfo]
  cases hnone : row.content.isNone with
  | true =>
    simp only [hnone, if_true] at hget
    rw [if_neg (Dict.get?_eq_none_iff.mp hget), Dict.get?_set_self, if_pos rfl, Option.getD_some]
  | false =>
    simp only [hnone, Bool.false_eq_true, if_false] at hget
    rw [if_pos (Dict.mem_of_get? hget), hget, Option.getD_some, if_neg Bool.false_ne_true]

theorem children_rowMessage (message_id : Str) (row : Row) : (rowMessage message_id row).get? kChildrenIds = none := by
  have hinfo : kChildrenIds ≠ kInfo := by decide
  have hcontent : kChildrenIds ≠ kContent := by decide
  have hid : kChildrenIds ≠ kId := by decide
  have hcolumns : kChildrenIds ∉ columns.map Prod.fst := by decide
  have hnone : (columnMessage message_id row).get? kChildrenIds = none := by
    rw [columnMessage, Dict.get?_setEach, if_neg hcolumns, Dict.get?_set_of_ne _ _ hid, Dict.get?_empty]
  rw [get?_rowMessage message_id row hinfo]
  split
  · exact hnone
  · rw [Dict.get?_set_of_ne _ _ hcontent, hnone]

/-! ## Children -/

/-- Those of the messages that name the id as their parent; the empty text is nobody's. -/
def childrenAmong (items : List (Str × Obj)) (id : Str) : List Str :=
  (items.filter fun p => decide (id ≠ [] ∧ (field p.2 kParentId).text? = some id)).map Prod.fst

theorem mem_childrenAmong {items : List (Str × Obj)} {id c : Str} :
    c ∈ childrenAmong items id ↔ ∃ m, (c, m) ∈ items ∧ id ≠ [] ∧ (field m kParentId).text? = some id := by
  simp only [childrenAmong, List.mem_map, List.mem_filter, decide_eq_true_eq]
  constructor
  · rintro ⟨⟨c', m⟩, ⟨hmem, hparent⟩, rfl⟩
    exact ⟨m, hmem, hparent⟩
  · rintro ⟨m, hmem, hparent⟩
    exact ⟨(c, m), ⟨hmem, hparent⟩, rfl⟩

theorem childrenAmong_concat (items : List (Str × Obj)) (p : Str × Obj) (id : Str) :
    childrenAmong (items ++ [p]) id =
      if id ≠ [] ∧ (field p.2 kParentId).text? = some id then childrenAmong items id ++ [p.1]
      else childrenAmong items id := by
  have hsingle : childrenAmong [p] id = if id ≠ [] ∧ (field p.2 kParentId).text? = some id then [p.1] else [] := by
    by_cases hparent : id ≠ [] ∧ (field p.2 kParentId).text? = some id
    · simp [childrenAmong, hparent]
    · simp only [childrenAmong, List.filter_cons, decide_eq_false hparent, if_neg hparent]
      rfl
  have happend : childrenAmong (items ++ [p]) id = childrenAmong items id ++ childrenAmong [p] id := by
    rw [childrenAmong, List.filter_append, List.map_append]
    rfl
  rw [happend, hsingle]
  split
  · rfl
  · rw [List.append_nil]

theorem nodup_childrenAmong {items : List (Str × Obj)} (hnodup : (items.map Prod.fst).Nodup) (id : Str) :
    (childrenAmong items id).Nodup := hnodup.sublist (List.filter_sublist.map _)

/-- The message with a list of children, which it does not have while it is empty. -/
def withChildren (message : Obj) (ids : List Str) : Obj :=
  if ids = [] then message else message.set kChildrenIds (.list (ids.map .str))

/-- No message has a list of children. -/
def Unlisted (messages : Dict Str Obj) : Prop :=
  ∀ id message, messages.get? id = some message → message.get? kChildrenIds = none

theorem listChild_withChildren {message : Obj} (hnone : message.get? kChildrenIds = none) {ids : List Str} {id : Str}
    (hid : id ∉ ids) : listChild (withChildren message ids) id =
      message.set kChildrenIds (.list ((ids ++ [id]).map .str)) := by
  rw [listChild, withChildren]
  by_cases hnil : ids = []
  · rw [if_pos hnil, hnone, hnil]
    rfl
  · rw [if_neg hnil, Dict.get?_set_self]
    simp only [any_eq_str, decide_eq_false hid, Bool.false_eq_true, if_false, Dict.set_set, List.map_append]
    rfl

/-- Every message lists its children among the items that were passed. -/
def Adopted (base messages : Dict Str Obj) (items : List (Str × Obj)) : Prop :=
  ∀ id, messages.get? id = (base.get? id).map fun message => withChildren message (childrenAmong items id)

theorem adopted_nil (base : Dict Str Obj) : Adopted base base [] := by
  intro id
  cases base.get? id <;> rfl

/-- **One more message is passed**, and its parent lists it. -/
theorem adopted_step {base messages : Dict Str Obj} (hbase : Unlisted base) {items : List (Str × Obj)}
    {p : Str × Obj} (h : Adopted base messages items) (hp : p.1 ∉ items.map Prod.fst) :
    Adopted base (adoptChild messages p) (items ++ [p]) := by
  -- a message that gets no child here is as it was
  have hothers : ∀ id, ¬ (id ≠ [] ∧ (field p.2 kParentId).text? = some id) →
      messages.get? id = (base.get? id).map fun message => withChildren message (childrenAmong (items ++ [p]) id) := by
    intro id hparent
    rw [h id, childrenAmong_concat, if_neg hparent]
  intro id
  unfold adoptChild
  split
  case h_2 hnostr =>
    apply hothers
    rintro ⟨-, htext⟩
    cases hfield : field p.2 kParentId with
    | str s => exact hnostr s hfield
    | _ =>
      rw [hfield] at htext
      cases htext
  case h_1 parent_id hfield =>
  have htext : ∀ id, (field p.2 kParentId).text? = some id ↔ id = parent_id := by
    intro id
    rw [hfield, Val.text?, Option.some.injEq, eq_comm]
  by_cases hempty : parent_id = []
  · rw [if_pos hempty]
    apply hothers
    rintro ⟨hne, heq⟩
    exact hne (((htext id).mp heq).trans hempty)
  rw [if_neg hempty]
  cases hparent : messages.get? parent_id with
  | none =>
    by_cases hid : id = parent_id
    · have hnone := h parent_id
      rw [hparent, eq_comm, Option.map_eq_none_iff] at hnone
      rw [hid, hnone, Option.map_none]
      exact hparent
    · exact hothers id fun hc => hid ((htext id).mp hc.2)
  | some parent =>
    have hbaseParent := h parent_id
    rw [hparent, eq_comm, Option.map_eq_some_iff] at hbaseParent
    obtain ⟨message, hmessage, hlisted⟩ := hbaseParent
    have hnot : p.1 ∉ childrenAmong items parent_id := fun hmem => by
      obtain ⟨m, hm, -⟩ := mem_childrenAmong.mp hmem
      exact hp (List.mem_map.mpr ⟨_, hm, rfl⟩)
    have hnew := listChild_withChildren (hbase parent_id message hmessage) hnot
    rw [hlisted] at hnew
    simp only [hnew]
    rw [Dict.get?_set]
    split
    · rename_i hid
      have hlast : childrenAmong (items ++ [p]) parent_id = childrenAmong items parent_id ++ [p.1] := by
        rw [childrenAmong_concat, if_pos ⟨hempty, (htext parent_id).mpr rfl⟩]
      rw [hid, hmessage, hlast, Option.map_some, withChildren, if_neg (by simp)]
    · rename_i hid
      exact hothers id fun hc => hid ((htext id).mp hc.2)

theorem adopted_foldl {base : Dict Str Obj} (hbase : Unlisted base) (done rest : List (Str × Obj))
    (hnodup : ((done ++ rest).map Prod.fst).Nodup) {messages : Dict Str Obj} (h : Adopted base messages done) :
    Adopted base (rest.foldl adoptChild messages) (done ++ rest) := by
  induction rest generalizing done messages with
  | nil => rwa [List.append_nil]
  | cons p rest ih =>
    have happend : done ++ p :: rest = (done ++ [p]) ++ rest := by simp
    rw [happend] at hnodup ⊢
    have hp : p.1 ∉ done.map Prod.fst := by
      rw [List.map_append, List.map_append] at hnodup
      have hfront := (List.nodup_append.mp hnodup).1
      exact fun hmem => (List.nodup_append.mp hfront).2.2 p.1 hmem p.1 List.mem_cons_self rfl
    exact ih _ hnodup (adopted_step hbase h hp)

/-- **The children of a message** are those that name it as their parent, in the order of the map. -/
theorem get?_relinked {messages : Dict Str Obj} (hbase : Unlisted messages) (id : Str) :
    (relinked messages).get? id =
      (messages.get? id).map fun message =>
        message.set kChildrenIds (.list ((childrenAmong messages.items id).map .str)) := by
  have hadopted : Adopted messages (messages.items.foldl adoptChild messages) ([] ++ messages.items) :=
    adopted_foldl hbase [] messages.items messages.nodup (adopted_nil messages)
  rw [relinked, Dict.get?_map, hadopted id, List.nil_append, Option.map_map]
  cases hmessage : messages.get? id with
  | none => rfl
  | some message =>
    have hnone := hbase id message hmessage
    rw [Option.map_some, Option.map_some, Function.comp_apply, withChildren]
    by_cases hnil : childrenAmong messages.items id = []
    · rw [if_pos hnil, if_neg (Dict.get?_eq_none_iff.mp hnone), hnil]
      rfl
    · rw [if_neg hnil, if_pos (Dict.mem_set.mpr (Or.inl rfl))]

/-! ## All rows -/

section
variable {chat_id : Str}

/-- The messages of the rows, before their children are known. -/
def rowMessages (chat_id : Str) (rows : List (Str × Row)) : Dict Str Obj :=
  Dict.ofList (rows.map fun p => (messageId chat_id p.1, rowMessage (messageId chat_id p.1) p.2))

theorem get_messages_map_eq (rows : List (Str × Row)) :
    (get_messages_map_by_chat_id chat_id rows).getD .empty = relinked (rowMessages chat_id rows) := by
  rw [get_messages_map_by_chat_id]
  split
  · rename_i hempty
    rw [hempty]
    rfl
  · rfl

theorem messageId_compositeId (message_id : Str) : messageId chat_id (compositeId chat_id message_id) = message_id := by
  have hprefix : (idPrefix chat_id).isPrefixOf (compositeId chat_id message_id) = true :=
    List.isPrefixOf_iff_prefix.mpr (List.prefix_append _ _)
  rw [messageId, if_pos hprefix, compositeId, List.drop_left]

/-- The rows of a chat, all under the ids of its messages, as the database lists them. -/
structure Listed (chat_id : Str) (table : Dict Str Row) (rows : List (Str × Row)) : Prop where
  perm : rows.Perm table.items
  keys : ∀ k ∈ table, ∃ id, k = compositeId chat_id id

theorem lookup_messages {rows : List (Str × Row)} (hkeys : ∀ p ∈ rows, ∃ id, p.1 = compositeId chat_id id) (id : Str) :
    Dict.lookup (rows.map fun p => (messageId chat_id p.1, rowMessage (messageId chat_id p.1) p.2)) id =
      (Dict.lookup rows (compositeId chat_id id)).map (rowMessage id) := by
  induction rows with
  | nil => rfl
  | cons p rows ih =>
    obtain ⟨id', hid'⟩ := hkeys p List.mem_cons_self
    have hmessage : messageId chat_id p.1 = id' := by rw [hid', messageId_compositeId]
    have hsame : compositeId chat_id id = p.1 ↔ id = id' := by
      rw [hid']
      exact ⟨compositeId_inj, fun h => by rw [h]⟩
    rw [List.map_cons, Dict.lookup_cons, Dict.lookup_cons, ih fun q hq => hkeys q (List.mem_cons_of_mem _ hq), hmessage]
    by_cases hid : id = id'
    · rw [if_pos hid, if_pos (hsame.mpr hid), hid, Option.map_some]
    · rw [if_neg hid, if_neg fun h => hid (hsame.mp h)]

theorem Listed.nodup {table : Dict Str Row} {rows : List (Str × Row)} (h : Listed chat_id table rows) :
    (rows.map Prod.fst).Nodup := (h.perm.map Prod.fst).nodup_iff.mpr table.nodup

theorem Listed.key {table : Dict Str Row} {rows : List (Str × Row)} (h : Listed chat_id table rows) :
    ∀ p ∈ rows, ∃ id, p.1 = compositeId chat_id id :=
  fun _ hp => h.keys _ (List.mem_map_of_mem (h.perm.mem_iff.mp hp))

/-- The order of the rows does not matter to what is under an id. -/
theorem Listed.lookup {table : Dict Str Row} {rows : List (Str × Row)} (h : Listed chat_id table rows) (k : Str) :
    Dict.lookup rows k = table.get? k := by
  apply Option.ext
  intro row
  rw [Dict.lookup_eq_some_iff h.nodup, Dict.get?_eq_some_iff, h.perm.mem_iff]

theorem get?_rowMessages {table : Dict Str Row} {rows : List (Str × Row)} (h : Listed chat_id table rows) (id : Str) :
    (rowMessages chat_id rows).get? id = (table.get? (compositeId chat_id id)).map (rowMessage id) := by
  have hnodup : ((rows.map fun p => (messageId chat_id p.1, rowMessage (messageId chat_id p.1) p.2)).map
      Prod.fst).Nodup := by
    rw [List.map_map]
    refine h.nodup.of_map.map_on fun p hp q hq heq => ?_
    obtain ⟨id, hid⟩ := h.key p hp
    obtain ⟨id', hid'⟩ := h.key q hq
    have hids : id = id' := by
      simpa [hid, hid', messageId_compositeId] using heq
    have hfst : p.1 = q.1 := by rw [hid, hid', hids]
    exact List.inj_on_of_nodup_map h.nodup hp hq hfst
  rw [rowMessages, Dict.get?_ofList hnodup, lookup_messages h.key, h.lookup]

theorem unlisted_rowMessages {table : Dict Str Row} {rows : List (Str × Row)} (h : Listed chat_id table rows) :
    Unlisted (rowMessages chat_id rows) := by
  intro id message hmessage
  rw [get?_rowMessages h, Option.map_eq_some_iff] at hmessage
  obtain ⟨row, -, rfl⟩ := hmessage
  exact children_rowMessage id row

theorem parent_rowMessage (message_id : Str) (row : Row) :
    field (rowMessage message_id row) kParentId = textVal row.parent_id :=
  field_rowMessage message_id row (c := (kParentId, fun row => textVal row.parent_id)) (by simp [columns]) (by decide)

/-- The children of a message, as the rows say it. -/
def childrenOf (chat_id : Str) (rows : List (Str × Row)) (id : Str) : List Str :=
  childrenAmong (rowMessages chat_id rows).items id

theorem mem_childrenOf {table : Dict Str Row} {rows : List (Str × Row)} (h : Listed chat_id table rows) {id c : Str} :
    c ∈ childrenOf chat_id rows id ↔
      id ≠ [] ∧ ∃ row, table.get? (compositeId chat_id c) = some row ∧ row.parent_id = some id := by
  have htext : ∀ row : Row, (field (rowMessage c row) kParentId).text? = row.parent_id := by
    intro row
    rw [parent_rowMessage]
    cases row.parent_id <;> rfl
  rw [childrenOf, mem_childrenAmong]
  simp only [← Dict.get?_eq_some_iff, get?_rowMessages h, Option.map_eq_some_iff]
  constructor
  · rintro ⟨m, ⟨row, hrow, rfl⟩, hid, hparent⟩
    exact ⟨hid, row, hrow, (htext row).symm.trans hparent⟩
  · rintro ⟨hid, row, hrow, hparent⟩
    exact ⟨_, ⟨row, hrow, rfl⟩, hid, (htext row).trans hparent⟩

/-- **What the reader returns under an id**: the message of its row, and its children. -/
theorem get?_messages_map {table : Dict Str Row} {rows : List (Str × Row)} (h : Listed chat_id table rows) (id : Str) :
    ((get_messages_map_by_chat_id chat_id rows).getD .empty).get? id =
      (table.get? (compositeId chat_id id)).map fun row =>
        (rowMessage id row).set kChildrenIds (.list ((childrenOf chat_id rows id).map .str)) := by
  rw [get_messages_map_eq, get?_relinked (unlisted_rowMessages h), get?_rowMessages h, Option.map_map]
  rfl

end

end Chats
end MaterialOpenWebui
