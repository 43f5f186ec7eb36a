import MaterialOpenWebui.Chats.Accounting
import MaterialOpenWebui.Chats.Branch
import MaterialOpenWebui.Chats.Reading
import MaterialOpenWebui.Chats.Store
import Mathlib.Data.List.Dedup

/-!
# `Chats.Healing` — a message map with gaps (`backend/open_webui/models/chats.py`)

The messages of a chat are read from their rows. Where a row is missing, its children name a parent that is not
there; the map is then completed from the history of the chat, by those parents and no others. So one missing
row is made up for, and of two in succession the second is not: its child was not in the map when the parents
that are missing were collected.
-/

namespace MaterialOpenWebui
namespace Chats
open Py Forest

/-! ## Reading -/

/-- The set of the parents that messages have and that are not there. A row has text for a parent, or none. -/
def get_unresolved_parent_ids (messages_map : Dict Str Obj) : List Str :=
  (messages_map.items.filterMap fun p => (link p.2).filter fun id => decide (id ∉ messages_map)).dedup

/-- Those of the messages of the history that have one of the ids. -/
def missing_messages (history_messages : Dict Str Obj) (unresolved_ids : List Str) : Dict Str Obj :=
  Dict.ofList (unresolved_ids.filterMap fun id => (history_messages.get? id).map fun message => (id, message))

/-- The messages of a chat, of which `chat` is what `get_chat_by_id` returns. Writing the added messages to their
    rows is left out. -/
def ChatTable.get_messages_map_by_chat_id (chat_id : Str) (chat : Option Chat) (rows : List (Str × Row)) :
    Option (Dict Str Obj) :=
  match Chats.get_messages_map_by_chat_id chat_id rows with
  | none => chat.map fun chat => chat.history.messages
  | some messages_map =>
    let unresolved_ids := get_unresolved_parent_ids messages_map
    if unresolved_ids = [] then some messages_map
    else match chat with
      | none => some messages_map
      | some chat => some (messages_map.update (missing_messages chat.history.messages unresolved_ids))

/-! ## The condition -/

/-- Rows of some of the messages, each with the parent of its message. -/
def RowsOf (chat_id : Str) (messages : Dict Str Obj) (table : Dict Str Row) : Prop :=
  ∀ id row, table.get? (compositeId chat_id id) = some row →
    ∃ message, messages.get? id = some message ∧ row.parent_id.filter (· ≠ []) = link message

/-- Every parent is there. -/
def Closed (messages : Dict Str Obj) : Prop := ∀ id p, linkOf messages id = some p → p ∈ messages

/-- Above a message without a row, which a message with a row has for its parent, there is nothing, or a message that
    has a row, or one that is itself the parent of a message with a row. -/
def SingleGaps (chat_id : Str) (messages : Dict Str Obj) (table : Dict Str Row) : Prop :=
  ∀ id p q, compositeId chat_id id ∈ table → linkOf messages id = some p → compositeId chat_id p ∉ table →
    linkOf messages p = some q →
    compositeId chat_id q ∈ table ∨ ∃ c, compositeId chat_id c ∈ table ∧ linkOf messages c = some q

theorem mem_unresolved {messages_map : Dict Str Obj} {p : Str} :
    p ∈ get_unresolved_parent_ids messages_map ↔ (∃ id, linkOf messages_map id = some p) ∧ p ∉ messages_map := by
  simp only [get_unresolved_parent_ids, List.mem_dedup, List.mem_filterMap, Option.filter_eq_some_iff,
    decide_eq_true_eq]
  constructor
  · rintro ⟨⟨id, message⟩, hmem, hlink, hnot⟩
    exact ⟨⟨id, by rw [linkOf_eq (Dict.get?_eq_some_iff.mpr hmem), hlink]⟩, hnot⟩
  · rintro ⟨⟨id, hlink⟩, hnot⟩
    obtain ⟨message, hmessage, hlink⟩ := Option.bind_eq_some_iff.mp hlink
    exact ⟨(id, message), Dict.get?_eq_some_iff.mp hmessage, hlink, hnot⟩

theorem get?_missing (history_messages : Dict Str Obj) {ids : List Str} (hnodup : ids.Nodup) (id : Str) :
    (missing_messages history_messages ids).get? id = if id ∈ ids then history_messages.get? id else none := by
  have hkeys : ((ids.filterMap fun id => (history_messages.get? id).map fun message => (id, message)).map
      Prod.fst).Sublist ids := by
    clear hnodup
    induction ids with
    | nil => exact List.Sublist.slnil
    | cons i ids ih =>
      rw [List.filterMap_cons]
      cases history_messages.get? i with
      | none => exact ih.cons i
      | some message => exact ih.cons_cons i
  rw [missing_messages, Dict.get?_ofList (hnodup.sublist hkeys)]
  clear hkeys hnodup
  induction ids with
  | nil => rfl
  | cons i ids ih =>
    rw [List.filterMap_cons]
    by_cases hi : id = i
    · subst hi
      rw [if_pos List.mem_cons_self]
      cases hmessage : history_messages.get? id with
      | none =>
        rw [Option.map_none, ih, hmessage, ite_self]
      | some message =>
        rw [Option.map_some, Dict.lookup_cons, if_pos rfl]
    · have hmem : id ∈ i :: ids ↔ id ∈ ids := by simp [hi]
      simp only [hmem]
      cases history_messages.get? i with
      | none => exact ih
      | some message =>
        rw [Option.map_some, Dict.lookup_cons, if_neg hi]
        exact ih

/-! ## Completing -/

section
variable {chat_id : Str} {messages : Dict Str Obj} {table : Dict Str Row} {rows : List (Str × Row)}

/-- What the reader returns for the rows. -/
def rebuiltFrom (chat_id : Str) (rows : List (Str × Row)) : Dict Str Obj :=
  (Chats.get_messages_map_by_chat_id chat_id rows).getD .empty

def completed (chat_id : Str) (messages : Dict Str Obj) (rows : List (Str × Row)) : Dict Str Obj :=
  (rebuiltFrom chat_id rows).update
    (missing_messages messages (get_unresolved_parent_ids (rebuiltFrom chat_id rows)))

/-- The map that is returned, if there are any rows. -/
theorem get_messages_map_completed {chat : Chat} (hne : rows ≠ []) :
    ChatTable.get_messages_map_by_chat_id chat_id (some chat) rows = some (completed chat_id chat.history.messages rows) := by
  have hmap : Chats.get_messages_map_by_chat_id chat_id rows = some (rebuiltFrom chat_id rows) := by
    rw [rebuiltFrom, Chats.get_messages_map_by_chat_id, if_neg hne, Option.getD_some]
  rw [ChatTable.get_messages_map_by_chat_id, hmap]
  simp only
  split
  · rename_i hempty
    rw [completed, hempty]
    rfl
  · rfl

theorem mem_rebuiltFrom (hlisted : Listed chat_id table rows) {id : Str} :
    id ∈ rebuiltFrom chat_id rows ↔ compositeId chat_id id ∈ table := by
  rw [Dict.mem_iff, Dict.mem_iff, rebuiltFrom, get?_messages_map hlisted]
  cases table.get? (compositeId chat_id id) <;> simp

/-- A row says the parent of its message. -/
theorem linkOf_rebuiltFrom (hlisted : Listed chat_id table rows) (hrows : RowsOf chat_id messages table) {id : Str}
    (hid : compositeId chat_id id ∈ table) : linkOf (rebuiltFrom chat_id rows) id = linkOf messages id := by
  obtain ⟨row, hrow⟩ := Dict.mem_iff.mp hid
  obtain ⟨message, hmessage, hparent⟩ := hrows id row hrow
  have hget : (rebuiltFrom chat_id rows).get? id =
      some ((rowMessage id row).set kChildrenIds (.list ((childrenOf chat_id rows id).map .str))) := by
    rw [rebuiltFrom, get?_messages_map hlisted, hrow, Option.map_some]
  have hne : kParentId ≠ kChildrenIds := by decide
  have hfield : field ((rowMessage id row).set kChildrenIds (.list ((childrenOf chat_id rows id).map .str))) kParentId =
      textVal row.parent_id := by
    rw [field_set, if_neg hne, parent_rowMessage]
  rw [linkOf_eq hget, linkOf_eq hmessage, ← hparent, link, hfield]
  cases row.parent_id with
  | none => rfl
  | some p => by_cases hp : p = [] <;> simp [textVal, Val.truthy, Val.text?, Option.filter, hp]

/-- The parents that are missing. -/
theorem unresolved_iff (hlisted : Listed chat_id table rows) (hrows : RowsOf chat_id messages table) {p : Str} :
    p ∈ get_unresolved_parent_ids (rebuiltFrom chat_id rows) ↔
      (∃ id, compositeId chat_id id ∈ table ∧ linkOf messages id = some p) ∧ compositeId chat_id p ∉ table := by
  rw [mem_unresolved, mem_rebuiltFrom hlisted]
  refine and_congr_left fun _ => ?_
  constructor
  · rintro ⟨id, hlink⟩
    have hid : compositeId chat_id id ∈ table := by
      obtain ⟨message, hmessage, -⟩ := Option.bind_eq_some_iff.mp hlink
      exact (mem_rebuiltFrom hlisted).mp (Dict.mem_of_get? hmessage)
    exact ⟨id, hid, (linkOf_rebuiltFrom hlisted hrows hid).symm.trans hlink⟩
  · rintro ⟨id, hid, hlink⟩
    exact ⟨id, (linkOf_rebuiltFrom hlisted hrows hid).trans hlink⟩

theorem get?_completed (id : Str) : (completed chat_id messages rows).get? id =
    (if id ∈ get_unresolved_parent_ids (rebuiltFrom chat_id rows) then messages.get? id else none).or
      ((rebuiltFrom chat_id rows).get? id) := by
  have hnodup : (get_unresolved_parent_ids (rebuiltFrom chat_id rows)).Nodup := List.nodup_dedup _
  rw [completed, Dict.get?_update, get?_missing _ hnodup]

/-- What is there when the map is completed: the messages with rows, and their parents. -/
theorem mem_completed (hw : Whole messages) (hlisted : Listed chat_id table rows) (hrows : RowsOf chat_id messages table)
    {id : Str} : id ∈ completed chat_id messages rows ↔
      compositeId chat_id id ∈ table ∨ ∃ c, compositeId chat_id c ∈ table ∧ linkOf messages c = some id := by
  have hbase : id ∈ rebuiltFrom chat_id rows ↔ compositeId chat_id id ∈ table := mem_rebuiltFrom hlisted
  rw [Dict.mem_iff, get?_completed]
  by_cases hrow : compositeId chat_id id ∈ table
  · have hnot : id ∉ get_unresolved_parent_ids (rebuiltFrom chat_id rows) := fun h =>
      ((unresolved_iff hlisted hrows).mp h).2 hrow
    rw [if_neg hnot, Option.none_or, ← Dict.mem_iff, hbase]
    exact ⟨Or.inl, fun _ => hrow⟩
  · have hnone : (rebuiltFrom chat_id rows).get? id = none := Dict.get?_eq_none_iff.mpr fun h => hrow (hbase.mp h)
    rw [hnone, Option.or_none]
    by_cases hunresolved : id ∈ get_unresolved_parent_ids (rebuiltFrom chat_id rows)
    · obtain ⟨⟨c, hc, hlink⟩, -⟩ := (unresolved_iff hlisted hrows).mp hunresolved
      rw [if_pos hunresolved, ← Dict.mem_iff]
      exact ⟨fun _ => Or.inr ⟨c, hc, hlink⟩, fun _ => hw.mem_of_linkOf hlink⟩
    · rw [if_neg hunresolved]
      constructor
      · rintro ⟨_, h⟩
        cases h
      · rintro (h | ⟨c, hc, hlink⟩)
        · exact absurd h hrow
        · exact absurd ((unresolved_iff hlisted hrows).mpr ⟨⟨c, hc, hlink⟩, hrow⟩) hunresolved

/-- A message that is there has the parent that it has in the history. -/
theorem linkOf_completed (hlisted : Listed chat_id table rows) (hrows : RowsOf chat_id messages table) {id : Str}
    (hid : id ∈ completed chat_id messages rows) :
    linkOf (completed chat_id messages rows) id = linkOf messages id := by
  obtain ⟨message, hmessage⟩ := Dict.mem_iff.mp hid
  have hget := hmessage
  rw [get?_completed] at hget
  by_cases hrow : compositeId chat_id id ∈ table
  · have hnot : id ∉ get_unresolved_parent_ids (rebuiltFrom chat_id rows) := fun h =>
      ((unresolved_iff hlisted hrows).mp h).2 hrow
    rw [if_neg hnot, Option.none_or] at hget
    rw [linkOf_eq hmessage, ← linkOf_eq hget, linkOf_rebuiltFrom hlisted hrows hrow]
  · have hnone : (rebuiltFrom chat_id rows).get? id = none :=
      Dict.get?_eq_none_iff.mpr fun h => hrow ((mem_rebuiltFrom hlisted).mp h)
    rw [hnone, Option.or_none] at hget
    split at hget
    · rw [linkOf_eq hmessage, linkOf_eq hget]
    · cases hget

/-- **The completed map is closed** if and only if no gap is longer than one message. -/
theorem completed_closed_iff (hw : Whole messages) (hlisted : Listed chat_id table rows)
    (hrows : RowsOf chat_id messages table) :
    Closed (completed chat_id messages rows) ↔ SingleGaps chat_id messages table := by
  constructor
  · intro hclosed id p q hid hp hrow hq
    have hmem : p ∈ completed chat_id messages rows := (mem_completed hw hlisted hrows).mpr (Or.inr ⟨id, hid, hp⟩)
    have hlink := (linkOf_completed hlisted hrows hmem).trans hq
    exact (mem_completed hw hlisted hrows).mp (hclosed p q hlink)
  · intro hgaps id p hlink
    have hid : id ∈ completed chat_id messages rows := by
      obtain ⟨message, hmessage, -⟩ := Option.bind_eq_some_iff.mp hlink
      exact Dict.mem_of_get? hmessage
    rw [linkOf_completed hlisted hrows hid] at hlink
    rw [mem_completed hw hlisted hrows]
    by_cases hrow : compositeId chat_id id ∈ table
    · exact Or.inr ⟨id, hrow, hlink⟩
    · obtain ⟨c, hc, hcid⟩ := ((mem_completed hw hlisted hrows).mp hid).resolve_left hrow
      exact hgaps c id p hc hcid hrow hlink

/-! ## Branches -/

/-- A completed map without gaps is a history of its own. -/
theorem whole_completed (hw : Whole messages) (hlisted : Listed chat_id table rows)
    (hrows : RowsOf chat_id messages table) (hclosed : Closed (completed chat_id messages rows)) :
    Whole (completed chat_id messages rows) := by
  -- a message there is one that a row makes, or one of the history
  have hcases : ∀ id message, (completed chat_id messages rows).get? id = some message →
      messages.get? id = some message ∨ ∃ row : Row,
        message = (rowMessage id row).set kChildrenIds (.list ((childrenOf chat_id rows id).map .str)) := by
    intro id message hmessage
    rw [get?_completed, Option.or_eq_some_iff] at hmessage
    rcases hmessage with hmessage | ⟨-, hmessage⟩
    · split at hmessage
      · exact Or.inl hmessage
      · cases hmessage
    · rw [rebuiltFrom, get?_messages_map hlisted, Option.map_eq_some_iff] at hmessage
      obtain ⟨row, -, rfl⟩ := hmessage
      exact Or.inr ⟨row, rfl⟩
  have hparent : kParentId ≠ kChildrenIds := by decide
  have hid : kId ≠ kChildrenIds := by decide
  refine ⟨?_, ?_, ?_⟩
  · intro id message hmessage
    rcases hcases id message hmessage with hlegacy | ⟨row, rfl⟩
    · exact hw.ids id message hlegacy
    · constructor
      · intro hempty
        have hmem : kChildrenIds ∈ (rowMessage id row).set kChildrenIds
            (.list ((childrenOf chat_id rows id).map .str)) := Dict.mem_set.mpr (Or.inl rfl)
        rw [Dict.mem_iff_mem_keys, Dict.keys, hempty] at hmem
        cases hmem
      · rw [field_set, if_neg hid, id_rowMessage]
        exact Or.inr rfl
  · intro id message hmessage
    -- the parent that a message names is there, for the map is closed
    have hstr : ∀ p, p ≠ [] → field message kParentId = .str p → p ∈ completed chat_id messages rows := fun p hp h =>
      hclosed id p ((linkOf_eq hmessage).trans (link_of_str h hp))
    rcases hcases id message hmessage with hlegacy | ⟨row, rfl⟩
    · rcases hw.parents id message hlegacy with hfalsy | ⟨p, -, hp, heq⟩
      · exact Or.inl hfalsy
      · exact Or.inr ⟨p, hstr p hp heq, hp, heq⟩
    · rw [field_set, if_neg hparent, parent_rowMessage] at hstr ⊢
      cases hp : row.parent_id with
      | none => exact Or.inl rfl
      | some p =>
        by_cases hempty : p = []
        · exact Or.inl (by rw [hempty]; rfl)
        · exact Or.inr ⟨p, hstr p hempty (by rw [hp]; rfl), hempty, rfl⟩
  · refine rooted_of_ancestors hw.rooted fun p c hlink => ancestor_of_parent ?_
    have hc : c ∈ completed chat_id messages rows := by
      obtain ⟨message, hmessage, -⟩ := Option.bind_eq_some_iff.mp hlink
      exact Dict.mem_of_get? hmessage
    rwa [linkOf_completed hlisted hrows hc] at hlink

/-- Every branch of the map is the branch of the history, under the same ids up to the same root. -/
def SameBranches (messages_map messages : Dict Str Obj) : Prop :=
  ∀ id ∈ messages_map, ∃ l, Lineage (linkOf messages) id l ∧
    get_message_list messages_map id = some (l.reverse.map (messageAt messages_map)) ∧
    get_message_list messages id = some (l.reverse.map (messageAt messages))

theorem sameBranches_completed (hw : Whole messages) (hlisted : Listed chat_id table rows)
    (hrows : RowsOf chat_id messages table) (hclosed : Closed (completed chat_id messages rows)) :
    SameBranches (completed chat_id messages rows) messages := by
  have hwhole := whole_completed hw hlisted hrows hclosed
  intro id hid
  obtain ⟨l, hl⟩ := hwhole.rooted.lineage id
  have hl' : Lineage (linkOf messages) id l :=
    hl.congr fun a ha => (linkOf_completed hlisted hrows (hwhole.mem_of_lineage hl hid a ha)).symm
  have hmem : id ∈ messages := by
    rcases (mem_completed hw hlisted hrows).mp hid with hrow | ⟨c, -, hlink⟩
    · obtain ⟨row, hrow⟩ := Dict.mem_iff.mp hrow
      obtain ⟨message, hmessage, -⟩ := hrows id row hrow
      exact Dict.mem_of_get? hmessage
    · exact hw.mem_of_linkOf hlink
  exact ⟨l, hl', get_message_list_lineage hwhole hl hid, get_message_list_lineage hw hl' hmem⟩

/-- **The map of a chat has no gaps, and its branches are those of the history**, if and only if no gap in the rows is
    longer than one message. -/
theorem healed_iff {chat : Chat} (hw : Whole chat.history.messages) (hlisted : Listed chat_id table rows)
    (hrows : RowsOf chat_id chat.history.messages table) :
    (∃ messages_map, ChatTable.get_messages_map_by_chat_id chat_id (some chat) rows = some messages_map ∧
      Closed messages_map ∧ SameBranches messages_map chat.history.messages) ↔
    SingleGaps chat_id chat.history.messages table := by
  by_cases hempty : rows = []
  · -- without rows the history itself is returned
    have hnone : ∀ k, k ∉ table := by
      intro k hk
      obtain ⟨row, hrow⟩ := Dict.mem_iff.mp hk
      have hmem := hlisted.perm.mem_iff.mpr (Dict.get?_eq_some_iff.mp hrow)
      rw [hempty] at hmem
      cases hmem
    refine ⟨fun _ id p q hid => absurd hid (hnone _), fun _ => ⟨chat.history.messages, ?_, ?_, ?_⟩⟩
    · rw [ChatTable.get_messages_map_by_chat_id, Chats.get_messages_map_by_chat_id, if_pos hempty]
      rfl
    · exact fun id p hlink => hw.mem_of_linkOf hlink
    · intro id hid
      obtain ⟨l, hl⟩ := hw.rooted.lineage id
      exact ⟨l, hl, get_message_list_lineage hw hl hid, get_message_list_lineage hw hl hid⟩
  · rw [get_messages_map_completed hempty, ← completed_closed_iff hw hlisted hrows]
    constructor
    · rintro ⟨messages_map, heq, hclosed, -⟩
      cases heq
      exact hclosed
    · exact fun hclosed => ⟨_, rfl, hclosed, sameBranches_completed hw hlisted hrows hclosed⟩

end

/-- A chat of three messages, each the answer to the one before it. -/
def turn (id role : Str) (parentId : Val) : Obj :=
  ((Dict.empty.set kId (.str id)).set kRole (.str role)).set kParentId parentId

def threeTurns : Chat where
  user_id := py "u"
  title := some (py "New Chat")
  history :=
    { messages := ((Dict.empty.set (py "1") (turn (py "1") (py "user") .none)).set (py "2")
        (turn (py "2") (py "assistant") (.str (py "1")))).set (py "3") (turn (py "3") (py "user") (.str (py "2")))
      currentId := .str (py "3")
      others := .empty }
  others := .empty
  current_message_id := some (py "3")
  updated_at := 0

/-- The rows of some of them, as a backfill writes them. -/
def rowsOfTurns (ids : List Str) : Dict Str Row :=
  reconcile_messages_by_chat_id id (fun _ => none) (py "c") (py "u") .empty
    (threeTurns.history.messages.items.filter fun p => decide (p.1 ∈ ids)) 1

theorem get?_threeTurns {id : Str} {message : Obj} (h : threeTurns.history.messages.get? id = some message) :
    (id = py "1" ∧ message = turn (py "1") (py "user") .none) ∨
    (id = py "2" ∧ message = turn (py "2") (py "assistant") (.str (py "1"))) ∨
    (id = py "3" ∧ message = turn (py "3") (py "user") (.str (py "2"))) := by
  have hmem : (id, message) ∈ [(py "1", turn (py "1") (py "user") .none),
      (py "2", turn (py "2") (py "assistant") (.str (py "1"))), (py "3", turn (py "3") (py "user") (.str (py "2")))] :=
    Dict.get?_eq_some_iff.mp h
  simpa [Prod.ext_iff] using hmem

theorem whole_threeTurns : Whole threeTurns.history.messages where
  ids := by
    intro id message h
    rcases get?_threeTurns h with ⟨rfl, rfl⟩ | ⟨rfl, rfl⟩ | ⟨rfl, rfl⟩
    all_goals exact ⟨List.cons_ne_nil _ _, Or.inr rfl⟩
  parents := by
    intro id message h
    have hids : py "1" ∈ threeTurns.history.messages ∧ py "2" ∈ threeTurns.history.messages := by decide
    rcases get?_threeTurns h with ⟨rfl, rfl⟩ | ⟨rfl, rfl⟩ | ⟨rfl, rfl⟩
    · exact Or.inl rfl
    · exact Or.inr ⟨_, hids.1, by decide, rfl⟩
    · exact Or.inr ⟨_, hids.2, by decide, rfl⟩
  rooted := by
    have hroot : Lineage (linkOf threeTurns.history.messages) (py "1") [py "1"] := .root rfl
    have hsecond : Lineage (linkOf threeTurns.history.messages) (py "2") [py "2", py "1"] := .step rfl hroot
    have hthird : Lineage (linkOf threeTurns.history.messages) (py "3") [py "3", py "2", py "1"] := .step rfl hsecond
    refine ⟨fun id => ?_⟩
    cases hget : threeTurns.history.messages.get? id with
    | none => exact (Lineage.root (by rw [linkOf, hget, Option.bind_none])).acc
    | some message =>
      rcases get?_threeTurns hget with ⟨rfl, -⟩ | ⟨rfl, -⟩ | ⟨rfl, -⟩
      · exact hroot.acc
      · exact hsecond.acc
      · exact hthird.acc

/-- A table whose rows and their parents are known. -/
theorem rowsOf_of_parents {chat_id : Str} {messages : Dict Str Obj} {table : Dict Str Row}
    (parents : List (Str × Option Str))
    (hitems : table.items.map (fun p => (p.1, p.2.parent_id)) = parents.map fun q => (compositeId chat_id q.1, q.2))
    (h : ∀ q ∈ parents, ∃ message, messages.get? q.1 = some message ∧ q.2.filter (· ≠ []) = link message) :
    Listed chat_id table table.items ∧ RowsOf chat_id messages table := by
  have hrow : ∀ p ∈ table.items, ∃ q ∈ parents, p.1 = compositeId chat_id q.1 ∧ p.2.parent_id = q.2 := by
    intro p hp
    have hmem : (p.1, p.2.parent_id) ∈ parents.map fun q => (compositeId chat_id q.1, q.2) := by
      rw [← hitems]
      exact List.mem_map.mpr ⟨p, hp, rfl⟩
    obtain ⟨q, hq, heq⟩ := List.mem_map.mp hmem
    exact ⟨q, hq, (congrArg Prod.fst heq).symm, (congrArg Prod.snd heq).symm⟩
  constructor
  · refine ⟨List.Perm.refl _, fun k hk => ?_⟩
    obtain ⟨row, hget⟩ := Dict.mem_iff.mp hk
    obtain ⟨q, -, hkey, -⟩ := hrow _ (Dict.get?_eq_some_iff.mp hget)
    exact ⟨q.1, hkey⟩
  · intro id row hget
    obtain ⟨q, hq, hkey, hparent⟩ := hrow _ (Dict.get?_eq_some_iff.mp hget)
    rw [compositeId_inj hkey, hparent]
    exact h q hq

theorem rowsOf_threeTurns : (Listed (py "c") (rowsOfTurns [py "1", py "3"]) (rowsOfTurns [py "1", py "3"]).items ∧
      RowsOf (py "c") threeTurns.history.messages (rowsOfTurns [py "1", py "3"])) ∧
    Listed (py "c") (rowsOfTurns [py "3"]) (rowsOfTurns [py "3"]).items ∧
      RowsOf (py "c") threeTurns.history.messages (rowsOfTurns [py "3"]) := by
  have hfirst : ∃ message, threeTurns.history.messages.get? (py "1") = some message ∧ none = link message :=
    ⟨_, rfl, rfl⟩
  have hthird : ∃ message, threeTurns.history.messages.get? (py "3") = some message ∧ some (py "2") = link message :=
    ⟨_, rfl, rfl⟩
  constructor
  · apply rowsOf_of_parents [(py "1", none), (py "3", some (py "2"))]
    · decide
    · simp only [List.forall_mem_cons]
      exact ⟨hfirst, hthird, List.forall_mem_nil _⟩
  · apply rowsOf_of_parents [(py "3", some (py "2"))]
    · decide
    · simp only [List.forall_mem_cons]
      exact ⟨hthird, List.forall_mem_nil _⟩

/-- The middle message has no row, and the map is complete. -/
theorem healed_iff_threeTurns :
    ∃ messages_map, ChatTable.get_messages_map_by_chat_id (py "c") (some threeTurns)
        (rowsOfTurns [py "1", py "3"]).items = some messages_map ∧
      Closed messages_map ∧ SameBranches messages_map threeTurns.history.messages := by
  refine (healed_iff whole_threeTurns rowsOf_threeTurns.1.1 rowsOf_threeTurns.1.2).mpr ?_
  have hfirst : compositeId (py "c") (py "1") ∈ rowsOfTurns [py "1", py "3"] := by decide
  have hfirstLink : linkOf threeTurns.history.messages (py "1") = none := rfl
  have hsecondLink : linkOf threeTurns.history.messages (py "2") = some (py "1") := rfl
  have hthird : compositeId (py "c") (py "3") ∈ rowsOfTurns [py "1", py "3"] := by decide
  intro id p q _ hp hrow hq
  obtain ⟨message, hmessage, -⟩ := Option.bind_eq_some_iff.mp hq
  rcases get?_threeTurns hmessage with ⟨rfl, -⟩ | ⟨rfl, -⟩ | ⟨rfl, -⟩
  · rw [hfirstLink] at hq
    cases hq
  · rw [hsecondLink] at hq
    cases hq
    exact Or.inl hfirst
  · exact absurd hthird hrow

/-! ## Two missing rows in succession -/

/-- The ids of the messages of a branch. -/
def branchIds (messages_map : Option (Dict Str Obj)) (message_id : Str) : Option (List (Option Str)) :=
  (messages_map.bind fun messages_map => get_message_list messages_map message_id).map fun messages =>
    messages.map fun message => (field message kId).text?

/-- **The start of the conversation is lost** when its first two messages have no rows. -/
theorem lost_root : Whole threeTurns.history.messages ∧
    RowsOf (py "c") threeTurns.history.messages (rowsOfTurns [py "3"]) ∧
    branchIds (some threeTurns.history.messages) (py "3") = some [some (py "1"), some (py "2"), some (py "3")] ∧
    branchIds (ChatTable.get_messages_map_by_chat_id (py "c") (some threeTurns) (rowsOfTurns [py "3"]).items) (py "3") =
      some [some (py "2"), some (py "3")] ∧
    ¬ ∃ messages_map, ChatTable.get_messages_map_by_chat_id (py "c") (some threeTurns) (rowsOfTurns [py "3"]).items =
        some messages_map ∧ Closed messages_map := by
  refine ⟨whole_threeTurns, rowsOf_threeTurns.2.2, by decide, by decide, ?_⟩
  rintro ⟨messages_map, heq, hclosed⟩
  have hlink : (ChatTable.get_messages_map_by_chat_id (py "c") (some threeTurns) (rowsOfTurns [py "3"]).items).map
      (fun messages_map => linkOf messages_map (py "2")) = some (some (py "1")) := by decide
  have hmissing : (ChatTable.get_messages_map_by_chat_id (py "c") (some threeTurns) (rowsOfTurns [py "3"]).items).map
      (fun messages_map => decide (py "1" ∈ messages_map)) = some false := by decide
  rw [heq, Option.map_some, Option.some.injEq] at hlink hmissing
  exact of_decide_eq_false hmissing (hclosed _ _ hlink)

end Chats
end MaterialOpenWebui
