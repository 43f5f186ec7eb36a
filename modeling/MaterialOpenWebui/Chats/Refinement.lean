import MaterialOpenWebui.Chats.Reading
import MaterialOpenWebui.Chats.Store

/-!
# `Chats.Refinement` — the rows say what the history says

A message is saved twice, to the history of its chat and to a row. The history merges dictionaries and sanitizes
them; the row is written column by column, each if the message has its key. `Agrees` relates the two stores:
every message of the history is the sanitized form of one whose row `Mirrors` it. A save keeps it, whatever
the message has of its keys, for the row is written from the whole merged message: a key that is missing there
was missing all along, and its column was never written.
-/

namespace MaterialOpenWebui
namespace Chats
open Py

/-! ## Messages -/

/-- The keys can be stored, and none of them is the name of a column that has another key. -/
def Camel (message : Obj) : Prop :=
  ∀ k ∈ message, Storable k ∧ k ∉ [cParentId, cModelId, cStatusHistory, cContextSummary]

/-- The columns that hold what the message has under their keys. -/
def mirrored : List (Str × (Row → Val)) :=
  [(kRole, fun row => .str row.role), (kParentId, fun row => textVal row.parent_id), (kContent, Row.content),
    (kOutput, Row.output), (kFiles, Row.files), (kSources, Row.sources), (kEmbeds, Row.embeds), (kError, Row.error)]

/-- The row holds what the message says. -/
structure Mirrors (row : Row) (message : Obj) : Prop where
  columns : ∀ c ∈ mirrored, c.2 row = field message c.1
  done : ∃ done, asBool (field message kDone) = some done ∧ row.done = some (done.getD true)

theorem field_of_not_mem {message : Obj} {key : Str} (h : key ∉ message) : field message key = .none := by
  rw [field, Dict.get?_eq_none_iff.mpr h, Option.getD_none]

theorem Camel.keys {message : Obj} (h : Camel message) : StorableKeys message := fun k hk => (h k hk).1

theorem Camel.parent_id {message : Obj} (h : Camel message) : field message cParentId = .none :=
  field_of_not_mem fun hk => (h _ hk).2 (by simp)

theorem Camel.sanitize {message : Obj} (h : Camel message) : Camel (sanitizeObj message) := by
  intro k hk
  rw [sanitizeObj_of_storable h.keys, Dict.mem_map] at hk
  exact h k hk

theorem Camel.update {message message' : Obj} (h : Camel message) (h' : Camel message') :
    Camel (message.update message') := by
  intro k hk
  rcases Dict.mem_update.mp hk with hk | hk
  · exact h k hk
  · exact h' k hk

theorem Camel.set {message : Obj} (h : Camel message) {key : Str}
    (hkey : Storable key ∧ key ∉ [cParentId, cModelId, cStatusHistory, cContextSummary]) (v : Val) :
    Camel (message.set key v) := by
  intro k hk
  rcases Dict.mem_set.mp hk with rfl | hk
  · exact hkey
  · exact h k hk

theorem Camel.prepared {message : Obj} (h : Camel message) (str_ : Val → Str) : Camel (prepared str_ message) := by
  have hcontent : Storable kContent ∧ kContent ∉ [cParentId, cModelId, cStatusHistory, cContextSummary] :=
    ⟨by unfold Storable; decide, by decide⟩
  have hset : ∀ {message : Obj}, Camel message → ∀ v, Camel (message.set kContent v) := fun h v => h.set hcontent v
  unfold Chats.prepared
  simp only
  split
  · split
    · exact hset h _
    · exact hset (hset h _) _
  · split
    · exact h
    · exact hset h _

/-- A new message has the keys of the message, and five more. -/
theorem newMessage_keys {messages : Dict Str Obj} {message_id : Str} {message saved : Obj} {now : Int}
    (h : newMessage messages message_id message now = some saved) (hcamel : Camel message) :
    Camel saved ∧ kRole ∈ saved := by
  simp only [newMessage, Option.bind_eq_bind, Option.bind_eq_some_iff, Option.some.injEq] at h
  obtain ⟨parent_id, -, parent, -, output, -, rfl⟩ := h
  have hkeys : ∀ key ∈ [kId, kParentId, kChildrenIds, kRole, kTimestamp],
      Storable key ∧ key ∉ [cParentId, cModelId, cStatusHistory, cContextSummary] := by
    unfold Storable
    decide
  constructor
  · exact ((((hcamel.set (hkeys _ (by simp)) _).set (hkeys _ (by simp)) _).set (hkeys _ (by simp)) _).set
      (hkeys _ (by simp)) _).set (hkeys _ (by simp)) _
  · simp [Dict.mem_set]

/-! ## Writing a row -/

theorem textVal_of_asText {v : Val} {text : Option Str} (h : asText v = some text) : textVal text = v := by
  cases v with
  | none =>
    cases h
    rfl
  | str s =>
    rw [asText] at h
    split at h
    · cases h
      rfl
    · cases h
  | _ => cases h

theorem str_of_asText {v : Val} {text : Str} (h : (asText v).join = some text) : v = .str text := by
  rw [Option.join_eq_some_iff] at h
  exact (textVal_of_asText h).symm

/-- A column that the message may leave out was never written, if the message has always left it out. -/
theorem column_mirrored {data : Obj} {key : Str} {held x : Val} (hheld : key ∉ data → held = .none)
    (h : column data [key] (some (field data key)) held = some x) : x = field data key := by
  rw [column] at h
  split at h
  · exact (Option.some.inj h).symm
  · rename_i hany
    have hkey : key ∉ data := by simpa using hany
    rw [field_of_not_mem hkey, ← hheld hkey]
    exact (Option.some.inj h).symm

section
variable {round : Rat → Rat} {parseInt : Str → Option Int}

theorem parentId_or {data : Obj} (h : Camel data) : (field data cParentId).or (field data kParentId) =
    field data kParentId := by
  rw [h.parent_id]
  rfl

theorem mirrors_insert {chat_id user_id : Str} {data : Obj} {now : Int} {row : Row}
    (h : Inserted round parseInt chat_id user_id data now row) (hcamel : Camel data) (hrole : kRole ∈ data) :
    Mirrors row data where
  columns := by
    obtain ⟨role, hget⟩ := Dict.mem_iff.mp hrole
    have hroleText := h.role
    rw [hget, Option.getD_some] at hroleText
    have hparent := h.parent_id
    rw [parentId_or hcamel] at hparent
    simp only [mirrored, List.forall_mem_cons, List.not_mem_nil, false_imp_iff, implies_true, and_true]
    exact ⟨by rw [field_eq hget, str_of_asText hroleText], textVal_of_asText hparent, h.content, h.output, h.files,
      h.sources, h.embeds, h.error⟩
  done := by
    obtain ⟨done, hdone, hrow⟩ := h.done
    cases hget : data.get? kDone with
    | none =>
      rw [hget] at hdone
      cases hdone
      exact ⟨none, by rw [field, hget]; rfl, hrow⟩
    | some v =>
      rw [hget, Option.getD_some] at hdone
      exact ⟨done, by rw [field_eq hget]; exact hdone, hrow⟩

theorem mirrors_update {existing row : Row} {message data : Obj} {now : Int}
    (h : Updated round parseInt existing data now row) (hmirrors : Mirrors existing message) (hcamel : Camel data)
    (hkeys : ∀ k ∈ message, k ∈ data) (hdone : row.done.isSome = true) : Mirrors row data where
  columns := by
    have hheld : ∀ c ∈ mirrored, c.1 ∉ data → c.2 existing = .none := by
      intro c hc hkey
      rw [hmirrors.columns c hc, field_of_not_mem fun hmem => hkey (hkeys c.1 hmem)]
    simp only [mirrored, List.forall_mem_cons, List.not_mem_nil, false_imp_iff, implies_true, and_true] at hheld ⊢
    obtain ⟨hrole, hparent, hcontent, houtput, hfiles, hsources, hembeds, herror⟩ := hheld
    refine ⟨?_, ?_, column_mirrored hcontent h.content, column_mirrored houtput h.output,
      column_mirrored hfiles h.files, column_mirrored hsources h.sources, column_mirrored hembeds h.embeds,
      column_mirrored herror h.error⟩
    · -- a row has a role, so the message has one
      have hmem : kRole ∈ data := by
        by_contra hnot
        cases hrole hnot
      have hcolumn := h.role
      rw [column, if_pos (by simpa using hmem)] at hcolumn
      exact (str_of_asText hcolumn).symm
    · have hcolumn := h.parent_id
      rw [column, parentId_or hcamel] at hcolumn
      split at hcolumn
      · exact textVal_of_asText hcolumn
      · rename_i hany
        have hkey : kParentId ∉ data := fun hmem => hany (by simp [hmem])
        rw [← Option.some.inj hcolumn, hparent hkey, field_of_not_mem hkey]
  done := by
    have hcolumn := h.done
    rw [column] at hcolumn
    split at hcolumn
    · obtain ⟨b, hb⟩ := Option.isSome_iff_exists.mp hdone
      rw [hb] at hcolumn
      exact ⟨some b, hcolumn, hb⟩
    · rename_i hany
      have hkey : kDone ∉ data := by simpa using hany
      obtain ⟨done, hasBool, hexisting⟩ := hmirrors.done
      rw [field_of_not_mem fun hmem => hkey (hkeys _ hmem)] at hasBool
      cases hasBool
      refine ⟨none, by rw [field_of_not_mem hkey]; rfl, ?_⟩
      rw [← hexisting]
      exact (Option.some.inj hcolumn).symm

/-! ## Saving -/

/-- Every message of the history has its row, and there are no other rows. -/
structure Agrees (chat_id : Str) (s : Store) : Prop where
  ids : StorableKeys s.chat.history.messages
  mirrored : ∀ id message, s.chat.history.messages.get? id = some message → ∃ raw row, Camel raw ∧
    message = sanitizeObj raw ∧ s.rows.get? (compositeId chat_id id) = some row ∧ Mirrors row raw
  rows : ∀ k ∈ s.rows, ∃ id ∈ s.chat.history.messages, k = compositeId chat_id id

variable {str_ : Val → Str} {chat_id : Str}

theorem saveMessage_spec {s s' : Store} {call : Call} (h : saveMessage round parseInt str_ chat_id s call = some s') :
    ∃ saved row, Upserted str_ s.chat call.message_id call.message call.touch call.now s'.chat saved ∧
      upsertRow round parseInt (s.rows.get? (compositeId chat_id call.message_id)) chat_id s.chat.user_id saved
        call.now = some row ∧ row.validates = true ∧
      s'.rows = s.rows.set (compositeId chat_id call.message_id) row := by
  simp only [saveMessage, Option.bind_eq_some_iff] at h
  obtain ⟨⟨chat, saved⟩, hchat, row, hrow, h⟩ := h
  split at h
  · rename_i hvalid
    cases h
    exact ⟨saved, row, upsert_chat_spec hchat, hrow, (Bool.and_eq_true_iff.mp hvalid).2, rfl⟩
  · cases h

/-- **A save keeps the two stores in agreement.** -/
theorem agrees_save {s s' : Store} {call : Call} (h : Agrees chat_id s) (hid : Storable call.message_id)
    (hcamel : Camel call.message) (hsave : saveMessage round parseInt str_ chat_id s call = some s') :
    Agrees chat_id s' := by
  obtain ⟨saved, row, hchat, hrow, hvalid, hrows⟩ := saveMessage_spec hsave
  have hdone : row.done.isSome = true := by
    simp only [Row.validates, Bool.and_eq_true] at hvalid
    tauto
  -- the message as it is stored, and its row
  have hsaved : Camel saved ∧ Mirrors row saved := by
    have hstored := hchat.stored
    rw [IsSaved, get?_cleanMessages h.ids] at hstored
    cases hget : s.chat.history.messages.get? call.message_id with
    | some message =>
      obtain ⟨raw, existing, hraw, rfl, hexisting, hmirrors⟩ := h.mirrored _ _ hget
      rw [hget, Option.map_some, sanitizeObj_idem] at hstored
      simp only at hstored
      rw [hexisting, upsertRow] at hrow
      have hsavedCamel : Camel saved := by
        rw [hstored]
        exact hraw.sanitize.update (hcamel.prepared str_)
      refine ⟨hsavedCamel, mirrors_update ((updateRow_iff round parseInt).mp hrow) hmirrors hsavedCamel ?_ hdone⟩
      intro k hk
      rw [hstored, Dict.mem_update, sanitizeObj_of_storable hraw.keys, Dict.mem_map]
      exact Or.inl hk
    | none =>
      rw [hget, Option.map_none] at hstored
      simp only at hstored
      obtain ⟨hsavedCamel, hrole⟩ := newMessage_keys hstored (hcamel.prepared str_)
      have hnone : s.rows.get? (compositeId chat_id call.message_id) = none := by
        rw [Dict.get?_eq_none_iff]
        intro hmem
        obtain ⟨id, hid, heq⟩ := h.rows _ hmem
        rw [← compositeId_inj heq] at hid
        exact (Dict.get?_eq_none_iff.mp hget) hid
      rw [hnone, upsertRow] at hrow
      exact ⟨hsavedCamel, mirrors_insert (insertRow_spec round parseInt hrow) hsavedCamel hrole⟩
  obtain ⟨hsavedCamel, hmirrors⟩ := hsaved
  have hget := hchat.get? h.ids hid
  exact
    { ids := by
        rw [hchat.history]
        exact storableKeys_cleanMessages _
      mirrored := by
        intro id message hmessage
        rw [hget] at hmessage
        rw [hrows]
        split at hmessage
        · rename_i heq
          cases hmessage
          exact ⟨saved, row, hsavedCamel, rfl, by rw [heq, Dict.get?_set_self], hmirrors⟩
        · rename_i hne
          obtain ⟨message', hmessage', rfl⟩ := Option.map_eq_some_iff.mp hmessage
          obtain ⟨raw, row', hraw, rfl, hrow', hmirrors'⟩ := h.mirrored id message' hmessage'
          refine ⟨raw, row', hraw, sanitizeObj_idem raw, ?_, hmirrors'⟩
          rw [Dict.get?_set_of_ne _ _ fun heq => hne (compositeId_inj heq), hrow']
      rows := by
        intro k hk
        rw [hrows, Dict.mem_set] at hk
        rcases hk with rfl | hk
        · exact ⟨_, Dict.mem_of_get? (by rw [hget, if_pos rfl]), rfl⟩
        · obtain ⟨id, hid, rfl⟩ := h.rows k hk
          obtain ⟨message, hmessage⟩ := Dict.mem_iff.mp hid
          refine ⟨id, Dict.mem_iff.mpr ?_, rfl⟩
          rw [hget, hmessage]
          split <;> exact ⟨_, rfl⟩ }

theorem agrees_run {start s : Store} {calls : List Call} (h : Agrees chat_id start)
    (hcalls : ∀ call ∈ calls, Storable call.message_id ∧ Camel call.message)
    (hrun : calls.foldlM (saveMessage round parseInt str_ chat_id) start = some s) : Agrees chat_id s := by
  induction calls generalizing start with
  | nil =>
    cases hrun
    exact h
  | cons call calls ih =>
    rw [List.foldlM_cons, Option.bind_eq_bind, Option.bind_eq_some_iff] at hrun
    obtain ⟨s₁, hsave, hrest⟩ := hrun
    obtain ⟨hid, hcamel⟩ := hcalls call List.mem_cons_self
    exact ih (agrees_save h hid hcamel hsave) (fun c hc => hcalls c (List.mem_cons_of_mem _ hc)) hrest

/-! ## Reading -/

/-- A message that the rows make is the one of the history: strings as sanitizing leaves them, and the defaults of
    the content and of `done` for what is not there. -/
structure Matches (rebuilt stored : Obj) : Prop where
  fields : ∀ key ∈ [kRole, kParentId, kOutput, kFiles, kSources, kEmbeds, kError],
    (field rebuilt key).sanitize_data_for_db = field stored key
  content : (field rebuilt kContent).sanitize_data_for_db =
    if (field stored kContent).isNone then .str [] else field stored kContent
  done : (if (field stored kDone).isNone then .bool true else field stored kDone).eq (field rebuilt kDone) = true

theorem isNone_sanitize (v : Val) : v.sanitize_data_for_db.isNone = v.isNone := by
  cases v <;> simp [Val.sanitize_data_for_db, Val.isNone]

theorem field_sanitizeObj {message : Obj} (h : Camel message) (key : Str) :
    field (sanitizeObj message) key = (field message key).sanitize_data_for_db := by
  rw [field, field, get?_sanitizeObj h.keys]
  cases message.get? key with
  | none => simp [Val.sanitize_data_for_db]
  | some v => rfl

theorem sanitize_of_number {v : Val} {q : Rat} (h : v.number? = some q) : v.sanitize_data_for_db = v := by
  cases v with
  | bool | int | float => simp [Val.sanitize_data_for_db]
  | _ => cases h

theorem eq_of_number {v w : Val} {q : Rat} (hv : v.number? = some q) (hw : w.number? = some q) : v.eq w = true := by
  cases v with
  | bool | int | float =>
    rw [Val.eq, beq_iff_eq]
    exact hw.trans hv.symm
  | _ => cases hv

/-- What a boolean column takes equals the boolean it holds then. -/
theorem eq_of_asBool {v : Val} {b : Bool} (h : asBool v = some (some b)) :
    v.sanitize_data_for_db.eq (.bool b) = true := by
  have hnumber : v.number? = some (if b then 1 else 0) := by
    unfold asBool at h
    split_ifs at h with hnone hzero hone
    · cases h
    · cases h
      exact hzero
    · cases h
      exact hone
  rw [sanitize_of_number hnumber]
  exact eq_of_number hnumber rfl

theorem isNone_of_asBool {v : Val} (h : asBool v = some none) : v.isNone = true := by
  by_contra hnone
  rw [asBool, if_neg hnone] at h
  split_ifs at h <;> cases h

theorem field_rebuilt {message_id : Str} {row : Row} {raw : Obj} (h : Mirrors row raw) (children : Val) {key : Str}
    (hkey : key ∈ mirrored.map Prod.fst) (hcontent : key ≠ kContent) :
    field ((rowMessage message_id row).set kChildrenIds children) key = field raw key := by
  have hchildren : ∀ c ∈ mirrored, c.1 ≠ kChildrenIds := by decide
  obtain ⟨c, hc, rfl⟩ := List.mem_map.mp hkey
  have hcolumn : c ∈ columns := by
    revert c
    simp [mirrored, columns]
  rw [field_set, if_neg (hchildren c hc), field_rowMessage message_id row hcolumn hcontent, h.columns c hc]

/-- **A row makes the message again** that the history has. -/
theorem matches_of_mirrors {message_id : Str} {row : Row} {raw : Obj} (hcamel : Camel raw) (h : Mirrors row raw)
    (children : Val) : Matches ((rowMessage message_id row).set kChildrenIds children) (sanitizeObj raw) where
  fields := by
    have hfields : ∀ key ∈ [kRole, kParentId, kOutput, kFiles, kSources, kEmbeds, kError],
        key ∈ mirrored.map Prod.fst ∧ key ≠ kContent := by decide
    intro key hkey
    rw [field_rebuilt h children (hfields key hkey).1 (hfields key hkey).2, field_sanitizeObj hcamel]
  content := by
    have hcolumn : row.content = field raw kContent := h.columns (kContent, Row.content) (by simp [mirrored])
    rw [field_set, if_neg (by decide), content_rowMessage, hcolumn, field_sanitizeObj hcamel, isNone_sanitize]
    split
    · rfl
    · rfl
  done := by
    obtain ⟨done, hasBool, hrow⟩ := h.done
    have hcolumn : field (rowMessage message_id row) kDone = row.done.elim .none .bool :=
      field_rowMessage message_id row (c := (kDone, fun row => row.done.elim .none .bool)) (by simp [columns])
        (by decide)
    have hchildren : kDone ≠ kChildrenIds := by decide
    rw [field_set, if_neg hchildren, hcolumn, hrow, field_sanitizeObj hcamel, isNone_sanitize]
    cases done with
    | some b =>
      have hsome : (field raw kDone).isNone ≠ true := by
        intro hnone
        rw [asBool, if_pos hnone] at hasBool
        cases hasBool
      rw [if_neg hsome]
      exact eq_of_asBool hasBool
    | none =>
      rw [if_pos (isNone_of_asBool hasBool)]
      exact Val.eq_refl _

/-- The rows make the messages of the history, in whichever order the database lists them. -/
theorem rebuilt_of_agrees {s : Store} (h : Agrees chat_id s) {rows : List (Str × Row)} (hperm : rows.Perm s.rows.items) :
    let rebuilt := (get_messages_map_by_chat_id chat_id rows).getD .empty
    (∀ id, id ∈ rebuilt ↔ id ∈ s.chat.history.messages) ∧
    (∀ id message stored, rebuilt.get? id = some message → s.chat.history.messages.get? id = some stored →
      Matches message stored) ∧
    Linked rebuilt fun p c => p ≠ [] ∧ parentOf rebuilt c = some p := by
  have hlisted : Listed chat_id s.rows rows :=
    ⟨hperm, fun k hk => (h.rows k hk).imp fun _ hid => hid.2⟩
  intro rebuilt
  have hget : ∀ id, rebuilt.get? id = (s.rows.get? (compositeId chat_id id)).map fun row =>
      (rowMessage id row).set kChildrenIds (.list ((childrenOf chat_id rows id).map .str)) := get?_messages_map hlisted
  refine ⟨fun id => ?_, ?_, ?_⟩
  · constructor
    · intro hid
      obtain ⟨message, hmessage⟩ := Dict.mem_iff.mp hid
      rw [hget, Option.map_eq_some_iff] at hmessage
      obtain ⟨row, hrow, -⟩ := hmessage
      obtain ⟨id', hid', heq⟩ := h.rows _ (Dict.mem_of_get? hrow)
      rwa [compositeId_inj heq]
    · intro hid
      obtain ⟨stored, hstored⟩ := Dict.mem_iff.mp hid
      obtain ⟨raw, row, -, -, hrow, -⟩ := h.mirrored id stored hstored
      exact Dict.mem_iff.mpr ⟨_, by rw [hget, hrow, Option.map_some]⟩
  · intro id message stored hmessage hstored
    obtain ⟨raw, row, hraw, rfl, hrow, hmirrors⟩ := h.mirrored id stored hstored
    rw [hget, hrow] at hmessage
    cases hmessage
    exact matches_of_mirrors hraw hmirrors _
  · intro id message hmessage
    rw [hget, Option.map_eq_some_iff] at hmessage
    obtain ⟨row, -, rfl⟩ := hmessage
    refine ⟨childrenOf chat_id rows id, Dict.get?_set_self _ _ _, nodup_childrenAmong (Dict.nodup _) id, fun c => ?_⟩
    rw [mem_childrenOf hlisted]
    have hparent : parentOf rebuilt c = some id ↔
        ∃ row, s.rows.get? (compositeId chat_id c) = some row ∧ row.parent_id = some id := by
      rw [parentOf, hget]
      cases s.rows.get? (compositeId chat_id c) with
      | none => simp
      | some row =>
        have hfield : field ((rowMessage c row).set kChildrenIds (.list ((childrenOf chat_id rows c).map .str)))
            kParentId = textVal row.parent_id := by
          rw [field_set, if_neg (by decide), parent_rowMessage]
        rw [Option.map_some, Option.bind_some, hfield]
        cases hid : row.parent_id <;> simp [textVal, Val.text?, hid]
    show _ ↔ id ≠ [] ∧ parentOf rebuilt c = some id
    rw [hparent]

/-- **The rows of a chat make its messages again**, after any saves: those ids, those fields, and under each
    message the children that name it. Only a message without a name has no children. -/
theorem rebuilt_from_rows {start s : Store} (hmessages : start.chat.history.messages = .empty)
    (hrows : start.rows = .empty) {calls : List Call}
    (hcalls : ∀ call ∈ calls, Storable call.message_id ∧ Camel call.message)
    (hrun : calls.foldlM (saveMessage round parseInt str_ chat_id) start = some s) {rows : List (Str × Row)}
    (hperm : rows.Perm s.rows.items) :
    let rebuilt := (get_messages_map_by_chat_id chat_id rows).getD .empty
    (∀ id, id ∈ rebuilt ↔ id ∈ s.chat.history.messages) ∧
    (∀ id message stored, rebuilt.get? id = some message → s.chat.history.messages.get? id = some stored →
      Matches message stored) ∧
    Linked rebuilt fun p c => p ≠ [] ∧ parentOf rebuilt c = some p := by
  have hstart : Agrees chat_id start :=
    { ids := by
        rw [hmessages]
        exact fun k hk => absurd hk (Dict.not_mem_empty k)
      mirrored := by
        intro id message hmessage
        rw [hmessages] at hmessage
        cases hmessage
      rows := by
        rw [hrows]
        exact fun k hk => absurd hk (Dict.not_mem_empty k) }
  exact rebuilt_of_agrees (agrees_run hstart hcalls hrun) hperm

end

/-- A chat without messages. -/
def newChat : Store := ⟨⟨py "u", some (py "New Chat"), .empty, .empty, none, 0⟩, .empty⟩

def said (role content : Str) (parentId : Val) : Obj :=
  ((Dict.empty.set kRole (.str role)).set kContent (.str content)).set kParentId parentId

theorem camel_said (role content : Str) (parentId : Val) : Camel (said role content parentId) := by
  have hkeys : ∀ k ∈ [kRole, kContent, kParentId],
      Storable k ∧ k ∉ [cParentId, cModelId, cStatusHistory, cContextSummary] := by
    unfold Storable
    decide
  exact fun k hk => hkeys k hk

/-- A question and its answer, both of them saved, and the answer once more when it is done. -/
def exchange : List Call :=
  [⟨py "q", said (py "user") (py "hi") .none, true, 1⟩,
    ⟨py "a", said (py "assistant") [] (.str (py "q")), true, 2⟩,
    ⟨py "a", said (py "assistant") (py "hello") (.str (py "q")), true, 3⟩]

def saveAll (calls : List Call) : Option Store :=
  calls.foldlM (saveMessage id (fun _ => none) (fun _ => []) (py "c")) newChat

def rebuiltMap (s : Store) : Dict Str Obj := (get_messages_map_by_chat_id (py "c") s.rows.items).getD .empty

theorem rebuilt_from_rows_exchange : ∃ s, saveAll exchange = some s ∧
    (∀ id, id ∈ rebuiltMap s ↔ id ∈ s.chat.history.messages) ∧
    (∀ id message stored, (rebuiltMap s).get? id = some message → s.chat.history.messages.get? id = some stored →
      Matches message stored) ∧
    Linked (rebuiltMap s) fun p c => p ≠ [] ∧ parentOf (rebuiltMap s) c = some p := by
  have hsome : (saveAll exchange).isSome = true := by decide
  obtain ⟨s, hs⟩ := Option.isSome_iff_exists.mp hsome
  have hcalls : ∀ call ∈ exchange, Storable call.message_id ∧ Camel call.message := by
    have hids : Storable (py "q") ∧ Storable (py "a") := by
      unfold Storable
      decide
    simp only [exchange, List.forall_mem_cons]
    exact ⟨⟨hids.1, camel_said _ _ _⟩, ⟨hids.2, camel_said _ _ _⟩, ⟨hids.2, camel_said _ _ _⟩, nofun⟩
  exact ⟨s, hs, rebuilt_from_rows rfl rfl hcalls hs (List.Perm.refl _)⟩

/-! ## A message without a name -/

/-- A message under the empty id, and one that names it as its parent. -/
def unnamed : List Call :=
  [⟨[], said (py "user") (py "hi") .none, true, 1⟩, ⟨py "a", said (py "assistant") (py "hello") (.str []), true, 2⟩]

/-- **Under the empty id a message does not list its children**: the reader takes the empty text for no parent. -/
theorem childless_unnamed : (∀ call ∈ unnamed, Storable call.message_id ∧ Camel call.message) ∧
    ∃ s, saveAll unnamed = some s ∧ ¬ Linked (rebuiltMap s) fun p c => parentOf (rebuiltMap s) c = some p := by
  have hparent : (saveAll unnamed).map (fun s => parentOf (rebuiltMap s) (py "a")) = some (some []) := by decide
  have hchildren : (saveAll unnamed).map (fun s => ((rebuiltMap s).get? []).map fun m => m.get? kChildrenIds) =
      some (some (some (.list []))) := rfl
  constructor
  · have hids : Storable [] ∧ Storable (py "a") := by
      unfold Storable
      decide
    simp only [unnamed, List.forall_mem_cons]
    exact ⟨⟨hids.1, camel_said _ _ _⟩, ⟨hids.2, camel_said _ _ _⟩, nofun⟩
  · obtain ⟨s, hs, hparent⟩ := Option.map_eq_some_iff.mp hparent
    rw [hs, Option.map_some, Option.some.injEq, Option.map_eq_some_iff] at hchildren
    obtain ⟨message, hmessage, hempty⟩ := hchildren
    refine ⟨s, hs, fun hlinked => ?_⟩
    obtain ⟨ids, hids, -, hmem⟩ := hlinked [] message hmessage
    rw [hempty] at hids
    have hnil : ids = [] := by
      cases ids with
      | nil => rfl
      | cons => cases hids
    have hlisted := (hmem (py "a")).mpr hparent
    rw [hnil] at hlisted
    cases hlisted

end Chats
end MaterialOpenWebui
