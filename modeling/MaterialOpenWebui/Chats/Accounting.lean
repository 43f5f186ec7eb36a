import MaterialOpenWebui.Chats.Rows

/-!
# `Chats.Accounting` — writing a message to its row twice

A row is written again whenever its message is saved or its chat reconciled. Every column but the usage holds
what was written last. The usage is summed up, unless it equals what is stored; so it is counted once as long
as it is the only one, and twice as soon as there was another before it.
-/

namespace MaterialOpenWebui
namespace Chats
open Py

section
variable (round : Rat → Rat) (parseInt : Str → Option Int)

/-! ## The condition -/

/-- Normalizing it changes nothing. -/
def Settled (usage : Obj) : Prop := normalize_usage round parseInt usage = some usage

/-- The usage is counted in once, however often it comes: nothing is stored yet, or it is what is stored, or one
    of the two adds nothing to the other. -/
def Once (stored : Val) (usage : Obj) : Prop :=
  Settled round parseInt usage ∧ (stored.truthy = false ∨ ∃ existing, storedUsage round parseInt stored = some existing ∧
    Settled round parseInt existing ∧ ((Val.dict usage.items).eq (.dict existing.items) = true ∨
      Counted existing ∧ Counted usage ∧ (addsNothing usage = true ∨
        (Val.dict usage.items).eq (.dict (mergeNormalized round existing usage).items) = true)))

def CountsOnce (existing : Option Row) (data : Obj) : Prop :=
  (existing = none → data.get? kDone ≠ some .none) ∧
    ∀ usage, get_usage round parseInt data = some (some usage) → Once round parseInt (existing.elim .none Row.usage) usage

/-! ## One column -/

theorem storedUsage_items {usage : Obj} (h : usage.items ≠ []) :
    storedUsage round parseInt (.dict usage.items) = normalize_usage round parseInt usage := by
  have htruthy : (Val.dict usage.items).truthy = true := by
    rw [Val.truthy]
    cases hitems : usage.items with
    | nil => exact absurd hitems h
    | cons => rfl
  rw [storedUsage, if_pos htruthy, Val.obj?, Dict.firsts_items, Option.bind_some]

theorem items_of_eq {usage usage' : Obj} (h : (Val.dict usage.items).eq (.dict usage'.items) = true)
    (hne : usage.items ≠ []) : usage'.items ≠ [] := by
  rw [Val.eq, Bool.and_eq_true, beq_iff_eq, Dict.firsts_items, Dict.firsts_items] at h
  intro hempty
  have hsize := h.1
  rw [Dict.size, Dict.size, hempty, List.length_nil] at hsize
  exact hne (List.eq_nil_of_length_eq_zero hsize)

theorem normalize_usage_empty : normalize_usage round parseInt .empty = some .empty := rfl

/-- What is settled and stored stays, when it comes again. -/
theorem accumulate_stored {data usage existing : Obj} (hget : get_usage round parseInt data = some (some usage))
    (hne : usage.items ≠ []) (hsettled : Settled round parseInt existing)
    (heq : (Val.dict usage.items).eq (.dict existing.items) = true) :
    accumulate round parseInt (.dict existing.items) data = some (.dict existing.items) := by
  rw [accumulate, hget, Option.bind_some]
  simp only [if_neg hne, storedUsage_items round parseInt (items_of_eq heq hne)]
  rw [Settled] at hsettled
  rw [hsettled, Option.bind_some, if_pos heq]

/-- **The usage column is as it was**, when the same usage comes again. -/
theorem accumulate_again {stored stored' : Val} {data : Obj}
    (h : ∀ usage, get_usage round parseInt data = some (some usage) → Once round parseInt stored usage)
    (hacc : accumulate round parseInt stored data = some stored') :
    accumulate round parseInt stored' data = some stored' := by
  cases hget : get_usage round parseInt data with
  | none =>
    rw [accumulate, hget] at hacc
    cases hacc
  | some reported =>
  cases reported with
  | none => rw [accumulate, hget]; rfl
  | some usage =>
  obtain ⟨hsettled, hstored⟩ := h usage hget
  by_cases hne : usage.items = []
  · rw [accumulate, hget]
    exact if_pos hne
  rw [accumulate, hget, Option.bind_some] at hacc
  simp only [if_neg hne] at hacc
  rcases hstored with hfalsy | ⟨existing, hexisting, hsettled', hcases⟩
  · -- nothing was stored: the usage is, and is found there the second time
    have hempty : storedUsage round parseInt stored = some .empty := by
      rw [storedUsage, hfalsy, if_neg Bool.false_ne_true]
    have hdiffers : ¬ (Val.dict usage.items).eq (.dict (Dict.empty : Obj).items) = true := fun heq =>
      items_of_eq heq hne rfl
    rw [hempty, Option.bind_some, if_neg hdiffers, merge_usage, normalize_usage_empty, Option.bind_eq_bind,
      Option.bind_some] at hacc
    have hnormal : normalize_usage round parseInt usage = some usage := hsettled
    simp only [hnormal, Option.bind_some, if_neg hne, Option.map_some, Option.some.injEq] at hacc
    have hitems : stored' = .dict usage.items := hacc.symm
    rw [hitems]
    exact accumulate_stored round parseInt hget hne hsettled (Val.eq_refl _)
  · rw [hexisting, Option.bind_some] at hacc
    by_cases heq : (Val.dict usage.items).eq (.dict existing.items) = true
    · rw [if_pos heq, Option.some.injEq] at hacc
      rw [← hacc]
      exact accumulate_stored round parseInt hget hne hsettled' heq
    · obtain ⟨hcounted, hcounted', hnothing⟩ := hcases.resolve_left heq
      have hmerge : ∀ {current : Obj}, Counted current →
          merge_usage round parseInt current usage = some (mergeNormalized round current usage) := by
        intro current hcurrent
        rw [merge_usage, normalize_usage_of_counted round parseInt hcurrent,
          normalize_usage_of_counted round parseInt hcounted']
        simp only [Option.bind_eq_bind, Option.bind_some, if_neg hne, if_neg (items_of_counted hcurrent)]
      have hmerged := counted_mergeNormalized round hcounted hcounted'
      rw [if_neg heq, hmerge hcounted, Option.map_some, Option.some.injEq] at hacc
      rw [← hacc]
      have hsettledMerged : Settled round parseInt (mergeNormalized round existing usage) :=
        normalize_usage_of_counted round parseInt hmerged
      by_cases hsame : (Val.dict usage.items).eq (.dict (mergeNormalized round existing usage).items) = true
      · exact accumulate_stored round parseInt hget hne hsettledMerged hsame
      · have hzero := hnothing.resolve_right hsame
        rw [accumulate, hget, Option.bind_some]
        simp only [if_neg hne, storedUsage_items round parseInt (items_of_counted hmerged)]
        rw [Settled] at hsettledMerged
        rw [hsettledMerged, Option.bind_some, if_neg hsame, hmerge hmerged, Option.map_some,
          mergeNormalized_again round hzero]

theorem column_again {α : Type} {data : Obj} {keys : List Str} {value : Option α} {held x : α}
    (h : column data keys value held = some x) : column data keys value x = some x := by
  rw [column] at h ⊢
  split at h
  · rename_i hany
    rw [if_pos hany, h]
  · rename_i hany
    rw [if_neg hany]

theorem column_of_present {α : Type} {data : Obj} {keys : List Str} {value : Option α} {x : α}
    (h : (∃ k ∈ keys, k ∈ data) → value = some x) : column data keys value x = some x := by
  unfold column
  split
  · rename_i hany
    obtain ⟨k, hk, hmem⟩ := List.any_eq_true.mp hany
    exact h ⟨k, hk, of_decide_eq_true hmem⟩
  · rfl

/-! ## One row -/

theorem updated_again {existing row : Row} {data : Obj} {now : Int} (now' : Int)
    (h : Updated round parseInt existing data now row)
    (husage : accumulate round parseInt row.usage data = some row.usage) :
    updateRow round parseInt row data now' = some { row with updated_at := now' } :=
  (updateRow_iff round parseInt).mpr
    { role := column_again h.role
      parent_id := column_again h.parent_id
      content := column_again h.content
      output := column_again h.output
      model_id := column_again h.model_id
      files := column_again h.files
      sources := column_again h.sources
      embeds := column_again h.embeds
      meta_ := column_again h.meta_
      done := column_again h.done
      status_history := column_again h.status_history
      error := column_again h.error
      context_summary := column_again h.context_summary
      usage := husage
      chat_id := rfl
      user_id := rfl
      created_at := rfl
      updated_at := rfl }

/-- A new row, and the update with the same message. -/
theorem inserted_again {chat_id user_id : Str} {row : Row} {data : Obj} {now : Int} (now' : Int)
    (h : Inserted round parseInt chat_id user_id data now row) (hdone : data.get? kDone ≠ some .none)
    (hsettled : ∀ usage, get_usage round parseInt data = some (some usage) → Settled round parseInt usage) :
    updateRow round parseInt row data now' = some { row with updated_at := now' } := by
  have hpresent : ∀ {k : Str} (default_ : Val), k ∈ data → (data.get? k).getD default_ = field data k := by
    intro k default_ hk
    obtain ⟨v, hv⟩ := Dict.mem_iff.mp hk
    rw [field, hv, Option.getD_some, Option.getD_some]
  refine (updateRow_iff round parseInt).mpr
    { role := column_of_present ?_
      parent_id := column_of_present fun _ => h.parent_id
      content := column_of_present fun _ => congrArg some h.content.symm
      output := column_of_present fun _ => congrArg some h.output.symm
      model_id := column_of_present fun _ => h.model_id
      files := column_of_present fun _ => congrArg some h.files.symm
      sources := column_of_present fun _ => congrArg some h.sources.symm
      embeds := column_of_present fun _ => congrArg some h.embeds.symm
      meta_ := column_of_present fun _ => congrArg some h.meta_.symm
      done := column_of_present ?_
      status_history := column_of_present fun _ => congrArg some h.status_history.symm
      error := column_of_present fun _ => congrArg some h.error.symm
      context_summary := column_of_present fun _ => h.context_summary
      usage := ?_
      chat_id := rfl
      user_id := rfl
      created_at := rfl
      updated_at := rfl }
  · rintro ⟨k, hk, hmem⟩
    rw [List.mem_singleton] at hk
    subst hk
    have hrole := h.role
    rwa [hpresent _ hmem] at hrole
  · rintro ⟨k, hk, hmem⟩
    rw [List.mem_singleton] at hk
    subst hk
    obtain ⟨done, hasBool, hrow⟩ := h.done
    rw [hpresent _ hmem] at hasBool
    rw [hasBool, hrow]
    cases done with
    | some b => rfl
    | none =>
      -- only None is stored as NULL
      exfalso
      obtain ⟨v, hv⟩ := Dict.mem_iff.mp hmem
      rw [field_eq hv] at hasBool
      cases v with
      | none => exact hdone hv
      | _ => simp [asBool, Val.isNone, ite_eq_iff] at hasBool
  · obtain ⟨usage, hget, hrow⟩ := h.usage
    rw [hrow]
    cases usage with
    | none =>
      rw [accumulate, hget]
      rfl
    | some usage =>
      by_cases hne : usage.items = []
      · rw [accumulate, hget]
        exact if_pos hne
      · exact accumulate_stored round parseInt hget hne (hsettled usage hget) (Val.eq_refl _)

theorem asInt_int (n : Int) : asInt (.int n) = some (some n) := by
  simp [asInt, Val.isNone, Val.number?]

/-- What raises at one time raises at any. -/
theorem upsertRow_isSome {existing row : Option Row} {chat_id user_id : Str} {data : Obj} {now : Int} (now' : Int)
    (h : upsertRow round parseInt existing chat_id user_id data now = row) (hsome : row.isSome = true) :
    (upsertRow round parseInt existing chat_id user_id data now').isSome = true := by
  obtain ⟨row, rfl⟩ := Option.isSome_iff_exists.mp hsome
  cases existing with
  | some existing =>
    have hupdated := (updateRow_iff round parseInt).mp h
    have hagain : updateRow round parseInt existing data now' = some { row with updated_at := now' } :=
      (updateRow_iff round parseInt).mpr { hupdated with updated_at := rfl }
    rw [upsertRow, hagain]
    rfl
  | none =>
    simp only [upsertRow, insertRow, Option.bind_eq_bind, Option.bind_eq_some_iff, Option.some.injEq] at h ⊢
    obtain ⟨usage, husage, role, hrole, parent_id, hparent, model_id, hmodel, done, hdone, context_summary, hsummary,
      created_at, hcreated, -⟩ := h
    obtain ⟨created_at', hcreated'⟩ : ∃ created_at, asInt ((data.get? kTimestamp).getD (.int now')) = some created_at := by
      cases hget : data.get? kTimestamp with
      | none => exact ⟨_, asInt_int now'⟩
      | some v =>
        rw [hget] at hcreated
        exact ⟨_, hcreated⟩
    simp only [husage, hrole, hparent, hmodel, hdone, hsummary, hcreated', Option.bind_some, Option.isSome_some]

/-- The row after a write: a write that raises leaves what was there. -/
def written (chat_id user_id : Str) (existing : Option Row) (data : Obj) (now : Int) : Option Row :=
  (upsertRow round parseInt existing chat_id user_id data now).or existing

/-- The row but for the time of its last write. -/
def Row.timeless (row : Row) : Row := { row with updated_at := 0 }

variable {round parseInt} {chat_id user_id : Str}

/-- **Writing a message to its row a second time changes nothing** but the time of the write. -/
theorem written_again {existing : Option Row} {data : Obj} (h : CountsOnce round parseInt existing data) (now now' : Int) :
    (written round parseInt chat_id user_id (written round parseInt chat_id user_id existing data now) data now').map
      Row.timeless = (written round parseInt chat_id user_id existing data now).map Row.timeless := by
  obtain ⟨hdone, honce⟩ := h
  cases hwrite : upsertRow round parseInt existing chat_id user_id data now with
  | none =>
    -- what raised once raises again
    have hleft : written round parseInt chat_id user_id existing data now = existing := by
      rw [written, hwrite, Option.none_or]
    have hrefused : upsertRow round parseInt existing chat_id user_id data now' = none := by
      by_contra hne
      have hsome := upsertRow_isSome round parseInt now rfl (Option.isSome_iff_ne_none.mpr hne)
      rw [hwrite] at hsome
      cases hsome
    rw [hleft, written, hrefused, Option.none_or]
  | some row =>
    have hleft : written round parseInt chat_id user_id existing data now = some row := by
      rw [written, hwrite, Option.some_or]
    have hagain : updateRow round parseInt row data now' = some { row with updated_at := now' } := by
      cases existing with
      | none =>
        exact inserted_again round parseInt now' (insertRow_spec round parseInt hwrite) (hdone rfl)
          fun usage hget => (honce usage hget).1
      | some existing =>
        have hupdated := (updateRow_iff round parseInt).mp hwrite
        exact updated_again round parseInt now' hupdated (accumulate_again round parseInt honce hupdated.usage)
    rw [hleft, written, upsertRow, hagain]
    rfl

/-- When the last write was does not matter to the next. -/
theorem written_congr {row row' : Option Row} (h : row.map Row.timeless = row'.map Row.timeless) (data : Obj)
    (now : Int) : (written round parseInt chat_id user_id row data now).map Row.timeless =
      (written round parseInt chat_id user_id row' data now).map Row.timeless := by
  cases row with
  | none =>
    cases row' with
    | none => rfl
    | some _ => cases h
  | some row =>
    cases row' with
    | none => cases h
    | some row' =>
      have heq : row.timeless = row'.timeless := Option.some.inj h
      have hupdate : ∀ r : Row, updateRow round parseInt r.timeless data now = updateRow round parseInt r data now :=
        fun _ => rfl
      have hsame : updateRow round parseInt row data now = updateRow round parseInt row' data now := by
        rw [← hupdate row, heq, hupdate row']
      rw [written, written, upsertRow, upsertRow, hsame]
      cases updateRow round parseInt row' data now with
      | none => exact h
      | some _ => rfl

/-! ## A chat -/

variable (round parseInt chat_id user_id)

/-- `backfill_messages_by_chat_id`, which `reconcile_messages_by_chat_id` calls: every message that has a role is
    written to its row, and what raises is skipped. -/
def reconcile_messages_by_chat_id (table : Dict Str Row) (messages : List (Str × Obj)) (now : Int) : Dict Str Row :=
  messages.foldl (fun table p =>
    if (field p.2 kRole).truthy then
      (upsert_message round parseInt table p.1 chat_id user_id p.2 now).getD table
    else table) table

variable {round parseInt chat_id user_id}

theorem get?_upsert_message (table : Dict Str Row) (message_id : Str) (data : Obj) (now : Int) (id : Str) :
    ((upsert_message round parseInt table message_id chat_id user_id data now).getD table).get? id =
      if id = compositeId chat_id message_id then written round parseInt chat_id user_id (table.get? id) data now
      else table.get? id := by
  rw [upsert_message, written]
  by_cases hid : id = compositeId chat_id message_id
  · rw [if_pos hid, hid]
    cases upsertRow round parseInt (table.get? (compositeId chat_id message_id)) chat_id user_id data now with
    | none => rfl
    | some row => exact Dict.get?_set_self _ _ _
  · rw [if_neg hid]
    cases upsertRow round parseInt (table.get? (compositeId chat_id message_id)) chat_id user_id data now with
    | none => rfl
    | some row => exact Dict.get?_set_of_ne _ _ hid

/-- What a reconciliation writes to the row of each message. -/
theorem get?_reconcile {messages : List (Str × Obj)} (hnodup : (messages.map Prod.fst).Nodup)
    (table : Dict Str Row) (now : Int) (id : Str) :
    (reconcile_messages_by_chat_id round parseInt chat_id user_id table messages now).get? id =
      match messages.find? fun p => id = compositeId chat_id p.1 with
      | some p =>
        if (field p.2 kRole).truthy then written round parseInt chat_id user_id (table.get? id) p.2 now
        else table.get? id
      | none => table.get? id := by
  induction messages generalizing table with
  | nil => rfl
  | cons p messages ih =>
    obtain ⟨hnot, hrest⟩ := List.nodup_cons.mp hnodup
    rw [reconcile_messages_by_chat_id, List.foldl_cons]
    have hih := fun table => ih hrest table
    simp only [reconcile_messages_by_chat_id] at hih
    rw [hih]
    by_cases hid : id = compositeId chat_id p.1
    · have hnone : messages.find? (fun q => id = compositeId chat_id q.1) = none := by
        rw [List.find?_eq_none]
        intro q hq hfound
        have heq := compositeId_inj (hid.symm.trans (of_decide_eq_true hfound))
        exact hnot (heq ▸ List.mem_map_of_mem hq)
      have hfound : (p :: messages).find? (fun q => id = compositeId chat_id q.1) = some p :=
        List.find?_cons_of_pos (decide_eq_true hid)
      rw [hnone, hfound]
      simp only
      split
      · rw [get?_upsert_message, if_pos hid]
      · rfl
    · have hlater : (p :: messages).find? (fun q => id = compositeId chat_id q.1) =
          messages.find? fun q => id = compositeId chat_id q.1 := List.find?_cons_of_neg (by simpa using hid)
      rw [hlater]
      have hsame : (if (field p.2 kRole).truthy = true then
          (upsert_message round parseInt table p.1 chat_id user_id p.2 now).getD table else table).get? id =
          table.get? id := by
        split
        · rw [get?_upsert_message, if_neg hid]
        · rfl
      rw [hsame]

/-- **A chat reconciled any number of times** with an unchanged history has the rows of the first time. -/
theorem reconciled_again {messages : List (Str × Obj)} (hnodup : (messages.map Prod.fst).Nodup) {table : Dict Str Row}
    (h : ∀ p ∈ messages, (field p.2 kRole).truthy = true →
      CountsOnce round parseInt (table.get? (compositeId chat_id p.1)) p.2) (now : Int) (nows : List Int) (id : Str) :
    ((nows.foldl (fun table now => reconcile_messages_by_chat_id round parseInt chat_id user_id table messages now)
        (reconcile_messages_by_chat_id round parseInt chat_id user_id table messages now)).get? id).map Row.timeless =
      ((reconcile_messages_by_chat_id round parseInt chat_id user_id table messages now).get? id).map Row.timeless := by
  -- one more reconciliation, of any table whose row under the id is that of the first
  have hstep : ∀ (table' : Dict Str Row) (now' : Int), (table'.get? id).map Row.timeless =
      ((reconcile_messages_by_chat_id round parseInt chat_id user_id table messages now).get? id).map Row.timeless →
      ((reconcile_messages_by_chat_id round parseInt chat_id user_id table' messages now').get? id).map Row.timeless =
        ((reconcile_messages_by_chat_id round parseInt chat_id user_id table messages now).get? id).map Row.timeless := by
    intro table' now' hsame
    simp only [get?_reconcile hnodup] at hsame ⊢
    cases hfind : messages.find? fun p => id = compositeId chat_id p.1 with
    | none =>
      rw [hfind] at hsame
      exact hsame
    | some p =>
      rw [hfind] at hsame
      simp only at hsame ⊢
      split
      · rename_i hrole
        rw [if_pos hrole] at hsame
        have hid : id = compositeId chat_id p.1 := by simpa using List.find?_some hfind
        have honce := h p (List.mem_of_find?_eq_some hfind) hrole
        rw [← hid] at honce
        exact (written_congr hsame p.2 now').trans (written_again honce now now')
      · rename_i hrole
        rw [if_neg hrole] at hsame
        exact hsame
  have hrun : ∀ (nows : List Int) (table' : Dict Str Row), (table'.get? id).map Row.timeless =
      ((reconcile_messages_by_chat_id round parseInt chat_id user_id table messages now).get? id).map Row.timeless →
      ((nows.foldl (fun table now => reconcile_messages_by_chat_id round parseInt chat_id user_id table messages now)
        table').get? id).map Row.timeless =
        ((reconcile_messages_by_chat_id round parseInt chat_id user_id table messages now).get? id).map Row.timeless := by
    intro nows
    induction nows with
    | nil => exact fun _ hsame => hsame
    | cons now' nows ih => exact fun table' hsame => ih _ (hstep table' now' hsame)
  exact hrun nows _ rfl

/-- **A message is counted once**: its row written a second time, and its chat reconciled any number of times,
    hold what they held after the first, but for the time of the write. -/
theorem counted_once {messages : Dict Str Obj} {table : Dict Str Row}
    (h : ∀ p ∈ messages.items, CountsOnce round parseInt (table.get? (compositeId chat_id p.1)) p.2) :
    (∀ p ∈ messages.items, ∀ now now',
      (written round parseInt chat_id user_id (written round parseInt chat_id user_id
          (table.get? (compositeId chat_id p.1)) p.2 now) p.2 now').map Row.timeless =
        (written round parseInt chat_id user_id (table.get? (compositeId chat_id p.1)) p.2 now).map Row.timeless) ∧
    ∀ (now : Int) (nows : List Int) (id : Str),
      ((nows.foldl (fun table now => reconcile_messages_by_chat_id round parseInt chat_id user_id table messages.items now)
          (reconcile_messages_by_chat_id round parseInt chat_id user_id table messages.items now)).get? id).map
            Row.timeless =
        ((reconcile_messages_by_chat_id round parseInt chat_id user_id table messages.items now).get? id).map
          Row.timeless :=
  ⟨fun p hp now now' => written_again (h p hp) now now', fun now nows id =>
    reconciled_again messages.nodup_keys (fun p hp _ => h p hp) now nows id⟩

end

/-- A reply with the usage of its model call. -/
def reply (prompt_tokens completion_tokens : Int) : Obj :=
  (Dict.empty.set kRole (.str (py "assistant"))).set kUsage
    (.dict [(kPromptTokens, .int prompt_tokens), (kCompletionTokens, .int completion_tokens)])

/-- A chat with one reply, and its table when the reply has been written. -/
def oneReply : Dict Str Obj := Dict.empty.set (py "a") (reply 10 5)
def oneRow : Dict Str Row :=
  reconcile_messages_by_chat_id id noParse (py "c") (py "u") .empty oneReply.items 1772820000

/-- Its usage, as it is stored. -/
def oneUsage : Obj :=
  (((Dict.firsts [(kPromptTokens, .int 10), (kCompletionTokens, .int 5)]).set kInputTokens (.int 10)).set
    kOutputTokens (.int 5)).set kTotalTokens (.int 15)

/-- The one reply is counted once. -/
theorem counted_once_oneReply :
    (∀ p ∈ oneReply.items, ∀ now now',
      (written id noParse (py "c") (py "u") (written id noParse (py "c") (py "u")
          (oneRow.get? (compositeId (py "c") p.1)) p.2 now) p.2 now').map Row.timeless =
        (written id noParse (py "c") (py "u") (oneRow.get? (compositeId (py "c") p.1)) p.2 now).map Row.timeless) ∧
    ∀ (now : Int) (nows : List Int) (key : Str),
      ((nows.foldl (fun table now => reconcile_messages_by_chat_id id noParse (py "c") (py "u") table oneReply.items now)
          (reconcile_messages_by_chat_id id noParse (py "c") (py "u") oneRow oneReply.items now)).get? key).map
            Row.timeless =
        ((reconcile_messages_by_chat_id id noParse (py "c") (py "u") oneRow oneReply.items now).get? key).map
          Row.timeless := by
  apply counted_once
  intro p hp
  have heq : p = (py "a", reply 10 5) := List.mem_singleton.mp hp
  subst heq
  refine ⟨nofun, fun usage husage => ?_⟩
  have hget : get_usage id noParse (reply 10 5) = some (some oneUsage) := rfl
  rw [hget] at husage
  cases husage
  exact ⟨rfl, Or.inr ⟨oneUsage, rfl, rfl, Or.inl (Val.eq_refl _)⟩⟩

/-! ## A usage that is counted twice -/

def writtenReply (row : Option Row) (data : Obj) (now : Int) : Option Row :=
  written id noParse (py "c") (py "u") row data now

def countedInput (row : Option Row) : Option Rat := row.bind fun row => (row.usage.get kInputTokens).number?

theorem countedInput_timeless (row : Option Row) : countedInput (row.map Row.timeless) = countedInput row := by
  cases row <;> rfl

/-- The first call is written once, and the second twice. -/
def firstCall : Option Row := writtenReply none (reply 10 5) 1772820000
def secondCall : Option Row := writtenReply firstCall (reply 20 7) 1772820001
def secondCallAgain : Option Row := writtenReply secondCall (reply 20 7) 1772820002

/-- **The second call is counted twice**: there was another before it. -/
theorem counted_twice : countedInput secondCall = some 30 ∧ countedInput secondCallAgain = some 50 ∧
    secondCallAgain.map Row.timeless ≠ secondCall.map Row.timeless := by
  have hsecond : countedInput secondCall = some 30 := by decide
  have hagain : countedInput secondCallAgain = some 50 := by decide
  refine ⟨hsecond, hagain, fun heq => ?_⟩
  have hsame := congrArg countedInput heq
  rw [countedInput_timeless, countedInput_timeless, hsecond, hagain] at hsame
  exact absurd hsame (by decide)

end Chats
end MaterialOpenWebui
