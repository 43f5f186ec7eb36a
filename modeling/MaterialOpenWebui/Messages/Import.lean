import MaterialOpenWebui.Messages.List
import Mathlib.Data.List.Induction

/-!
# `Messages.Import` — conversations from an export (`convertOpenAIMessages`, `src/lib/utils/index.ts`)

An export maps ids to nodes. The nodes are taken in the order of their keys: empty ones at the beginning are skipped, and so
are those of the system and of tools, and those on which something throws. Each that is left becomes a message below the one
before, whatever the export says of parents; but its children, and the current message, are as in the export.

So a chat is consistent only if the export was a line already (`Straight`): the last key must be that of a message, and no
message may list a child but the next message.

A mapping is an object: its keys are told apart and in the order of own properties. What is left out of a chat are its models,
its title and time, and the fields that are the same in every message.
-/

namespace MaterialOpenWebui
namespace Messages
open Js

/-! ## Nodes -/

structure Message where
  id : JsString
  parentId : Option JsString
  childrenIds : JsValue
  role : JsString
  content : JsValue
  model : JsValue
  timestamp : Option JsNumber

/-- `v[k]`; `none` where it throws. -/
def access (v : JsValue) (k : JsString) : Option JsValue := if v.isNullish then none else some (v.get k)

/-- `v?.[0]`. -/
def first : JsValue → JsValue
  | .arr (v :: _) => v
  | .str (u :: _) => .str [u]
  | .obj ps => JsValue.get (.obj ps) (js "0")
  | _ => .undefined

/-- `v == ''`; `none` where the conversion throws. -/
def looselyEmpty : JsValue → Option Bool
  | .undefined => some false
  | .null => some false
  | .bool b => some !b
  | .num n => some (!(JsValue.num n).truthy && n != .nan)
  | .str s => some (s == [])
  | v => v.toStr.map fun s => s == []

/-- The test that skips a node before the first message. -/
def isBlank (node : JsValue) : Option Bool := do
  let message ← access node (js "message")
  if message.isNullish then some true
  else
    let content := message.get (js "content")
    let parts ← access content (js "parts")
    if ← looselyEmpty (first parts) then some (content.get (js "text")).isNullish
    else some false

def textPart : JsValue → Option JsString
  | .str s => some s
  | _ => none

def extractOpenAIMessageContent (message : JsValue) : JsValue :=
  let content := message.get (js "content")
  let fallback := (content.get (js "text")).or (.str [])
  match content.get (js "parts") with
  | .arr parts =>
    let textParts := parts.filterMap textPart
    if textParts = [] then fallback else .str (JsValue.joinWith (js "\n") textParts)
  | _ => fallback

section
variable (number : JsString → JsNumber) (floor : JsNumber → JsNumber)

/-- `create_time ? Math.floor(create_time) : undefined`; `none` where the conversion throws. -/
def timestampOf (create_time : JsValue) : Option (Option JsNumber) :=
  if create_time.truthy then (create_time.toNumber number).map fun n => some (floor n) else some none

/-- The message that a node becomes; `none` where it is of the system or of a tool, or something throws. -/
def newChat (message_id : JsString) (lastId : Option JsString) (node : JsValue) : Option Message :=
  (access node (js "message")).bind fun message =>
    let role := (message.get (js "author")).get (js "role")
    if role.isStr (js "system") || role.isStr (js "tool") then none
    else
      (timestampOf number floor (message.get (js "create_time"))).map fun timestamp =>
        { id := message_id
          parentId := lastId
          childrenIds := (node.get (js "children")).or (.arr [])
          role := if role.isStr (js "user") then js "user" else js "assistant"
          content := extractOpenAIMessageContent message
          model := ((message.get (js "metadata")).get (js "model_slug")).or (.str (js "gpt-3.5-turbo"))
          timestamp := timestamp }

/-! ## The conversion -/

structure Conversion where
  messages : List Message
  currentId : JsString
  lastId : Option JsString

/-- What a node becomes at its turn; `none` where it is skipped, also by an exception that is caught. -/
def importNode (c : Conversion) (message_id : JsString) (node : JsValue) : Option Message :=
  if c.messages.length = 0 then
    match isBlank node with
    | some false => newChat number floor message_id c.lastId node
    | _ => none
  else newChat number floor message_id c.lastId node

def turn (c : Conversion) (p : JsString × JsValue) : Conversion :=
  match importNode number floor c p.1 p.2 with
  | none => { c with currentId := p.1 }
  | some m => ⟨c.messages ++ [m], p.1, some p.1⟩

/-- `messages[messages.length - 1].childrenIds = []`. -/
def closeLast : List Message → List Message
  | [] => []
  | [m] => [{ m with childrenIds := .arr [] }]
  | m :: m' :: ms => m :: closeLast (m' :: ms)

/-- The object of messages: its own properties, and its prototype where a message has taken that place. -/
structure History where
  own : List (JsString × Message) := []
  proto : Option Message := none

/-- `history[obj.id] = obj`: under `__proto__` this sets the prototype. -/
def History.assign (history : History) (m : Message) : History :=
  if m.id = js "__proto__" then { history with proto := some m }
  else { history with own := setProp history.own m.id m }

/-- The message found under a name. What else the prototypes have under a name is no message. -/
def History.read (history : History) (id : JsString) : Option Message :=
  if id = js "__proto__" then history.proto else history.own.lookup id

structure Chat where
  currentId : JsString
  /-- `history.messages`. -/
  history : History
  messages : List Message

def convertOpenAIMessages (mapping : List (JsString × JsValue)) : Chat :=
  let c := mapping.foldl (turn number floor) ⟨[], [], none⟩
  let messages := closeLast c.messages
  ⟨c.currentId, messages.foldl History.assign {}, messages⟩

end

/-! ## What is imported -/

section
variable (number : JsString → JsNumber) (floor : JsNumber → JsNumber)

/-- A node that becomes a message if there is one already. -/
def converts (node : JsValue) : Bool := (newChat number floor [] none node).isSome

/-- A node that becomes the first message if there is none. -/
def opens (node : JsValue) : Bool := isBlank node == some false && converts number floor node

/-- The nodes that become messages: from the first that opens the chat, those that convert. -/
def imported (mapping : List (JsString × JsValue)) : List (JsString × JsValue) :=
  (mapping.dropWhile fun p => !opens number floor p.2).filter fun p => converts number floor p.2

def childrenOf (node : JsValue) : JsValue := (node.get (js "children")).or (.arr [])

/-- Messages made of nodes one below the other, the first below `parent`. -/
inductive Line : Option JsString → List (JsString × JsValue) → List Message → Prop
  | nil {parent : Option JsString} : Line parent [] []
  | cons {parent : Option JsString} {p : JsString × JsValue} {ps : List (JsString × JsValue)} {m : Message}
      {ms : List Message} (hid : m.id = p.1) (hparent : m.parentId = parent) (hchildren : m.childrenIds = childrenOf p.2)
      (hline : Line (some p.1) ps ms) : Line parent (p :: ps) (m :: ms)

variable {number floor}

/-- A message made of a node, but for where it stands. -/
theorem newChat_eq (message_id : JsString) (lastId : Option JsString) (node : JsValue) :
    newChat number floor message_id lastId node =
      (newChat number floor [] none node).map fun m => { m with id := message_id, parentId := lastId } := by
  rw [newChat, newChat]
  cases access node (js "message") with
  | none => rfl
  | some message =>
    simp only [Option.bind_some]
    split
    · rfl
    · cases timestampOf number floor (message.get (js "create_time")) <;> rfl

theorem newChat_children {message_id : JsString} {lastId : Option JsString} {node : JsValue} {m : Message}
    (h : newChat number floor message_id lastId node = some m) : m.childrenIds = childrenOf node := by
  rw [newChat] at h
  obtain ⟨message, -, h⟩ := Option.bind_eq_some_iff.mp h
  simp only at h
  split at h
  · cases h
  · obtain ⟨timestamp, -, rfl⟩ := Option.map_eq_some_iff.mp h
    rfl

theorem newChat_of_converts {node : JsValue} (h : converts number floor node = true) (message_id : JsString)
    (lastId : Option JsString) : ∃ m, newChat number floor message_id lastId node = some m ∧ m.id = message_id ∧
      m.parentId = lastId ∧ m.childrenIds = childrenOf node := by
  obtain ⟨m, hm⟩ := Option.isSome_iff_exists.mp h
  have hnew : newChat number floor message_id lastId node = some { m with id := message_id, parentId := lastId } := by
    rw [newChat_eq, hm, Option.map_some]
  exact ⟨_, hnew, rfl, rfl, newChat_children hnew⟩

theorem newChat_of_not_converts {node : JsValue} (h : converts number floor node = false) (message_id : JsString)
    (lastId : Option JsString) : newChat number floor message_id lastId node = none := by
  have hnone : newChat number floor [] none node = none := by
    cases hm : newChat number floor [] none node with
    | none => rfl
    | some m =>
      rw [converts, hm] at h
      cases h
  rw [newChat_eq, hnone, Option.map_none]

variable (number floor)

/-- The turns after the first message. -/
theorem turns_spec (mapping : List (JsString × JsValue)) (c : Conversion) (hc : c.messages ≠ []) :
    ∃ ms, Line c.lastId (mapping.filter fun p => converts number floor p.2) ms ∧
      (mapping.foldl (turn number floor) c).messages = c.messages ++ ms ∧
      (mapping.foldl (turn number floor) c).currentId = (mapping.getLast?.map Prod.fst).getD c.currentId := by
  induction mapping generalizing c with
  | nil => exact ⟨[], .nil, (List.append_nil _).symm, rfl⟩
  | cons p mapping ih =>
    have hlength : ¬ c.messages.length = 0 := fun h => hc (List.length_eq_zero_iff.mp h)
    have hlast : ∀ current, (mapping.getLast?.map Prod.fst).getD p.1 =
        (((p :: mapping).getLast?).map Prod.fst).getD current := by
      intro current
      rw [List.getLast?_cons]
      cases mapping.getLast? <;> rfl
    cases hconverts : converts number floor p.2 with
    | false =>
      have hturn : turn number floor c p = { c with currentId := p.1 } := by
        rw [turn, importNode, if_neg hlength, newChat_of_not_converts hconverts]
      obtain ⟨ms, hline, hmessages, hcurrent⟩ := ih (turn number floor c p) (by rw [hturn]; exact hc)
      rw [List.foldl_cons, List.filter_cons_of_neg (by rw [hconverts]; exact Bool.false_ne_true)]
      rw [hturn] at hline hmessages hcurrent
      exact ⟨ms, hline, by rw [hturn, hmessages], by rw [hturn, hcurrent, hlast]⟩
    | true =>
      obtain ⟨m, hm, hid, hparent, hchildren⟩ := newChat_of_converts hconverts p.1 c.lastId
      have hturn : turn number floor c p = ⟨c.messages ++ [m], p.1, some p.1⟩ := by
        rw [turn, importNode, if_neg hlength, hm]
      obtain ⟨ms, hline, hmessages, hcurrent⟩ := ih (turn number floor c p) (by rw [hturn]; simp)
      rw [List.foldl_cons, List.filter_cons, if_pos hconverts]
      rw [hturn] at hline hmessages hcurrent
      refine ⟨m :: ms, .cons hid hparent hchildren hline, ?_, ?_⟩
      · rw [hturn, hmessages, List.append_assoc, List.singleton_append]
      · rw [hturn, hcurrent, hlast]

/-- **The run**: what is imported, in a line, and the last key as the current one. -/
theorem run_spec (mapping : List (JsString × JsValue)) (currentId : JsString) :
    ∃ ms, Line none (imported number floor mapping) ms ∧
      (mapping.foldl (turn number floor) ⟨[], currentId, none⟩).messages = ms ∧
      (mapping.foldl (turn number floor) ⟨[], currentId, none⟩).currentId =
        (mapping.getLast?.map Prod.fst).getD currentId := by
  induction mapping generalizing currentId with
  | nil => exact ⟨[], .nil, rfl, rfl⟩
  | cons p mapping ih =>
    have hlast : (mapping.getLast?.map Prod.fst).getD p.1 = (((p :: mapping).getLast?).map Prod.fst).getD currentId := by
      rw [List.getLast?_cons]
      cases mapping.getLast? <;> rfl
    cases hopens : opens number floor p.2 with
    | false =>
      have hturn : turn number floor ⟨[], currentId, none⟩ p = ⟨[], p.1, none⟩ := by
        have hnone : importNode number floor ⟨[], currentId, none⟩ p.1 p.2 = none := by
          simp only [importNode, List.length_nil, if_true]
          split
          · rename_i hblank
            rw [opens, hblank] at hopens
            exact newChat_of_not_converts hopens p.1 none
          · rfl
        rw [turn, hnone]
      obtain ⟨ms, hline, hmessages, hcurrent⟩ := ih p.1
      rw [List.foldl_cons, hturn, imported, List.dropWhile_cons_of_pos (by rw [hopens]; rfl)]
      exact ⟨ms, hline, hmessages, by rw [hcurrent, hlast]⟩
    | true =>
      have ⟨hblank, hconverts⟩ := Bool.and_eq_true_iff.mp hopens
      obtain ⟨m, hm, hid, hparent, hchildren⟩ := newChat_of_converts hconverts p.1 none
      have hturn : turn number floor ⟨[], currentId, none⟩ p = ⟨[m], p.1, some p.1⟩ := by
        simp only [turn, importNode, List.length_nil, if_true, eq_of_beq hblank, hm, List.nil_append]
      have hturns := turns_spec number floor mapping ⟨[m], p.1, some p.1⟩ (List.cons_ne_nil m [])
      obtain ⟨ms, hline, hmessages, hcurrent⟩ := hturns
      rw [List.foldl_cons, hturn, imported, List.dropWhile_cons_of_neg (by rw [hopens]; decide),
        List.filter_cons, if_pos hconverts]
      exact ⟨m :: ms, .cons hid hparent hchildren hline, hmessages, by rw [hcurrent, hlast]⟩

end

/-! ## The law -/

/-- What the walk finds under a value. -/
def readMessage (history : History) (currentId : JsValue) : Option (Option Message) :=
  currentId.toStr.map fun id => history.read id

def parentValue (m : Message) : JsValue := m.parentId.elim .null .str

theorem readMessage_str {history : History} {id : JsString} {m : Message} (h : history.read id = some m) :
    readMessage history (.str id) = some (some m) := congrArg some h

/-- The links of a chat agree with each other, and what is shown is all that was imported. -/
structure Consistent (chat : Chat) : Prop where
  current : ∃ m ∈ chat.messages, m.id = chat.currentId
  parents : ∀ m ∈ chat.messages, ∀ p, m.parentId = some p → ∃ m' ∈ chat.messages, m'.id = p
  children : ∀ m ∈ chat.messages, ∀ v ∈ m.childrenIds.elemsOrNil,
    ∃ m' ∈ chat.messages, v = .str m'.id ∧ m'.parentId = some m.id
  found : ∀ m ∈ chat.messages, chat.history.read m.id = some m
  shown : ∃ fuel, createMessagesList (readMessage chat.history) parentValue fuel (.str chat.currentId) = some chat.messages

/-- The export is a line: its last node is a message, and no message before the last has a child but the next one. -/
structure Straight (number : JsString → JsNumber) (floor : JsNumber → JsNumber) (mapping : List (JsString × JsValue)) :
    Prop where
  last : (imported number floor mapping).getLast? = mapping.getLast?
  children : ∀ front p q back, imported number floor mapping = front ++ p :: q :: back →
    ∀ v ∈ (childrenOf p.2).elemsOrNil, v = .str q.1

theorem ids_closeLast (ms : List Message) : (closeLast ms).map Message.id = ms.map Message.id := by
  induction ms with
  | nil => rfl
  | cons m ms ih =>
    cases ms with
    | nil => rfl
    | cons m' ms => rw [closeLast, List.map_cons, List.map_cons, ih]

theorem Line.ids {parent : Option JsString} {ps : List (JsString × JsValue)} {ms : List Message} (h : Line parent ps ms) :
    ms.map Message.id = ps.map Prod.fst := by
  induction h with
  | nil => rfl
  | cons hid _ _ _ ih => rw [List.map_cons, List.map_cons, hid, ih]

/-- A message of the line, as it is in the end. -/
theorem Line.at {parent : Option JsString} {ps : List (JsString × JsValue)} {ms : List Message} (h : Line parent ps ms)
    {front back : List (JsString × JsValue)} {p : JsString × JsValue} (hps : ps = front ++ p :: back) :
    ∃ before m after, closeLast ms = before ++ m :: after ∧ before.map Message.id = front.map Prod.fst ∧ m.id = p.1 ∧
      m.parentId = (front.getLast?.map Prod.fst).or parent ∧ after.map Message.id = back.map Prod.fst ∧
      m.childrenIds = if back = [] then .arr [] else childrenOf p.2 := by
  induction h generalizing front with
  | nil =>
    cases front <;> cases hps
  | @cons parent p' ps m ms hid hparent hchildren hline ih =>
    cases front with
    | nil =>
      cases hps
      have hids := hline.ids
      cases ms with
      | nil =>
        have hback : back = [] := by
          cases back with
          | nil => rfl
          | cons q back => cases hids
        subst hback
        exact ⟨[], { m with childrenIds := .arr [] }, [], rfl, rfl, hid, hparent, rfl, rfl⟩
      | cons m' ms =>
        have hback : back ≠ [] := by
          rintro rfl
          cases hids
        refine ⟨[], m, closeLast (m' :: ms), rfl, rfl, hid, hparent, ?_, ?_⟩
        · rw [ids_closeLast, hids]
        · rw [if_neg hback, hchildren]
    | cons q front =>
      rw [List.cons_append, List.cons.injEq] at hps
      obtain ⟨rfl, hps⟩ := hps
      obtain ⟨before, n, after, hsplit, hbefore, hn, hnparent, hafter, hnchildren⟩ := ih hps
      have hparent' : n.parentId = (((p' :: front).getLast?).map Prod.fst).or parent := by
        rw [hnparent, List.getLast?_cons]
        cases front.getLast? <;> rfl
      cases ms with
      | nil =>
        have hempty : before ++ n :: after = [] := hsplit.symm
        simp at hempty
      | cons m' ms =>
        refine ⟨m :: before, n, after, ?_, ?_, hn, hparent', hafter, hnchildren⟩
        · rw [closeLast, hsplit, List.cons_append]
        · rw [List.map_cons, List.map_cons, hbefore, hid]

theorem History.read_assign (history : History) (m : Message) (id : JsString) :
    (history.assign m).read id = if m.id = id then some m else history.read id := by
  rw [History.assign]
  by_cases hproto : m.id = js "__proto__"
  · rw [if_pos hproto, hproto, History.read, History.read]
    by_cases hid : id = js "__proto__"
    · rw [if_pos hid, if_pos hid.symm]
    · rw [if_neg hid, if_neg (Ne.symm hid), if_neg hid]
  · rw [if_neg hproto, History.read, History.read]
    by_cases hid : id = js "__proto__"
    · rw [if_pos hid, if_neg (by rw [hid]; exact hproto), if_pos hid]
    · rw [if_neg hid, lookup_setProp, if_neg hid]

/-- Under their ids, the history has the messages. -/
theorem read_history {ms : List Message} (hnodup : (ms.map Message.id).Nodup) {m : Message} (hm : m ∈ ms) :
    (ms.foldl History.assign {}).read m.id = some m := by
  induction ms using List.reverseRecOn with
  | nil => cases hm
  | append_singleton ms last ih =>
    rw [List.map_append, List.nodup_append] at hnodup
    rw [List.foldl_concat, History.read_assign]
    rcases List.mem_append.mp hm with hm | hm
    · have hother : last.id ≠ m.id := fun h =>
        hnodup.2.2 _ (List.mem_map_of_mem hm) _ (List.mem_map_of_mem (List.mem_singleton_self last)) h.symm
      rw [if_neg hother, ih hnodup.1 hm]
    · rw [List.mem_singleton.mp hm, if_pos rfl]

section
variable {ps : List (JsString × JsValue)} {ms : List Message} (hline : Line none ps ms)
  (hnodup : (ps.map Prod.fst).Nodup)
include hline

theorem ids_messages : (closeLast ms).map Message.id = ps.map Prod.fst := by
  rw [ids_closeLast, hline.ids]

/-- Where a message of the chat comes from. -/
theorem exists_split {m : Message} (hm : m ∈ closeLast ms) : ∃ front p back, ps = front ++ p :: back ∧ m.id = p.1 := by
  have hid := List.mem_map_of_mem (f := Message.id) hm
  rw [ids_messages hline] at hid
  obtain ⟨p, hp, heq⟩ := List.mem_map.mp hid
  obtain ⟨front, back, hps⟩ := List.append_of_mem hp
  exact ⟨front, p, back, hps, heq.symm⟩

/-- From any message, the walk goes up to the first. -/
theorem walkUp_line {history : History} (hhistory : ∀ m ∈ closeLast ms, history.read m.id = some m)
    (front : List (JsString × JsValue)) (p : JsString × JsValue) (back : List (JsString × JsValue))
    (hps : ps = front ++ p :: back) : walkUp (readMessage history) parentValue (front.length + 2) (.str p.1) =
      some ((closeLast ms).take (front.length + 1)).reverse := by
  induction front using List.reverseRecOn generalizing p back with
  | nil =>
    obtain ⟨before, m, after, hsplit, hbefore, hid, hparent, -⟩ := hline.at hps
    have hnil : before = [] := List.map_eq_nil_iff.mp hbefore
    have hm : history.read m.id = some m := hhistory m (by rw [hsplit]; exact List.mem_append_right _ List.mem_cons_self)
    rw [← hid, walkUp_some _ rfl (readMessage_str hm), parentValue, hparent, hsplit, hnil]
    exact congrArg (Option.map _) (walkUp_none _ (.inl rfl))
  | append_singleton front q ih =>
    obtain ⟨before, m, after, hsplit, hbefore, hid, hparent, -⟩ := hline.at hps
    rw [List.append_assoc, List.singleton_append] at hps
    have hlength : before.length = (front ++ [q]).length := by
      rw [← List.length_map (f := Message.id), hbefore, List.length_map]
    have hm : history.read m.id = some m := hhistory m (by rw [hsplit]; exact List.mem_append_right _ List.mem_cons_self)
    have hplace : (closeLast ms)[(front ++ [q]).length]? = some m := by
      rw [hsplit, ← hlength, List.getElem?_append_right (Nat.le_refl _), Nat.sub_self]
      rfl
    rw [List.getLast?_concat] at hparent
    rw [← hid, walkUp_some _ rfl (readMessage_str hm), parentValue, hparent, List.take_add_one, hplace,
      List.length_append, List.length_singleton]
    show (walkUp (readMessage history) parentValue (front.length + 2) (.str q.1)).map _ = _
    rw [ih q (p :: back) hps]
    simp

theorem exists_message {front back : List (JsString × JsValue)} {p : JsString × JsValue} (hps : ps = front ++ p :: back) :
    ∃ m ∈ closeLast ms, m.id = p.1 := by
  obtain ⟨before, n, after, hsplit, -, hn, -⟩ := hline.at hps
  exact ⟨n, by rw [hsplit]; exact List.mem_append_right _ List.mem_cons_self, hn⟩

/-- The last key is that of a message only if it is that of the last one. -/
theorem getLast?_eq {mapping : List (JsString × JsValue)} (hsub : ps.Sublist mapping)
    (hkeys : (mapping.map Prod.fst).Nodup) {m : Message} (hm : m ∈ closeLast ms)
    (hcurrent : m.id = (mapping.getLast?.map Prod.fst).getD []) : ps.getLast? = mapping.getLast? := by
  obtain ⟨front, p, back, hps, hp⟩ := exists_split hline hm
  have hmem : p ∈ ps := by rw [hps]; exact List.mem_append_right _ List.mem_cons_self
  cases hlast : mapping.getLast? with
  | none =>
    rw [List.getLast?_eq_none_iff.mp hlast] at hsub
    rw [List.sublist_nil.mp hsub] at hmem
    cases hmem
  | some q =>
    obtain ⟨init, rfl⟩ := List.getLast?_eq_some_iff.mp hlast
    rw [hlast, Option.map_some, Option.getD_some] at hcurrent
    -- keys are told apart, so it is the last node itself
    have hpq : p = q := by
      refine List.inj_on_of_nodup_map hkeys (hsub.subset hmem) (List.mem_append_right _ (List.mem_singleton_self q)) ?_
      rw [← hp, hcurrent]
    subst hpq
    have hinit : p ∉ init := by
      intro hin
      rw [List.map_append, List.nodup_append] at hkeys
      exact hkeys.2.2 _ (List.mem_map_of_mem hin) _ (List.mem_map_of_mem (List.mem_singleton_self p)) rfl
    obtain ⟨a, b, hab, ha, hb⟩ := List.sublist_append_iff.mp hsub
    rcases List.sublist_singleton.mp hb with rfl | rfl
    · rw [hab, List.append_nil] at hmem
      exact absurd (ha.subset hmem) hinit
    · rw [hab, List.getLast?_concat]

include hnodup

theorem nodup_ids : ((closeLast ms).map Message.id).Nodup := by
  rw [ids_messages hline]
  exact hnodup

/-- The message at a place of the line, told by its id. -/
theorem message_at {front back : List (JsString × JsValue)} {p : JsString × JsValue} (hps : ps = front ++ p :: back)
    {m : Message} (hm : m ∈ closeLast ms) (hid : m.id = p.1) :
    m.parentId = front.getLast?.map Prod.fst ∧
      m.childrenIds = if back = [] then .arr [] else childrenOf p.2 := by
  obtain ⟨before, n, after, hsplit, -, hn, hparent, -, hchildren⟩ := hline.at hps
  have hsame : m = n := by
    refine List.inj_on_of_nodup_map (nodup_ids hline hnodup) hm ?_ (hid.trans hn.symm)
    rw [hsplit]
    exact List.mem_append_right _ List.mem_cons_self
  rw [Option.or_none] at hparent
  exact hsame ▸ ⟨hparent, hchildren⟩

/-- The node before another is told by the parent of what the other becomes. -/
theorem next_eq {front back : List (JsString × JsValue)} {p q : JsString × JsValue} (hps : ps = front ++ p :: q :: back)
    {m : Message} (hm : m ∈ closeLast ms) (hparent : m.parentId = some p.1) : m.id = q.1 := by
  obtain ⟨front', q', back', hps', hid⟩ := exists_split hline hm
  rw [(message_at hline hnodup hps' hm hid).1] at hparent
  obtain ⟨r, hr, hrp⟩ := Option.map_eq_some_iff.mp hparent
  obtain ⟨init, rfl⟩ := List.getLast?_eq_some_iff.mp hr
  rw [List.append_assoc, List.singleton_append] at hps'
  -- ids are told apart, so there is one place where `p` stands
  have hpr : r = p := by
    refine List.inj_on_of_nodup_map hnodup ?_ ?_ hrp
    · rw [hps']; exact List.mem_append_right _ List.mem_cons_self
    · rw [hps]; exact List.mem_append_right _ List.mem_cons_self
  subst hpr
  have hnodup' : (init ++ r :: (q' :: back')).Nodup := hps' ▸ hnodup.of_map _
  obtain ⟨-, hrest, hinit⟩ := List.nodup_append.mp hnodup'
  have hnot : r ∉ init := fun hin => hinit r hin r List.mem_cons_self rfl
  have hboth : init ++ r :: (q' :: back') = front ++ r :: (q :: back) := hps'.symm.trans hps
  obtain ⟨-, -, htail⟩ := (List.append_cons_inj_of_notMem hnot (List.nodup_cons.mp hrest).1).mp hboth
  rw [hid, (List.cons.inj htail).1]

end

section
variable {number : JsString → JsNumber} {floor : JsNumber → JsNumber} {mapping : List (JsString × JsValue)}

theorem imported_sublist : (imported number floor mapping).Sublist mapping :=
  List.filter_sublist.trans (List.dropWhile_sublist _)

/-- **The law of the import**: a chat with messages is consistent only if the export was a line. -/
theorem consistent_iff (hkeys : (mapping.map Prod.fst).Nodup)
    (hmessages : (convertOpenAIMessages number floor mapping).messages ≠ []) :
    Consistent (convertOpenAIMessages number floor mapping) ↔ Straight number floor mapping := by
  have hsub : (imported number floor mapping).Sublist mapping := imported_sublist
  have hnodup : ((imported number floor mapping).map Prod.fst).Nodup := hkeys.sublist (hsub.map _)
  obtain ⟨ms, hline, hrun, hcurrent⟩ := run_spec number floor mapping []
  have hchat : convertOpenAIMessages number floor mapping =
      ⟨(mapping.getLast?.map Prod.fst).getD [], (closeLast ms).foldl History.assign {}, closeLast ms⟩ := by
    simp only [convertOpenAIMessages, hrun, hcurrent]
  rw [hchat] at hmessages ⊢
  constructor
  · intro h
    refine ⟨?_, ?_⟩
    · obtain ⟨m, hm, hid⟩ := h.current
      exact getLast?_eq hline hsub hkeys hm hid
    · intro front p q back hps v hv
      obtain ⟨m, hm, hid⟩ := exists_message hline hps
      obtain ⟨-, hchildren⟩ := message_at hline hnodup hps hm hid
      rw [if_neg (List.cons_ne_nil q back)] at hchildren
      obtain ⟨m', hm', rfl, hparent⟩ := h.children m hm v (by rw [hchildren]; exact hv)
      rw [next_eq hline hnodup hps hm' (by rw [hparent, hid])]
  · intro h
    have hne : imported number floor mapping ≠ [] := by
      intro hnil
      rw [hnil] at hline
      cases hline
      exact hmessages rfl
    obtain ⟨front, last, hlast⟩ : ∃ front last, imported number floor mapping = front ++ [last] :=
      (List.eq_nil_or_concat' _).resolve_left hne
    have hid : (mapping.getLast?.map Prod.fst).getD [] = last.1 := by
      rw [← h.last, hlast, List.getLast?_concat]
      rfl
    have hfound : ∀ m ∈ closeLast ms, ((closeLast ms).foldl History.assign {}).read m.id = some m :=
      fun m hm => read_history (nodup_ids hline hnodup) hm
    refine ⟨?_, ?_, ?_, hfound, front.length + 2, ?_⟩
    · obtain ⟨m, hm, hmid⟩ := exists_message hline hlast
      exact ⟨m, hm, hmid.trans hid.symm⟩
    · intro m hm p hparent
      obtain ⟨before, q, back, hps, hmid⟩ := exists_split hline hm
      rw [(message_at hline hnodup hps hm hmid).1] at hparent
      obtain ⟨r, hr, rfl⟩ := Option.map_eq_some_iff.mp hparent
      obtain ⟨init, rfl⟩ := List.getLast?_eq_some_iff.mp hr
      rw [List.append_assoc, List.singleton_append] at hps
      exact exists_message hline hps
    · intro m hm v hv
      obtain ⟨before, p, back, hps, hmid⟩ := exists_split hline hm
      rw [(message_at hline hnodup hps hm hmid).2] at hv
      cases back with
      | nil => cases hv
      | cons q back =>
        rw [if_neg (List.cons_ne_nil q back)] at hv
        have hnext : imported number floor mapping = (before ++ [p]) ++ q :: back := by
          rw [hps, List.append_assoc, List.singleton_append]
        obtain ⟨m', hm', hid'⟩ := exists_message hline hnext
        refine ⟨m', hm', ?_, ?_⟩
        · rw [h.children before p q back hps v hv, hid']
        · rw [(message_at hline hnodup hnext hm' hid').1, List.getLast?_concat, Option.map_some, hmid]
    · have hlength : (closeLast ms).length = front.length + 1 := by
        rw [← List.length_map (f := Message.id), ids_messages hline, List.length_map, hlast, List.length_append,
          List.length_singleton]
      show (walkUp _ _ (front.length + 2) (.str ((mapping.getLast?.map Prod.fst).getD []))).map List.reverse = _
      rw [hid, walkUp_line hline hfound front last [] hlast, ← hlength, List.take_length, Option.map_some,
        List.reverse_reverse]

/-- A node of an export: who speaks, what is said, and the children. -/
def exportNode (role content : JsString) (children : List JsString) : JsValue :=
  .obj
    [(js "message", .obj
      [(js "author", .obj [(js "role", .str role)]), (js "content", .obj [(js "parts", .arr [.str content])])]),
     (js "children", .arr (children.map .str))]

/-- A question and its answer. -/
theorem consistent_of_answered :
    Consistent (convertOpenAIMessages (fun _ => .nan) id
      [(js "q", exportNode (js "user") (js "why") [js "a"]), (js "a", exportNode (js "assistant") (js "so") [])]) := by
  refine (consistent_iff (by decide) (by exact List.cons_ne_nil _ _)).mpr ⟨rfl, ?_⟩
  intro front p q back hps v hv
  have hline : [(js "q", exportNode (js "user") (js "why") [js "a"]), (js "a", exportNode (js "assistant") (js "so") [])] =
      front ++ p :: q :: back := hps
  rcases front with _ | ⟨_, front⟩
  · obtain ⟨rfl, rfl, -⟩ := hline
    exact List.mem_singleton.mp hv
  · have hlength := congrArg List.length hline
    simp only [List.length_append, List.length_cons, List.length_nil] at hlength
    omega

/-- A question whose answer is still with a tool: the chat is left on a node that it has not. -/
theorem convertOpenAIMessages_of_tool :
    ¬ Consistent (convertOpenAIMessages (fun _ => .nan) id
      [(js "q", exportNode (js "user") (js "why") [js "t"]), (js "t", exportNode (js "tool") (js "...") [])]) := by
  intro h
  obtain ⟨m, hm, hid⟩ := h.current
  have hq : m.id = js "q" := List.mem_singleton.mp (List.mem_map_of_mem (f := Message.id) hm)
  have hne : js "q" ≠ js "t" := by decide
  exact hne (hq.symm.trans hid)

end

end Messages
end MaterialOpenWebui
