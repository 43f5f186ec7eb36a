import MaterialOpenWebui.Messages.List
import MaterialOpenWebui.Js.Object
import MaterialOpenWebui.Lib.AllSome

/-!
# `Messages.Sanitize` — a stored chat is opened (`sanitizeHistory`, `src/lib/utils/index.ts`)

A stored history may be any data. Before it is shown, its messages are gone over: what is no object goes, ids are set to the
keys, parents and roles that are missing are found again, a current message is chosen if the recorded one is none, and children
that are not there are dropped. Parents that are recorded are not looked at, so the list of messages may never end; and a child
that has the name of something every object has is kept.

A message is an object, and is told here by the name under which it is found. Left out are the other fields of messages.
-/

namespace MaterialOpenWebui
namespace Sanitize
open Js

/-! ## Histories -/

structure Node where
  id : JsValue
  parentId : JsValue
  childrenIds : List JsValue
  role : JsValue
  timestamp : JsValue
  model : JsValue
  usage : JsValue
  done : JsValue

abbrev Nodes := List (JsString × Node)

structure History where
  currentId : JsValue
  messages : Nodes
  /-- The names that the object of messages has of its prototypes. -/
  inherited : List JsString

/-- `history.messages[v]`, told by its name; `none` where the conversion throws. -/
def History.at (h : History) (v : JsValue) : Option (Option JsString) :=
  v.toStr.map fun name => if name ∈ h.messages.map Prod.fst ∨ name ∈ h.inherited then some name else none

def History.parentId (h : History) (name : JsString) : JsValue :=
  ((h.messages.lookup name).map Node.parentId).getD .undefined

/-! ## The passes -/

/-- `Object.entries`. -/
def entries : JsValue → List (JsString × JsValue)
  | .obj ps => ps
  | .arr vs => vs.zipIdx.map fun p => (natText p.2, p.1)
  | _ => []

def inheritedBy : JsValue → List JsString
  | .arr _ => arrayPrototype ++ objectPrototype
  | _ => objectPrototype

/-- A message with its canonical id and an array of children. -/
def prepare (p : JsString × JsValue) : JsString × Node :=
  (p.1,
    { id := .str p.1
      parentId := p.2.get (js "parentId")
      childrenIds := (p.2.get (js "childrenIds")).elemsOrNil
      role := p.2.get (js "role")
      timestamp := p.2.get (js "timestamp")
      model := p.2.get (js "model")
      usage := p.2.get (js "usage")
      done := p.2.get (js "done") })

/-- The messages after the purge. -/
def prepared (messages : JsValue) : Nodes := ((entries messages).filter fun p => p.2.isObject).map prepare

/-- Every child with its parent, in the order of the loops. -/
def childLinks (messages : Nodes) : List (JsString × JsValue) :=
  messages.flatMap fun p => p.2.childrenIds.map fun childId => (p.1, childId)

/-- `parentByChildId[childId] = id`: a text under `__proto__` is ignored. -/
def note (parents : List (JsString × JsString)) (l : JsString × JsValue) : Option (List (JsString × JsString)) :=
  l.2.toStr.map fun name => if name = js "__proto__" then parents else setProp parents name l.1

def parentByChildId (messages : Nodes) : Option (List (JsString × JsString)) := (childLinks messages).foldlM note []

/-- The message under a name can be the current one: `!(!currentMessage?.id || !currentMessage?.role)`. -/
def isWhole (messages : Nodes) (name : JsString) : Bool :=
  (messages.lookup name).any fun m => m.id.truthy && m.role.truthy

def minusOne : JsValue := .num (.finite (Decimal.make true 1 0))

def timeOf (m : Node) : JsValue := m.timestamp.orElse (.num (.ofNat 0))

section
variable (number : JsString → JsNumber)

/-- One turn of the search for the latest leaf: its id and its time. -/
def later (latest : Option JsString × JsValue) (p : JsString × Node) : Option (Option JsString × JsValue) :=
  if p.2.childrenIds.length = 0 then
    (JsValue.greater number (timeOf p.2) latest.2).map fun greater => if greater then (some p.1, timeOf p.2) else latest
  else some latest

def recoverCurrentId (messages : Nodes) (currentId : JsValue) : Option JsValue :=
  currentId.toStr.bind fun name =>
    if isWhole messages name then some currentId
    else
      (messages.foldlM (later number) (none, minusOne)).map fun latest =>
        (latest.1.or (messages.head?.map Prod.fst)).elim .null .str

/-- `parentByChildId[id] ?? null`, told by what was noted under the id. -/
def recoveredParent (noted : Option JsString) (id : JsString) : JsValue :=
  match noted with
  | some p => .str p
  | none => (ofPrototype id).orElse .null

def reconstructedRole (parentRole : JsValue) (m : Node) : JsValue :=
  .str (if parentRole.isStr (js "user") then js "assistant"
    else if parentRole.isStr (js "assistant") then js "user"
    else if m.model.truthy || m.usage.truthy || !m.done.isUndefined then js "assistant"
    else js "user")

/-- The role of the message that a message names as its parent; `none` where the conversion throws. -/
def parentRole (messages : Nodes) (parentId : JsValue) : Option JsValue :=
  if parentId.truthy then parentId.toStr.map fun name => ((messages.lookup name).map Node.role).getD .undefined
  else some .undefined

/-- The parent that a message has after the pass. -/
def parentAfter (noted : Option JsString) (p : JsString × Node) : JsValue :=
  if p.2.parentId.isUndefined then recoveredParent noted p.1 else p.2.parentId

def reconstruct (parents : List (JsString × JsString)) (messages : Nodes) (p : JsString × Node) : Option Node :=
  if p.2.role.truthy && !p.2.parentId.isUndefined then some p.2
  else
    let message := { p.2 with parentId := parentAfter (parents.lookup p.1) p }
    if message.role.truthy then some message
    else
      (parentRole messages message.parentId).map fun role => { message with role := reconstructedRole role message }

/-- The pass, with the messages that it has been through. -/
def reconstructFrom (parents : List (JsString × JsString)) (front : Nodes) : Nodes → Option Nodes
  | [] => some front
  | p :: rest =>
    (reconstruct parents (front ++ p :: rest) p).bind fun message => reconstructFrom parents (front ++ [(p.1, message)]) rest

/-- Something is found under a child id. One that cannot be converted to a name has thrown before. -/
def isThere (messages : Nodes) (inherited : List JsString) (childId : JsValue) : Bool :=
  childId.toStr.any fun name => decide (name ∈ messages.map Prod.fst) || decide (name ∈ inherited)

def prune (inherited : List JsString) (messages : Nodes) : Nodes :=
  messages.map fun p => (p.1, { p.2 with childrenIds := p.2.childrenIds.filter (isThere messages inherited) })

/-- The history after `sanitizeHistory`; `none` where it throws. One without an object of messages is left as it is, and has no
messages. -/
def sanitizeHistory (history : JsValue) : Option History :=
  let stored := history.get (js "messages")
  if stored.isObject then
    let messages := prepared stored
    (parentByChildId messages).bind fun parents =>
      (recoverCurrentId number messages (history.get (js "currentId"))).bind fun currentId =>
        (reconstructFrom parents [] messages).map fun messages =>
          ⟨currentId, prune (inheritedBy stored) messages, inheritedBy stored⟩
  else some ⟨history.get (js "currentId"), [], []⟩

end

/-! ## What the passes do -/

theorem lookup_map_key {α β : Type} (f : JsString × α → β) (ps : List (JsString × α)) (k : JsString) :
    (ps.map fun p => (p.1, f p)).lookup k = (ps.lookup k).map fun a => f (k, a) := by
  induction ps with
  | nil => rfl
  | cons p ps ih =>
    rw [List.map_cons, lookup_cons_eq, lookup_cons_eq, ih]
    by_cases hp : p.1 = k
    · rw [if_pos hp, if_pos hp, ← hp]
      rfl
    · rw [if_neg hp, if_neg hp]

/-- The message that lists a child last. -/
def listerIn (links : List (JsString × JsValue)) (id : JsString) : Option JsString :=
  (links.reverse.find? fun l => l.2.toStr == some id && id != js "__proto__").map Prod.fst

/-- What is noted after all links, where no conversion throws. -/
def notes (links : List (JsString × JsValue)) (acc : List (JsString × JsString)) : List (JsString × JsString) :=
  links.foldl (fun acc l => (note acc l).getD acc) acc

theorem foldlM_note {links : List (JsString × JsValue)} {acc parents : List (JsString × JsString)} :
    links.foldlM note acc = some parents ↔ (∀ l ∈ links, ∃ name, l.2.toStr = some name) ∧ parents = notes links acc := by
  refine AllSome.foldlM_eq_some_iff (I := fun _ => True) (fun acc l acc' _ => ?_) (fun _ _ _ _ => trivial) trivial
  cases hname : l.2.toStr with
  | none => simp [note, hname]
  | some name => simp [note, hname, eq_comm]

theorem lookup_note (acc : List (JsString × JsString)) (l : JsString × JsValue) (id : JsString) :
    ((note acc l).getD acc).lookup id =
      if (l.2.toStr == some id && id != js "__proto__") = true then some l.1 else acc.lookup id := by
  rw [note]
  cases hname : l.2.toStr with
  | none => simp
  | some name =>
    rw [Option.map_some, Option.getD_some]
    by_cases hproto : name = js "__proto__"
    · rw [if_pos hproto, hproto, if_neg]
      intro h
      have ⟨heq, hne⟩ := Bool.and_eq_true_iff.mp h
      exact (bne_iff_ne.mp hne) (Option.some.inj (eq_of_beq heq)).symm
    · rw [if_neg hproto, lookup_setProp]
      by_cases hid : name = id
      · subst hid
        rw [if_pos rfl, if_pos]
        rw [beq_self_eq_true, Bool.true_and]
        exact bne_iff_ne.mpr hproto
      · rw [if_neg hid, if_neg]
        intro h
        exact hid (Option.some.inj (eq_of_beq (Bool.and_eq_true_iff.mp h).1))

/-- Under an id is noted the message that lists it last. -/
theorem lookup_notes (links : List (JsString × JsValue)) (acc : List (JsString × JsString)) (id : JsString) :
    (notes links acc).lookup id = (listerIn links id).or (acc.lookup id) := by
  induction links generalizing acc with
  | nil => rfl
  | cons l links ih =>
    show (notes links ((note acc l).getD acc)).lookup id = _
    rw [ih, lookup_note, listerIn, listerIn, List.reverse_cons, List.find?_append, Option.map_or, Option.or_assoc,
      List.find?_singleton]
    congr 1
    split <;> rfl

section
variable (number : JsString → JsNumber)

/-- The time of a leaf can be compared. -/
def Timed (p : JsString × Node) : Prop := p.2.childrenIds = [] → (timeOf p.2).toPrimitive.isSome = true

def newer (latest : Option JsString × JsValue) (p : JsString × Node) : Option JsString × JsValue :=
  if p.2.childrenIds = [] ∧ JsValue.greater number (timeOf p.2) latest.2 = some true then (some p.1, timeOf p.2) else latest

/-- The leaf that is newer than those before it, with the greatest time. -/
def newest (messages : Nodes) : Option JsString := (messages.foldl (newer number) (none, minusOne)).1

variable {number}

theorem later_iff {latest latest' : Option JsString × JsValue} {p : JsString × Node}
    (hlatest : latest.2.toPrimitive.isSome = true) :
    later number latest p = some latest' ↔ Timed p ∧ latest' = newer number latest p := by
  rw [later, newer, Timed]
  by_cases hleaf : p.2.childrenIds = []
  · have hsome : (JsValue.greater number (timeOf p.2) latest.2).isSome = true ↔ (timeOf p.2).toPrimitive.isSome = true := by
      rw [JsValue.greater_isSome, and_iff_left hlatest]
    rw [if_pos (List.length_eq_zero_iff.mpr hleaf), ← hsome]
    cases JsValue.greater number (timeOf p.2) latest.2 with
    | none => simp [hleaf]
    | some greater => cases greater <;> simp [hleaf, eq_comm]
  · rw [if_neg fun h => hleaf (List.length_eq_zero_iff.mp h), if_neg fun h => hleaf h.1, Option.some_inj]
    exact ⟨fun h => ⟨fun hl => absurd hl hleaf, h.symm⟩, fun h => h.2.symm⟩

theorem toPrimitive_newer {latest : Option JsString × JsValue} {p : JsString × Node}
    (hlatest : latest.2.toPrimitive.isSome = true) : (newer number latest p).2.toPrimitive.isSome = true := by
  rw [newer]
  split
  · rename_i h
    exact ((JsValue.greater_isSome number).mp (by rw [h.2]; rfl)).1
  · exact hlatest

theorem foldlM_later {messages : Nodes} {latest : Option JsString × JsValue} :
    messages.foldlM (later number) (none, minusOne) = some latest ↔
      (∀ p ∈ messages, Timed p) ∧ latest = messages.foldl (newer number) (none, minusOne) :=
  AllSome.foldlM_eq_some_iff (f := later number) (g := newer number) (I := fun latest => latest.2.toPrimitive.isSome = true)
    (fun _ _ _ h => later_iff h) (fun _ _ h _ => toPrimitive_newer h) rfl

/-- The recorded current message is one that can be. -/
def keeps (messages : Nodes) (currentId : JsValue) : Bool := currentId.toStr.any (isWhole messages)

variable (number)

/-- The message at which the chat opens: the recorded one if it can be, else the newest leaf, else the first message. -/
def opening (messages : Nodes) (currentId : JsValue) : Option JsString :=
  if keeps messages currentId then currentId.toStr else (newest number messages).or (messages.head?.map Prod.fst)

variable {number}

theorem recoverCurrentId_iff {messages : Nodes} {currentId v : JsValue} :
    recoverCurrentId number messages currentId = some v ↔
      currentId.toStr.isSome = true ∧ (keeps messages currentId = false → ∀ p ∈ messages, Timed p) ∧
        v = if keeps messages currentId then currentId else (opening number messages currentId).elim .null .str := by
  rw [recoverCurrentId, opening, keeps]
  cases hname : currentId.toStr with
  | none => simp
  | some name =>
    rw [Option.bind_some, Option.any_some]
    cases hwhole : isWhole messages name with
    | true => simp [eq_comm]
    | false =>
      rw [if_neg Bool.false_ne_true, Option.map_eq_some_iff]
      constructor
      · rintro ⟨latest, hlatest, rfl⟩
        obtain ⟨htimed, rfl⟩ := foldlM_later.mp hlatest
        exact ⟨rfl, fun _ => htimed, rfl⟩
      · rintro ⟨-, htimed, rfl⟩
        exact ⟨_, foldlM_later.mpr ⟨htimed rfl, rfl⟩, rfl⟩

end

/-- What the walk and the law look at in a message. -/
structure Links where
  id : JsValue
  parentId : JsValue
  childrenIds : List JsValue

def Node.links (m : Node) : Links := ⟨m.id, m.parentId, m.childrenIds⟩

/-- A message that has no role has a parent whose name can be read. -/
def Rolled (p : JsString × Node) : Prop := p.2.role.truthy = false → p.2.parentId.toStr.isSome = true

theorem toStr_recoveredParent (noted : Option JsString) (id : JsString) : (recoveredParent noted id).toStr.isSome = true := by
  cases noted with
  | some p => rfl
  | none =>
    rw [recoveredParent, ofPrototype]
    split
    · rfl
    · split
      · rfl
      · split <;> rfl

theorem toStr_of_not_truthy {v : JsValue} (h : v.truthy = false) : v.toStr.isSome = true := by
  cases v with
  | bool b => cases b <;> rfl
  | arr vs => cases h
  | obj ps => cases h
  | _ => rfl

theorem parentRole_isSome {messages : Nodes} {parentId : JsValue} :
    (parentRole messages parentId).isSome = true ↔ parentId.toStr.isSome = true := by
  rw [parentRole]
  cases htruthy : parentId.truthy with
  | true => rw [if_pos rfl, Option.isSome_map]
  | false => exact iff_of_true rfl (toStr_of_not_truthy htruthy)

theorem toStr_parentAfter (noted : Option JsString) (p : JsString × Node) :
    (parentAfter noted p).toStr.isSome = true ↔ p.2.parentId.toStr.isSome = true := by
  rw [parentAfter]
  cases hundefined : p.2.parentId.isUndefined with
  | true =>
    rw [if_pos rfl, JsValue.isUndefined_iff.mp hundefined]
    exact iff_of_true (toStr_recoveredParent noted p.1) rfl
  | false => rw [if_neg Bool.false_ne_true]

theorem reconstruct_isSome (parents : List (JsString × JsString)) (messages : Nodes) {p : JsString × Node} :
    (reconstruct parents messages p).isSome = true ↔ Rolled p := by
  rw [reconstruct, Rolled]
  cases hrole : p.2.role.truthy with
  | true => cases p.2.parentId.isUndefined <;> simp [hrole]
  | false => simp [hrole, parentRole_isSome, toStr_parentAfter]

theorem links_reconstruct {parents : List (JsString × JsString)} {messages : Nodes} {p : JsString × Node} {m : Node}
    (h : reconstruct parents messages p = some m) :
    m.links = ⟨p.2.id, parentAfter (parents.lookup p.1) p, p.2.childrenIds⟩ := by
  rw [reconstruct] at h
  split at h
  · rename_i hwhole
    have hdefined : p.2.parentId.isUndefined = false := by
      simpa using (Bool.and_eq_true_iff.mp hwhole).2
    cases h
    rw [parentAfter, hdefined, if_neg Bool.false_ne_true]
    rfl
  · simp only at h
    split at h
    · cases h
      rfl
    · obtain ⟨role, -, rfl⟩ := Option.map_eq_some_iff.mp h
      rfl

/-- The pass ends if it does not throw at a message, and gives every message its parent. -/
theorem reconstructFrom_iff {parents : List (JsString × JsString)} (front rest : Nodes) :
    (reconstructFrom parents front rest).isSome = true ↔ ∀ p ∈ rest, Rolled p := by
  induction rest generalizing front with
  | nil => simp [reconstructFrom]
  | cons p rest ih =>
    rw [reconstructFrom, List.forall_mem_cons, ← reconstruct_isSome parents (front ++ p :: rest)]
    cases reconstruct parents (front ++ p :: rest) p with
    | none => simp
    | some m => simp [ih]

theorem links_reconstructFrom {parents : List (JsString × JsString)} {front rest messages : Nodes}
    (h : reconstructFrom parents front rest = some messages) :
    messages.map (fun p => (p.1, p.2.links)) = front.map (fun p => (p.1, p.2.links)) ++
      rest.map fun p => (p.1, ⟨p.2.id, parentAfter (parents.lookup p.1) p, p.2.childrenIds⟩) := by
  induction rest generalizing front with
  | nil =>
    cases h
    rw [List.map_nil, List.append_nil]
  | cons p rest ih =>
    rw [reconstructFrom, Option.bind_eq_some_iff] at h
    obtain ⟨m, hm, hrest⟩ := h
    rw [ih hrest, List.map_append, List.map_cons, List.map_nil, List.append_assoc, links_reconstruct hm]
    rfl

/-! ## The law -/

/-- A chat that can be shown: what is asked of a history after the repair. -/
structure Opens (h : History) : Prop where
  ids : ∀ p ∈ h.messages, p.2.id = .str p.1
  current : (h.currentId.isNullish = true ∧ h.messages = []) ∨ ∃ p ∈ h.messages, h.currentId = p.2.id
  children : ∀ p ∈ h.messages, ∀ childId ∈ p.2.childrenIds, ∃ name ∈ h.messages.map Prod.fst, childId.toStr = some name
  shown : ∃ fuel l, Messages.createMessagesList h.at h.parentId fuel h.currentId = some l ∧ l.Nodup

section
variable (number : JsString → JsNumber) (messages : Nodes) (inherited : List JsString)

/-- The parent that is recorded for a message, or that is found for it. -/
def parentAt (name : JsString) : JsValue :=
  ((messages.lookup name).map fun m => parentAfter (listerIn (childLinks messages) name) (name, m)).getD .undefined

/-- What is found under that parent. -/
def above (name : JsString) : Option JsString :=
  if (parentAt messages name).isNullish then none
  else (parentAt messages name).toStr.bind fun p => if p ∈ messages.map Prod.fst ∨ p ∈ inherited then some p else none

/-- What has to hold of the messages as they are stored, and of the recorded current one. -/
structure SoundWith (currentId : JsValue) : Prop where
  /-- no conversion throws -/
  named : currentId.toStr.isSome = true
  timed : keeps messages currentId = false → ∀ p ∈ messages, Timed p
  rolled : ∀ p ∈ messages, Rolled p
  /-- a current id that can stay is a text -/
  kept : keeps messages currentId = true → ∃ name, currentId = .str name
  /-- a child id is no name that objects have anyhow, unless a message is under it -/
  children : ∀ l ∈ childLinks messages, ∃ name, l.2.toStr = some name ∧ (name ∈ inherited → name ∈ messages.map Prod.fst)
  /-- up from the message at which the chat opens, no message is above itself -/
  way : ∀ id, opening number messages currentId = some id → ∀ a, a = id ∨ Forest.Ancestor (above messages inherited) a id →
    (parentAt messages a).toStr.isSome = true ∧ ¬ Forest.Ancestor (above messages inherited) a a

end

/-- The stored histories that open after the repair. -/
def Sound (number : JsString → JsNumber) (history : JsValue) : Prop :=
  if (history.get (js "messages")).isObject then
    SoundWith number (prepared (history.get (js "messages"))) (inheritedBy (history.get (js "messages")))
      (history.get (js "currentId"))
  else (history.get (js "currentId")).isNullish = true

section
variable {number : JsString → JsNumber} {messages : Nodes} {inherited : List JsString}

theorem prepared_id {stored : JsValue} {p : JsString × Node} (hp : p ∈ prepared stored) : p.2.id = .str p.1 := by
  obtain ⟨q, -, rfl⟩ := List.mem_map.mp hp
  rfl

/-- The messages after all passes, but for roles. -/
theorem links_eq {parents : List (JsString × JsString)} {repaired : Nodes}
    (hparents : parents = notes (childLinks messages) [])
    (h : reconstructFrom parents [] messages = some repaired) : repaired.map (fun p => (p.1, p.2.links)) =
      messages.map fun p => (p.1, ⟨p.2.id, parentAfter (listerIn (childLinks messages) p.1) p, p.2.childrenIds⟩) := by
  rw [links_reconstructFrom h, List.map_nil, List.nil_append, hparents]
  refine List.map_congr_left fun p _ => ?_
  rw [lookup_notes, List.lookup_nil, Option.or_none]

theorem mem_newest {id : JsString} (h : newest number messages = some id) : id ∈ messages.map Prod.fst := by
  have hfold : ∀ (rest : Nodes) (latest : Option JsString × JsValue), rest ⊆ messages →
      (∀ id, latest.1 = some id → id ∈ messages.map Prod.fst) →
      ∀ id, (rest.foldl (newer number) latest).1 = some id → id ∈ messages.map Prod.fst := by
    intro rest
    induction rest with
    | nil => exact fun _ _ hlatest => hlatest
    | cons p rest ih =>
      intro latest hsub hlatest
      have ⟨hp, hrest⟩ := List.cons_subset.mp hsub
      refine ih _ hrest fun id hid => ?_
      rw [newer] at hid
      split at hid
      · cases hid
        exact List.mem_map_of_mem hp
      · exact hlatest id hid
  exact hfold messages (none, minusOne) (List.Subset.refl _) (fun id hid => by cases hid) id h

theorem mem_of_isWhole {name : JsString} (h : isWhole messages name = true) : name ∈ messages.map Prod.fst := by
  rw [isWhole, Option.any_eq_true] at h
  obtain ⟨m, hm, -⟩ := h
  exact List.mem_map_of_mem (f := Prod.fst) (JsValue.mem_of_lookup hm)

/-- A chat opens at one of its messages. -/
theorem mem_opening {currentId : JsValue} {id : JsString} (h : opening number messages currentId = some id) :
    id ∈ messages.map Prod.fst := by
  rw [opening, keeps] at h
  split at h
  · rename_i hkeeps
    rw [h, Option.any_some] at hkeeps
    exact mem_of_isWhole hkeeps
  · rcases Option.or_eq_some_iff.mp h with h | ⟨-, h⟩
    · exact mem_newest h
    · obtain ⟨p, hp, rfl⟩ := Option.map_eq_some_iff.mp h
      exact List.mem_map_of_mem (List.mem_of_mem_head? hp)

theorem nil_of_opening {currentId : JsValue} (h : opening number messages currentId = none) : messages = [] := by
  rw [opening, keeps] at h
  split at h
  · rename_i hkeeps
    rw [h] at hkeeps
    cases hkeeps
  · cases messages with
    | nil => rfl
    | cons p messages =>
      rw [Option.or_eq_none_iff] at h
      cases h.2

/-- The current id after the repair. -/
theorem recovered_eq {currentId : JsValue} (hkept : keeps messages currentId = true → ∃ name, currentId = .str name) :
    (if keeps messages currentId then currentId else (opening number messages currentId).elim .null .str) =
      (opening number messages currentId).elim .null .str := by
  cases hkeeps : keeps messages currentId with
  | false => rfl
  | true =>
    obtain ⟨name, rfl⟩ := hkept hkeeps
    rw [if_pos rfl, opening, if_pos hkeeps]
    rfl

end

section
variable {messages repaired : Nodes} (inherited : List JsString) (currentId : JsValue)
  (hrepaired : repaired.map (fun p => (p.1, p.2.links)) =
    messages.map fun p => (p.1, ⟨p.2.id, parentAfter (listerIn (childLinks messages) p.1) p, p.2.childrenIds⟩))
include hrepaired

theorem keys_repaired : repaired.map Prod.fst = messages.map Prod.fst := by
  have h := congrArg (List.map Prod.fst) hrepaired
  rwa [List.map_map, List.map_map] at h

theorem keys_prune : (prune inherited repaired).map Prod.fst = messages.map Prod.fst := by
  rw [prune, List.map_map, ← keys_repaired hrepaired]
  rfl

theorem parentId_eq (name : JsString) :
    History.parentId ⟨currentId, prune inherited repaired, inherited⟩ name = parentAt messages name := by
  have h := congrArg (fun l => (l.lookup name).map Links.parentId) hrepaired
  simp only [lookup_map_key, Option.map_map] at h
  rw [History.parentId, prune, lookup_map_key, Option.map_map, parentAt]
  exact congrArg (fun v => Option.getD v .undefined) h

theorem at_eq (v : JsValue) : History.at ⟨currentId, prune inherited repaired, inherited⟩ v =
    v.toStr.map fun name => if name ∈ messages.map Prod.fst ∨ name ∈ inherited then some name else none := by
  rw [History.at, keys_prune inherited hrepaired]

theorem link_eq (name : JsString) :
    Messages.link (History.at ⟨currentId, prune inherited repaired, inherited⟩)
      (History.parentId ⟨currentId, prune inherited repaired, inherited⟩) name = above messages inherited name := by
  rw [Messages.link, parentId_eq inherited currentId hrepaired, at_eq inherited currentId hrepaired, above]
  cases (parentAt messages name).toStr <;> rfl

/-- What is asked of the children that are left, asked of all children of which something is found. -/
theorem children_iff {Q : JsValue → Prop} : (∀ p ∈ prune inherited repaired, ∀ childId ∈ p.2.childrenIds, Q childId) ↔
    ∀ l ∈ childLinks messages, isThere messages inherited l.2 = true → Q l.2 := by
  have hchildren : repaired.map (fun p => p.2.childrenIds) = messages.map fun p => p.2.childrenIds := by
    have h := congrArg (List.map fun p : JsString × Links => p.2.childrenIds) hrepaired
    rwa [List.map_map, List.map_map] at h
  have hthere : isThere repaired inherited = isThere messages inherited := by
    funext childId
    rw [isThere, isThere, keys_repaired hrepaired]
  constructor
  · intro h l hl hl'
    obtain ⟨p, hp, hlp⟩ := List.mem_flatMap.mp hl
    obtain ⟨childId, hchild, rfl⟩ := List.mem_map.mp hlp
    have hmem : p.2.childrenIds ∈ repaired.map fun p => p.2.childrenIds := hchildren ▸ List.mem_map_of_mem hp
    obtain ⟨q, hq, hqp⟩ := List.mem_map.mp hmem
    refine h _ (List.mem_map_of_mem hq) childId (List.mem_filter.mpr ⟨?_, ?_⟩)
    · rw [hqp]
      exact hchild
    · rw [hthere]
      exact hl'
  · intro h p hp childId hchild
    obtain ⟨q, hq, rfl⟩ := List.mem_map.mp hp
    have ⟨hin, hfound⟩ := List.mem_filter.mp hchild
    have hmem : q.2.childrenIds ∈ messages.map fun p => p.2.childrenIds := hchildren ▸ List.mem_map_of_mem hq
    obtain ⟨r, hr, hrq⟩ := List.mem_map.mp hmem
    refine h (r.1, childId) (List.mem_flatMap.mpr ⟨r, hr, List.mem_map.mpr ⟨childId, ?_, rfl⟩⟩) ?_
    · rw [hrq]
      exact hin
    · rw [← hthere]
      exact hfound

end

theorem mem_above {messages : Nodes} {inherited : List JsString} {a b : JsString} (h : above messages inherited b = some a) :
    a ∈ messages.map Prod.fst ∨ a ∈ inherited := by
  rw [above] at h
  split at h
  · cases h
  · obtain ⟨p, -, hp⟩ := Option.bind_eq_some_iff.mp h
    split at hp
    · cases hp
      assumption
    · cases hp

theorem toStr_of_isNullish {v : JsValue} (h : v.isNullish = true) : v.toStr.isSome = true := by
  cases v with
  | undefined => rfl
  | null => rfl
  | _ => cases h

section
variable {number : JsString → JsNumber}

/-- The repair throws or not, and what it gives. -/
theorem sanitizeHistory_iff {history : JsValue} (hobject : (history.get (js "messages")).isObject = true) {h : History}
    {messages : Nodes} (hmessages : messages = prepared (history.get (js "messages"))) {inherited : List JsString}
    (hinherited : inherited = inheritedBy (history.get (js "messages"))) {currentId : JsValue}
    (hcurrentId : currentId = history.get (js "currentId")) :
    sanitizeHistory number history = some h ↔
      (∀ l ∈ childLinks messages, ∃ name, l.2.toStr = some name) ∧ currentId.toStr.isSome = true ∧
        (keeps messages currentId = false → ∀ p ∈ messages, Timed p) ∧
        ∃ repaired, reconstructFrom (notes (childLinks messages) []) [] messages = some repaired ∧
          h = ⟨if keeps messages currentId then currentId else (opening number messages currentId).elim .null .str,
            prune inherited repaired, inherited⟩ := by
  subst hmessages hinherited hcurrentId
  rw [sanitizeHistory, if_pos hobject, Option.bind_eq_some_iff]
  constructor
  · rintro ⟨parents, hparents, h⟩
    obtain ⟨v, hv, h⟩ := Option.bind_eq_some_iff.mp h
    obtain ⟨repaired, hrepaired, rfl⟩ := Option.map_eq_some_iff.mp h
    obtain ⟨hnamed, rfl⟩ := foldlM_note.mp hparents
    obtain ⟨hname, htimed, rfl⟩ := recoverCurrentId_iff.mp hv
    exact ⟨hnamed, hname, htimed, repaired, hrepaired, rfl⟩
  · rintro ⟨hnamed, hname, htimed, repaired, hrepaired, rfl⟩
    refine ⟨_, foldlM_note.mpr ⟨hnamed, rfl⟩, Option.bind_eq_some_iff.mpr ⟨_,
      recoverCurrentId_iff.mpr ⟨hname, htimed, rfl⟩, ?_⟩⟩
    exact Option.map_eq_some_iff.mpr ⟨repaired, hrepaired, rfl⟩

/-- The shown messages of a repaired history, told by what is stored. -/
theorem shown_iff {messages repaired : Nodes} (inherited : List JsString)
    (hrepaired : repaired.map (fun p => (p.1, p.2.links)) =
      messages.map fun p => (p.1, ⟨p.2.id, parentAfter (listerIn (childLinks messages) p.1) p, p.2.childrenIds⟩))
    {id : JsString} (hid : id ∈ messages.map Prod.fst) :
    (∃ fuel l, Messages.createMessagesList (History.at ⟨.str id, prune inherited repaired, inherited⟩)
        (History.parentId ⟨.str id, prune inherited repaired, inherited⟩) fuel (.str id) = some l ∧ l.Nodup) ↔
      ∀ a, a = id ∨ Forest.Ancestor (above messages inherited) a id →
        (parentAt messages a).toStr.isSome = true ∧ ¬ Forest.Ancestor (above messages inherited) a a := by
  have hlink : Messages.link (History.at ⟨.str id, prune inherited repaired, inherited⟩)
      (History.parentId ⟨.str id, prune inherited repaired, inherited⟩) = above messages inherited :=
    funext (link_eq inherited (.str id) hrepaired)
  have hfound : History.at ⟨.str id, prune inherited repaired, inherited⟩ (.str id) = some (some id) := by
    rw [at_eq inherited (.str id) hrepaired]
    exact congrArg some (if_pos (Or.inl hid))
  have hnodes : ∀ a, a = id ∨ Forest.Ancestor (above messages inherited) a id →
      a ∈ messages.map Prod.fst ++ inherited := by
    rintro a (rfl | hancestor)
    · exact List.mem_append_left _ hid
    · obtain ⟨b, hb, -⟩ := Relation.TransGen.head'_iff.mp hancestor
      exact List.mem_append.mpr (mem_above hb)
  have hread : ∀ a, Messages.Readable (History.at ⟨.str id, prune inherited repaired, inherited⟩)
      (History.parentId ⟨.str id, prune inherited repaired, inherited⟩) a ↔ (parentAt messages a).toStr.isSome = true := by
    intro a
    rw [Messages.Readable, parentId_eq inherited (.str id) hrepaired, at_eq inherited (.str id) hrepaired, Option.isSome_map]
    exact or_iff_right_of_imp toStr_of_isNullish
  rw [Messages.shows_iff (messages.map Prod.fst ++ inherited) rfl hfound (by rw [hlink]; exact hnodes), hlink]
  simp only [hread]

/-- What is asked of the history that the passes give. -/
theorem opens_repaired_iff {messages repaired : Nodes} {inherited : List JsString} {currentId : JsValue}
    (hid : ∀ p ∈ messages, p.2.id = .str p.1) (hnamed : ∀ l ∈ childLinks messages, ∃ name, l.2.toStr = some name)
    (hrepaired : repaired.map (fun p => (p.1, p.2.links)) =
      messages.map fun p => (p.1, ⟨p.2.id, parentAfter (listerIn (childLinks messages) p.1) p, p.2.childrenIds⟩)) :
    Opens ⟨if keeps messages currentId then currentId else (opening number messages currentId).elim .null .str,
        prune inherited repaired, inherited⟩ ↔
      (keeps messages currentId = true → ∃ name, currentId = .str name) ∧
      (∀ l ∈ childLinks messages, ∃ name, l.2.toStr = some name ∧ (name ∈ inherited → name ∈ messages.map Prod.fst)) ∧
      (∀ id, opening number messages currentId = some id → ∀ a, a = id ∨ Forest.Ancestor (above messages inherited) a id →
        (parentAt messages a).toStr.isSome = true ∧ ¬ Forest.Ancestor (above messages inherited) a a) := by
  have hkeys := keys_prune inherited hrepaired
  have hids : ∀ p ∈ prune inherited repaired, p.2.id = .str p.1 := by
    intro p hp
    obtain ⟨q, hq, rfl⟩ := List.mem_map.mp hp
    have hmem : (q.1, q.2.links) ∈ repaired.map fun p => (p.1, p.2.links) := List.mem_map_of_mem hq
    rw [hrepaired] at hmem
    obtain ⟨r, hr, heq⟩ := List.mem_map.mp hmem
    obtain ⟨hrq, hlinks⟩ := Prod.mk.inj heq
    show q.2.links.id = .str q.1
    rw [← hlinks, ← hrq]
    exact hid r hr
  constructor
  · intro h
    have hkept : keeps messages currentId = true → ∃ name, currentId = .str name := by
      intro hkeeps
      have hcurrent := h.current
      rw [hkeeps, if_pos rfl] at hcurrent
      rcases hcurrent with ⟨-, hnil⟩ | ⟨p, hp, hcurrent⟩
      · rw [keeps, Option.any_eq_true] at hkeeps
        obtain ⟨name, -, hwhole⟩ := hkeeps
        have hmem := mem_of_isWhole hwhole
        have hempty : messages.map Prod.fst = [] := hkeys.symm.trans (congrArg (List.map Prod.fst) hnil)
        rw [hempty] at hmem
        cases hmem
      · exact ⟨p.1, hcurrent.trans (hids p hp)⟩
    refine ⟨hkept, ?_, ?_⟩
    · intro l hl
      obtain ⟨name, hname⟩ := hnamed l hl
      refine ⟨name, hname, fun hin => ?_⟩
      have hthere : isThere messages inherited l.2 = true := by
        rw [isThere, hname, Option.any_some, decide_eq_true hin, Bool.or_true]
      obtain ⟨name', hname', heq⟩ := (children_iff inherited hrepaired).mp h.children l hl hthere
      rw [hname] at heq
      cases heq
      rwa [hkeys] at hname'
    · intro id hopening
      have hshown := h.shown
      rw [recovered_eq hkept, hopening] at hshown
      exact (shown_iff inherited hrepaired (mem_opening hopening)).mp hshown
  · rintro ⟨hkept, hchildren, hway⟩
    rw [recovered_eq hkept]
    refine ⟨hids, ?_, ?_, ?_⟩
    · cases hopening : opening number messages currentId with
      | none =>
        rw [nil_of_opening hopening] at hkeys
        exact .inl ⟨rfl, List.map_eq_nil_iff.mp hkeys⟩
      | some id =>
        obtain ⟨p, hp, rfl⟩ := List.mem_map.mp (hkeys ▸ mem_opening hopening)
        exact .inr ⟨p, hp, (hids p hp).symm⟩
    · refine (children_iff inherited hrepaired).mpr fun l hl hthere => ?_
      obtain ⟨name, hname, hin⟩ := hchildren l hl
      rw [isThere, hname, Option.any_some, Bool.or_eq_true, decide_eq_true_iff, decide_eq_true_iff] at hthere
      exact ⟨name, by rw [hkeys]; exact hthere.elim (fun h => h) hin, hname⟩
    · cases hopening : opening number messages currentId with
      | none => exact ⟨1, [], rfl, List.nodup_nil⟩
      | some id => exact (shown_iff inherited hrepaired (mem_opening hopening)).mpr (hway id hopening)

/-- **The law of opening**: exactly the sound histories open. -/
theorem opens_iff (history : JsValue) :
    (∃ h, sanitizeHistory number history = some h ∧ Opens h) ↔ Sound number history := by
  rw [Sound]
  cases hobject : (history.get (js "messages")).isObject with
  | false =>
    rw [if_neg Bool.false_ne_true, sanitizeHistory, hobject, if_neg Bool.false_ne_true]
    constructor
    · rintro ⟨h, heq, hopens⟩
      cases heq
      rcases hopens.current with ⟨hnull, -⟩ | ⟨p, hp, -⟩
      · exact hnull
      · cases hp
    · intro hnull
      refine ⟨_, rfl, fun p hp => (nomatch hp), .inl ⟨hnull, rfl⟩, fun p hp => (nomatch hp), 1, [], ?_, List.nodup_nil⟩
      rw [Messages.createMessagesList, Messages.walkUp_none 0 (.inl hnull), Option.map_some, List.reverse_nil]
  | true =>
    rw [if_pos rfl]
    simp only [sanitizeHistory_iff hobject rfl rfl rfl]
    constructor
    · rintro ⟨h, ⟨hnamed, hname, htimed, repaired, hrepaired, rfl⟩, hopens⟩
      have hlinks := links_eq rfl hrepaired
      obtain ⟨hkept, hchildren, hway⟩ := (opens_repaired_iff (fun _ => prepared_id) hnamed hlinks).mp hopens
      refine ⟨hname, htimed, ?_, hkept, hchildren, hway⟩
      exact (reconstructFrom_iff _ _).mp (by rw [hrepaired]; rfl)
    · rintro ⟨hname, htimed, hrolled, hkept, hchildren, hway⟩
      obtain ⟨repaired, hrepaired⟩ := Option.isSome_iff_exists.mp ((@reconstructFrom_iff (notes _ _) [] _).mpr hrolled)
      have hnamed := fun l hl => (hchildren l hl).imp fun _ h => h.1
      refine ⟨_, ⟨hnamed, hname, htimed, repaired, hrepaired, rfl⟩, ?_⟩
      exact (opens_repaired_iff (fun _ => prepared_id) hnamed (links_eq rfl hrepaired)).mpr ⟨hkept, hchildren, hway⟩

end

/-- A history whose message names itself as its parent. -/
def selfParent : JsValue :=
  .obj
    [(js "currentId", .str (js "a")),
     (js "messages", .obj [(js "a", .obj [(js "role", .str (js "user")), (js "parentId", .str (js "a"))])])]

/-- The list of its messages has no end. -/
theorem not_opens_selfParent : ¬ ∃ h, sanitizeHistory (fun _ => .nan) selfParent = some h ∧ Opens h := by
  rintro ⟨h, hsome, hopens⟩
  obtain rfl := Option.some.inj hsome
  obtain ⟨fuel, l, hl, -⟩ := hopens.shown
  obtain ⟨l, hwalk, -⟩ := Option.map_eq_some_iff.mp hl
  have hline := (Messages.lineage_of_walkUp (m := js "a") rfl rfl hwalk).1
  exact hline.irrefl (.single rfl)

end Sanitize
end MaterialOpenWebui
