import MaterialOpenWebui.Chats.History
import MaterialOpenWebui.Lib.Forest

/-!
# `Chats.Tree` — the messages of a history form a forest

`Tree` is what the three operations are meant to keep: the messages form a forest, every message lists exactly
the messages that name it as their parent, and the current id is that of a message.

`upsert_message_to_history` writes one direction of a link only: it gives a new message its parent, and leaves
the parent's list to its caller. So the invariant is split. `Grown` is about the parents, `Linked` about the
lists, and it says what a list should hold by any relation: between the two steps of a caller the lists run
behind the parents (`saveUserMessage`) or ahead of them (`saveReplies`).
-/

namespace MaterialOpenWebui
namespace Chats
open Py Forest

/-! ## Links -/

/-- The id of the parent that a message names. -/
def parentOf (messages : Dict Str Obj) (id : Str) : Option Str :=
  (messages.get? id).bind fun message => (field message kParentId).text?

/-- A message names no parent, or one of the messages. -/
def Names (messages : Dict Str Obj) (message : Obj) : Prop :=
  field message kParentId = .none ∨ ∃ parent ∈ messages, field message kParentId = .str parent

structure Grown (messages : Dict Str Obj) : Prop where
  named : [] ∉ messages
  parents : ∀ id message, messages.get? id = some message → Names messages message
  rooted : Rooted (parentOf messages)

/-- Every message lists, without duplicates, the ids that it should. -/
def Linked (messages : Dict Str Obj) (listed : Str → Str → Prop) : Prop :=
  ∀ id message, messages.get? id = some message → ∃ ids : List Str,
    message.get? kChildrenIds = some (.list (ids.map .str)) ∧ ids.Nodup ∧ ∀ c, c ∈ ids ↔ listed id c

structure Tree (h : History) : Prop where
  grown : Grown h.messages
  linked : Linked h.messages (IsParent (parentOf h.messages))
  current : h.currentId = .none ∨ ∃ id ∈ h.messages, h.currentId = .str id

theorem parentOf_eq {messages : Dict Str Obj} {id : Str} {message : Obj} (h : messages.get? id = some message) :
    parentOf messages id = (field message kParentId).text? := by
  rw [parentOf, h, Option.bind_some]

theorem parentOf_of_not_mem {messages : Dict Str Obj} {id : Str} (h : id ∉ messages) :
    parentOf messages id = none := by
  rw [parentOf, Dict.get?_eq_none_iff.mpr h, Option.bind_none]

theorem parentOf_set (messages : Dict Str Obj) (id : Str) (message : Obj) (c : Str) :
    parentOf (messages.set id message) c =
      if c = id then (field message kParentId).text? else parentOf messages c := by
  rw [parentOf, parentOf, Dict.get?_set]
  split <;> rfl

theorem mem_of_parentOf {messages : Dict Str Obj} {id parent : Str} (h : parentOf messages id = some parent) :
    id ∈ messages := by
  by_contra hmem
  rw [parentOf_of_not_mem hmem] at h
  cases h

theorem Names.mono {messages messages' : Dict Str Obj} {message : Obj} (h : Names messages message)
    (hmem : ∀ id ∈ messages, id ∈ messages') : Names messages' message := by
  rcases h with hnone | ⟨parent, hparent, heq⟩
  · exact Or.inl hnone
  · exact Or.inr ⟨parent, hmem parent hparent, heq⟩

theorem Names.text {messages : Dict Str Obj} {message : Obj} (h : Names messages message) {parent : Str}
    (heq : (field message kParentId).text? = some parent) : parent ∈ messages := by
  rcases h with hnone | ⟨p, hp, hstr⟩
  · rw [hnone] at heq
    cases heq
  · rw [hstr] at heq
    cases heq
    exact hp

/-- Every message names no parent, or one of the messages, and every chain of parents ends. -/
structure Forested (messages : Dict Str Obj) : Prop where
  parents : ∀ id message, messages.get? id = some message → Names messages message
  rooted : Rooted (parentOf messages)

theorem Grown.forested {messages : Dict Str Obj} (hg : Grown messages) : Forested messages := ⟨hg.parents, hg.rooted⟩

/-- The parent a message names is a message. -/
theorem Forested.parent_mem {messages : Dict Str Obj} (hf : Forested messages) {id parent : Str}
    (h : parentOf messages id = some parent) : parent ∈ messages := by
  obtain ⟨message, hmessage⟩ := Dict.mem_iff.mp (mem_of_parentOf h)
  rw [parentOf_eq hmessage] at h
  exact (hf.parents id message hmessage).text h

theorem Grown.parent_mem {messages : Dict Str Obj} (hg : Grown messages) {id parent : Str}
    (h : parentOf messages id = some parent) : parent ∈ messages := hg.forested.parent_mem h

theorem tree_empty : Tree .empty where
  grown :=
    { named := Dict.not_mem_empty _
      parents := fun _ _ h => nomatch h
      rooted := ⟨fun _ => ⟨_, fun _ h => nomatch h⟩⟩ }
  linked := fun _ _ h => nomatch h
  current := Or.inl rfl

/-! ## Steps -/

/-- A new message, under no parent or one of the messages. -/
theorem Grown.insert {messages : Dict Str Obj} (hg : Grown messages) {id : Str} (hid : id ≠ [])
    (hnew : id ∉ messages) {message : Obj} (hnames : Names messages message) :
    Grown (messages.set id message) where
  named := by
    rw [Dict.mem_set]
    rintro (heq | hmem)
    · exact hid heq.symm
    · exact hg.named hmem
  parents := by
    intro c m hm
    rw [Dict.get?_set] at hm
    have hmono : ∀ c ∈ messages, c ∈ messages.set id message := fun c hc => Dict.mem_set.mpr (Or.inr hc)
    split at hm
    · cases hm
      exact hnames.mono hmono
    · exact (hg.parents c m hm).mono hmono
  rooted := by
    apply rooted_leaf hg.rooted id
    · intro c hc
      exact hnew (hg.parent_mem hc)
    · intro hself
      rw [parentOf_set, if_pos rfl] at hself
      exact hnew (hnames.text hself)
    · intro c hc
      rw [parentOf_set, if_neg hc]

theorem Linked.insert {messages : Dict Str Obj} {listed : Str → Str → Prop} (hl : Linked messages listed)
    {id : Str} {message : Obj} (hchildren : message.get? kChildrenIds = some (.list []))
    (hnone : ∀ c, ¬ listed id c) : Linked (messages.set id message) listed := by
  intro c m hm
  rw [Dict.get?_set] at hm
  split at hm
  · rename_i hc
    cases hm
    subst hc
    exact ⟨[], hchildren, List.nodup_nil, fun d => by simp [hnone d]⟩
  · exact hl c m hm

/-- A changed message that names the parent it named. -/
theorem parentOf_revise {messages : Dict Str Obj} {id : Str} {message message' : Obj}
    (hmessage : messages.get? id = some message) (hsame : field message' kParentId = field message kParentId) :
    parentOf (messages.set id message') = parentOf messages := by
  funext c
  rw [parentOf_set]
  split
  · rename_i hc
    rw [hc, parentOf_eq hmessage, hsame]
  · rfl

theorem Forested.revise {messages : Dict Str Obj} (hf : Forested messages) {id : Str} {message message' : Obj}
    (hmessage : messages.get? id = some message) (hsame : field message' kParentId = field message kParentId) :
    Forested (messages.set id message') where
  parents := by
    intro c m hm
    have hmono : ∀ c ∈ messages, c ∈ messages.set id message' := fun c hc => Dict.mem_set.mpr (Or.inr hc)
    rw [Dict.get?_set] at hm
    split at hm
    · cases hm
      have hnames := (hf.parents id message hmessage).mono hmono
      rw [Names, hsame]
      exact hnames
    · exact (hf.parents c m hm).mono hmono
  rooted := by
    rw [parentOf_revise hmessage hsame]
    exact hf.rooted

theorem Grown.revise {messages : Dict Str Obj} (hg : Grown messages) {id : Str} {message message' : Obj}
    (hmessage : messages.get? id = some message) (hsame : field message' kParentId = field message kParentId) :
    Grown (messages.set id message') where
  named := by
    rw [Dict.mem_set]
    rintro (heq | hmem)
    · exact hg.named (heq ▸ Dict.mem_of_get? hmessage)
    · exact hg.named hmem
  parents := (hg.forested.revise hmessage hsame).parents
  rooted := (hg.forested.revise hmessage hsame).rooted

/-- A list that changes as it should. -/
theorem Linked.revise {messages : Dict Str Obj} {listed listed' : Str → Str → Prop} (hl : Linked messages listed)
    {id : Str} {message' : Obj} (ids : List Str) (hchildren : message'.get? kChildrenIds = some (.list (ids.map .str)))
    (hnodup : ids.Nodup) (hids : ∀ c, c ∈ ids ↔ listed' id c)
    (hothers : ∀ p c, p ≠ id → (listed' p c ↔ listed p c)) : Linked (messages.set id message') listed' := by
  intro p m hm
  rw [Dict.get?_set] at hm
  split at hm
  · rename_i hp
    cases hm
    subst hp
    exact ⟨ids, hchildren, hnodup, hids⟩
  · rename_i hp
    obtain ⟨ids', hids', hnodup', hmem'⟩ := hl p m hm
    exact ⟨ids', hids', hnodup', fun c => by rw [hmem' c, hothers p c hp]⟩

theorem any_eq_str (ids : List Str) (s : Str) :
    ((ids.map Val.str).any fun v => v.eq (.str s)) = decide (s ∈ ids) := by
  induction ids with
  | nil => rfl
  | cons id ids ih =>
    rw [List.map_cons, List.any_cons, ih, Val.eq]
    simp [Val.text?, beq_eq_decide]

/-! ## A new message -/

/-- The message lists no children. -/
def Childless (message : Obj) : Prop :=
  field message kChildrenIds = .list [] ∨ (field message kChildrenIds).isList = false

theorem listedBy_eq_none {message_id : Str} {items : List (Str × Obj)}
    (h : ∀ p ∈ items, ∃ ids : List Str, p.2.get? kChildrenIds = some (.list (ids.map .str)) ∧ message_id ∉ ids) :
    listedBy message_id items = some .none := by
  induction items with
  | nil => rfl
  | cons p items ih =>
    obtain ⟨ids, hids, hnot⟩ := h p List.mem_cons_self
    have hcontains : contains ((p.2.get? kChildrenIds).getD (.list [])) message_id = some false := by
      rw [hids, Option.getD_some, contains, any_eq_str, decide_eq_false hnot]
    rw [listedBy, hcontains]
    exact ih fun q hq => h q (List.mem_cons_of_mem _ hq)

/-- Nobody lists the message. -/
theorem Linked.listedBy {messages : Dict Str Obj} {listed : Str → Str → Prop} (hl : Linked messages listed)
    {message_id : Str} (hnone : ∀ p, ¬ listed p message_id) : listedBy message_id messages.items = some .none := by
  apply listedBy_eq_none
  rintro ⟨id, message⟩ hp
  obtain ⟨ids, hids, -, hmem⟩ := hl id message (Dict.get?_eq_some_iff.mpr hp)
  exact ⟨ids, hids, fun hc => hnone id ((hmem message_id).mp hc)⟩

/-- **What a new message is stored as**: under the parent it names, without children. -/
theorem newMessage_spec {messages : Dict Str Obj} {message_id : Str} {message saved : Obj} {now : Int}
    (hnames : Names messages message) (hchildless : Childless message)
    (hlisted : field message kParentId = .none → listedBy message_id messages.items = some .none)
    (h : newMessage messages message_id message now = some saved) :
    field saved kParentId = field message kParentId ∧ saved.get? kChildrenIds = some (.list []) := by
  have hparent : newParentId messages message_id message = some (field message kParentId) := by
    rcases hnames with hnone | ⟨parent, -, hstr⟩
    · rw [newParentId, hlisted hnone, hnone]
      rfl
    · rw [newParentId, hstr]
      rfl
  have hchildren : (if (field message kChildrenIds).isList then field message kChildrenIds else .list []) =
      .list [] := by
    rcases hchildless with hempty | hno
    · rw [hempty]
      rfl
    · rw [if_neg (by rw [hno]; exact Bool.false_ne_true)]
  rw [newMessage, hparent] at h
  simp only [hchildren, Option.bind_eq_bind, Option.bind_some] at h
  obtain ⟨parent, -, h⟩ := Option.bind_eq_some_iff.mp h
  obtain ⟨output, -, h⟩ := Option.bind_eq_some_iff.mp h
  cases h
  have h₁ : kParentId ≠ kTimestamp := by decide
  have h₂ : kParentId ≠ kRole := by decide
  have h₃ : kParentId ≠ kChildrenIds := by decide
  have h₄ : kChildrenIds ≠ kTimestamp := by decide
  have h₅ : kChildrenIds ≠ kRole := by decide
  constructor
  · simp only [field_set, if_neg h₁, if_neg h₂, if_neg h₃, if_pos]
  · simp only [Dict.get?_set, if_neg h₄, if_neg h₅, if_pos]

/-- A new message is stored, and becomes the current one. -/
theorem upsert_new {h : History} {message_id : Str} (hnew : message_id ∉ h.messages) (message : Obj) (now : Int) :
    upsert_message_to_history h message_id message now =
      (newMessage h.messages message_id message now).map fun saved =>
        ({ h with messages := h.messages.set message_id saved, currentId := .str message_id }, saved) := by
  rw [upsert_message_to_history, Dict.get?_eq_none_iff.mpr hnew]
  cases newMessage h.messages message_id message now <;> rfl

/-- An update adds its keys to the message, which becomes the current one. -/
theorem upsert_existing {h : History} {message_id : Str} {existing : Obj}
    (hexisting : h.messages.get? message_id = some existing) (message : Obj) (now : Int) :
    upsert_message_to_history h message_id message now =
      some ({ h with messages := h.messages.set message_id (existing.update message),
                     currentId := .str message_id }, existing.update message) := by
  rw [upsert_message_to_history, hexisting]
  rfl

/-- **A new message goes under the parent it names**; the lists stay as they are. -/
theorem upsert_new_spec {h h' : History} {listed : Str → Str → Prop} (hg : Grown h.messages)
    (hl : Linked h.messages listed) {message_id : Str} {message saved : Obj} {now : Int} (hid : message_id ≠ [])
    (hnew : message_id ∉ h.messages) (hnames : Names h.messages message) (hchildless : Childless message)
    (hlisted : field message kParentId = .none → ∀ p, ¬ listed p message_id) (hnone : ∀ c, ¬ listed message_id c)
    (hupsert : upsert_message_to_history h message_id message now = some (h', saved)) :
    h'.currentId = .str message_id ∧ (∀ c, c ∈ h'.messages ↔ c = message_id ∨ c ∈ h.messages) ∧
      (∀ c, parentOf h'.messages c =
        if c = message_id then (field message kParentId).text? else parentOf h.messages c) ∧
      Grown h'.messages ∧ Linked h'.messages listed := by
  rw [upsert_new hnew, Option.map_eq_some_iff] at hupsert
  obtain ⟨stored, hstored, heq⟩ := hupsert
  cases heq
  obtain ⟨hparent, hchildren⟩ := newMessage_spec hnames hchildless (fun h => hl.listedBy (hlisted h)) hstored
  have hnames' : Names h.messages saved := by
    rw [Names, hparent]
    exact hnames
  refine ⟨rfl, fun c => Dict.mem_set, fun c => ?_, hg.insert hid hnew hnames', hl.insert hchildren hnone⟩
  rw [parentOf_set, hparent]

/-- **An update that does not touch the links.** -/
theorem tree_update {h h' : History} (htree : Tree h) {message_id : Str} {existing message saved : Obj} {now : Int}
    (hexisting : h.messages.get? message_id = some existing)
    (hparent : (existing.update message).get? kParentId = existing.get? kParentId)
    (hchildren : (existing.update message).get? kChildrenIds = existing.get? kChildrenIds)
    (hupsert : upsert_message_to_history h message_id message now = some (h', saved)) : Tree h' := by
  rw [upsert_existing hexisting] at hupsert
  cases hupsert
  have hsame : field (existing.update message) kParentId = field existing kParentId := by
    rw [field, field, hparent]
  obtain ⟨ids, hids, hnodup, hmem⟩ := htree.linked message_id existing hexisting
  exact
    { grown := htree.grown.revise hexisting hsame
      linked := by
        show Linked _ (IsParent (parentOf _))
        rw [parentOf_revise hexisting hsame]
        exact htree.linked.revise ids (hchildren.trans hids) hnodup hmem (fun _ _ _ => Iff.rfl)
      current := Or.inr ⟨message_id, Dict.mem_set.mpr (Or.inl rfl), rfl⟩ }

/-! ## The callers that link -/

/-- Adding ids that are new to a list. -/
theorem foldl_link (olds news : List Str) (hnodup : (olds ++ news).Nodup) :
    news.foldl (fun (vs : List Val) id => if vs.any (·.eq (.str id)) then vs else vs ++ [.str id])
      (olds.map .str) = (olds ++ news).map .str := by
  induction news generalizing olds with
  | nil => rw [List.foldl_nil, List.append_nil]
  | cons id news ih =>
    have happend : olds ++ id :: news = (olds ++ [id]) ++ news := by simp
    have hid : id ∉ olds := fun hmem =>
      (List.nodup_append.mp hnodup).2.2 id hmem id List.mem_cons_self rfl
    rw [happend] at hnodup
    rw [List.foldl_cons, any_eq_str, decide_eq_false hid, if_neg Bool.false_ne_true, happend, ← ih _ hnodup,
      List.map_append]
    rfl

/-- **Linking adds the ids to one list**, and changes nothing else. -/
theorem linkChildren_spec {h : History} {listed : Str → Str → Prop} (hg : Grown h.messages)
    (hl : Linked h.messages listed) {parent : Str} (hparent : parent ∈ h.messages) {ids : List Str}
    (hnodup : ids.Nodup) (hnew : ∀ c ∈ ids, ¬ listed parent c) (now : Int) :
    ∃ messages, linkChildren h parent ids now =
        some { h with messages, currentId := .str parent } ∧
      (∀ c, c ∈ messages ↔ c ∈ h.messages) ∧ parentOf messages = parentOf h.messages ∧ Grown messages ∧
      Linked messages fun p c => listed p c ∨ p = parent ∧ c ∈ ids := by
  obtain ⟨message, hmessage⟩ := Dict.mem_iff.mp hparent
  obtain ⟨olds, holds, holdsNodup, hmem⟩ := hl parent message hmessage
  have hall : (olds ++ ids).Nodup := List.nodup_append.mpr ⟨holdsNodup, hnodup, fun a ha b hb heq =>
    hnew b hb ((hmem b).mp (heq ▸ ha))⟩
  have hsame : field (message.update (Dict.empty.set kChildrenIds (.list ((olds ++ ids).map .str)))) kParentId =
      field message kParentId := by
    have hne : kParentId ≠ kChildrenIds := by decide
    rw [field, field, Dict.get?_update, Dict.get?_set_of_ne _ _ hne, Dict.get?_empty, Option.none_or]
  refine ⟨_, ?_, ?_, parentOf_revise hmessage hsame, hg.revise hmessage hsame, ?_⟩
  · rw [linkChildren, hmessage]
    simp only [holds, Option.getD_some, foldl_link olds ids hall, upsert_existing hmessage, Option.map_some]
  · intro c
    rw [Dict.mem_set]
    exact ⟨fun hc => hc.elim (fun heq => heq ▸ hparent) id, Or.inr⟩
  · apply hl.revise (olds ++ ids) _ hall
    · intro c
      rw [List.mem_append, hmem]
      simp
    · intro p c hp
      simp [hp]
    · rw [Dict.get?_update, Dict.get?_set_self, Option.some_or]

theorem Linked.congr {messages : Dict Str Obj} {listed listed' : Str → Str → Prop} (hl : Linked messages listed)
    (h : ∀ p c, listed p c ↔ listed' p c) : Linked messages listed' := by
  intro id message hmessage
  obtain ⟨ids, hids, hnodup, hmem⟩ := hl id message hmessage
  exact ⟨ids, hids, hnodup, fun c => (hmem c).trans (h id c)⟩

/-- **A user message is saved, and linked from its parent.** -/
theorem tree_saveUserMessage {h h' : History} (htree : Tree h) {id : Str} {message : Obj} {now : Int}
    (hnew : id ∉ h.messages) (hnames : Names h.messages message) (hchildless : Childless message)
    (hsave : saveUserMessage h id message now = some h') : Tree h' := by
  rw [saveUserMessage] at hsave
  split at hsave
  · cases hsave
    exact htree
  rename_i hid
  obtain ⟨⟨h₁, saved⟩, hupsert, hsave⟩ := Option.bind_eq_some_iff.mp hsave
  have hroot : parentOf h.messages id = none := parentOf_of_not_mem hnew
  have hunlisted : ∀ p, ¬ IsParent (parentOf h.messages) p id := by
    intro p hp
    rw [IsParent, hroot] at hp
    cases hp
  obtain ⟨hcurrent, hmem, hparentOf, hgrown, hlinked⟩ := upsert_new_spec htree.grown htree.linked hid hnew hnames
    hchildless (fun _ => hunlisted) (fun c hc => hnew (htree.grown.parent_mem hc)) hupsert
  rcases hnames with hnone | ⟨parent, hparent, hstr⟩
  · rw [hnone] at hsave
    cases hsave
    refine ⟨hgrown, hlinked.congr fun p c => ?_, Or.inr ⟨id, (hmem id).mpr (Or.inl rfl), hcurrent⟩⟩
    rw [IsParent, IsParent, hparentOf, hnone]
    by_cases hc : c = id
    · rw [if_pos hc, hc, hroot]
      rfl
    · rw [if_neg hc]
  · have hne : parent ≠ [] := fun heq => htree.grown.named (heq ▸ hparent)
    simp only [hstr, if_neg hne] at hsave
    obtain ⟨messages, hlink, hmem', hsame, hgrown', hlinked'⟩ := linkChildren_spec hgrown hlinked
      ((hmem parent).mpr (Or.inr hparent)) (List.nodup_singleton id)
      (fun c (hc : c ∈ [id]) => List.mem_singleton.mp hc ▸ hunlisted parent) now
    rw [hlink] at hsave
    cases hsave
    refine ⟨hgrown', hlinked'.congr fun p c => ?_,
      Or.inr ⟨parent, (hmem' parent).mpr ((hmem parent).mpr (Or.inr hparent)), rfl⟩⟩
    show _ ↔ parentOf messages c = some p
    rw [hsame, hparentOf, IsParent, hstr, List.mem_singleton]
    by_cases hc : c = id
    · subst hc
      rw [if_pos rfl, hroot]
      simp [Val.text?, eq_comm]
    · rw [if_neg hc]
      simp [hc]

/-- One reply after the other, under a message that lists them all. -/
theorem replies_spec {user_message_id : Str} {now : Int} {replies : List (Str × Obj)} {h h' : History}
    {listed : Str → Str → Prop} (hg : Grown h.messages) (hl : Linked h.messages listed)
    (huser : user_message_id ∈ h.messages) (hnodup : (replies.map Prod.fst).Nodup)
    (hreplies : ∀ p ∈ replies, p.1 ≠ [] ∧ p.1 ∉ h.messages ∧ field p.2 kParentId = .str user_message_id ∧
      Childless p.2)
    (hnone : ∀ p ∈ replies, ∀ c, ¬ listed p.1 c)
    (hcurrent : h.currentId = .none ∨ ∃ id ∈ h.messages, h.currentId = .str id)
    (hsave : replies.foldlM (fun h p => (upsert_message_to_history h p.1 p.2 now).map Prod.fst) h = some h') :
    (∀ c, parentOf h'.messages c =
        if c ∈ replies.map Prod.fst then some user_message_id else parentOf h.messages c) ∧
      Grown h'.messages ∧ Linked h'.messages listed ∧
      (h'.currentId = .none ∨ ∃ id ∈ h'.messages, h'.currentId = .str id) := by
  induction replies generalizing h with
  | nil =>
    cases hsave
    exact ⟨fun c => by simp, hg, hl, hcurrent⟩
  | cons p replies ih =>
    rw [List.foldlM_cons] at hsave
    obtain ⟨_, hmap, hsave⟩ := Option.bind_eq_some_iff.mp hsave
    obtain ⟨⟨h₁, saved⟩, hupsert, rfl⟩ := Option.map_eq_some_iff.mp hmap
    obtain ⟨hid, hnew, hparent, hchildless⟩ := hreplies p List.mem_cons_self
    obtain ⟨hcurrent₁, hmem, hparentOf, hgrown, hlinked⟩ := upsert_new_spec hg hl hid hnew
      (Or.inr ⟨user_message_id, huser, hparent⟩) hchildless
      (fun hno => by rw [hparent] at hno; cases hno) (hnone p List.mem_cons_self) hupsert
    have hnot : p.1 ∉ replies.map Prod.fst := (List.nodup_cons.mp hnodup).1
    have hrest : ∀ q ∈ replies, q.1 ≠ [] ∧ q.1 ∉ h₁.messages ∧ field q.2 kParentId = .str user_message_id ∧
        Childless q.2 := by
      intro q hq
      obtain ⟨hqid, hqnew, hqparent, hqchildless⟩ := hreplies q (List.mem_cons_of_mem _ hq)
      refine ⟨hqid, fun hqmem => ?_, hqparent, hqchildless⟩
      rcases (hmem q.1).mp hqmem with heq | hold
      · exact hnot (heq ▸ List.mem_map_of_mem hq)
      · exact hqnew hold
    obtain ⟨hparentOf', hgrown', hlinked', hcurrent'⟩ := ih hgrown hlinked
      ((hmem user_message_id).mpr (Or.inr huser)) (List.nodup_cons.mp hnodup).2 hrest
      (fun q hq => hnone q (List.mem_cons_of_mem _ hq))
      (Or.inr ⟨p.1, (hmem p.1).mpr (Or.inl rfl), hcurrent₁⟩) hsave
    refine ⟨fun c => ?_, hgrown', hlinked', hcurrent'⟩
    rw [hparentOf', hparentOf, hparent, List.map_cons]
    by_cases hc : c = p.1
    · rw [if_pos hc, hc, if_neg hnot, if_pos List.mem_cons_self]
      rfl
    · have hcons : c ∈ p.1 :: replies.map Prod.fst ↔ c ∈ replies.map Prod.fst :=
        ⟨fun hmem => (List.mem_cons.mp hmem).resolve_left hc, List.mem_cons_of_mem _⟩
      simp only [if_neg hc, hcons]

/-- **Replies are linked from the message they answer, and saved.** -/
theorem tree_saveReplies {h h' : History} (htree : Tree h) {user_message_id : Str} {replies : List (Str × Obj)}
    {now : Int} (huser : user_message_id ∈ h.messages) (hnodup : (replies.map Prod.fst).Nodup)
    (hreplies : ∀ p ∈ replies, p.1 ∉ h.messages ∧ field p.2 kParentId = .str user_message_id ∧ Childless p.2)
    (hsave : saveReplies h user_message_id replies now = some h') : Tree h' := by
  have hne : user_message_id ≠ [] := fun heq => htree.grown.named (heq ▸ huser)
  rw [saveReplies] at hsave
  obtain ⟨h₁, hlink, hsave⟩ := Option.bind_eq_some_iff.mp hsave
  by_cases hempty : replies.filter (fun p => p.1 ≠ []) = []
  · rw [if_pos (Or.inr hempty)] at hlink
    rw [hempty] at hsave
    cases hlink
    cases hsave
    exact htree
  rw [if_neg (not_or.mpr ⟨hne, hempty⟩)] at hlink
  have hsub := (List.filter_sublist (l := replies) (p := fun p => p.1 ≠ [])).map Prod.fst
  have hmem : ∀ p ∈ replies.filter (fun p => p.1 ≠ []), p ∈ replies ∧ p.1 ≠ [] := fun p hp =>
    ⟨(List.mem_filter.mp hp).1, of_decide_eq_true (List.mem_filter.mp hp).2⟩
  generalize replies.filter (fun p => p.1 ≠ []) = kept at *
  have hroot : ∀ c ∈ kept.map Prod.fst, parentOf h.messages c = none := by
    intro c hc
    obtain ⟨p, hp, rfl⟩ := List.mem_map.mp hc
    exact parentOf_of_not_mem (hreplies p (hmem p hp).1).1
  obtain ⟨messages, hlink', hsameMem, hsame, hgrown, hlinked⟩ := linkChildren_spec htree.grown htree.linked huser
    (hnodup.sublist hsub) (fun c hc hp => by rw [IsParent, hroot c hc] at hp; cases hp) now
  rw [hlink'] at hlink
  cases hlink
  obtain ⟨hparentOf, hgrown', hlinked', hcurrent⟩ :=
    replies_spec (h := { h with messages, currentId := .str user_message_id })
    hgrown hlinked ((hsameMem user_message_id).mpr huser) (hnodup.sublist hsub)
    (fun p hp => by
      obtain ⟨hnew, hparent, hchildless⟩ := hreplies p (hmem p hp).1
      exact ⟨(hmem p hp).2, fun hc => hnew ((hsameMem p.1).mp hc), hparent, hchildless⟩)
    (fun p hp c hc => by
      have hnew := (hreplies p (hmem p hp).1).1
      rcases hc with hparent | ⟨heq, -⟩
      · exact hnew (htree.grown.parent_mem hparent)
      · exact hnew (heq ▸ huser))
    (Or.inr ⟨user_message_id, (hsameMem user_message_id).mpr huser, rfl⟩) hsave
  refine ⟨hgrown', hlinked'.congr fun p c => ?_, hcurrent⟩
  show _ ↔ parentOf h'.messages c = some p
  rw [hparentOf, hsame, IsParent]
  by_cases hc : c ∈ kept.map Prod.fst
  · rw [if_pos hc, hroot c hc]
    simp [hc, eq_comm]
  · rw [if_neg hc]
    simp [hc]

/-! ## Merging -/

/-- One message is added to the list of its parent. -/
theorem adopt_spec {messages : Dict Str Obj} {listed : Str → Str → Prop} (hg : Grown messages)
    (hl : Linked messages listed) {id : Str} {message : Obj} (hnames : Names messages message)
    (hnew : ∀ p, ¬ listed p id) :
    ∃ messages', adopt messages (id, message) = some messages' ∧ (∀ c, c ∈ messages' ↔ c ∈ messages) ∧
      parentOf messages' = parentOf messages ∧ Grown messages' ∧
      Linked messages' fun p c => listed p c ∨ c = id ∧ (field message kParentId).text? = some p := by
  rcases hnames with hnone | ⟨parent, hparent, hstr⟩
  · refine ⟨messages, ?_, fun _ => Iff.rfl, rfl, hg, hl.congr fun p c => ?_⟩
    · simp only [adopt, hnone, find?, Option.bind_eq_bind, Option.bind_some]
    · rw [hnone]
      simp [Val.text?]
  · obtain ⟨old, hold⟩ := Dict.mem_iff.mp hparent
    obtain ⟨ids, hids, hnodup, hmem⟩ := hl parent old hold
    have hall : (ids ++ [id]).Nodup := List.nodup_append.mpr ⟨hnodup, List.nodup_singleton id,
      fun a ha b hb heq => hnew parent ((hmem id).mp (List.mem_singleton.mp hb ▸ heq ▸ ha))⟩
    have hsame : field (old.set kChildrenIds (.list ((ids ++ [id]).map .str))) kParentId = field old kParentId := by
      have hne : kParentId ≠ kChildrenIds := by decide
      rw [field_set, if_neg hne]
    refine ⟨_, ?_, ?_, parentOf_revise hold hsame, hg.revise hold hsame, ?_⟩
    · simp only [adopt, hstr, find?, hold, Option.bind_eq_bind, Option.bind_some, field_eq hids, iterate,
        List.map_append, List.map_cons, List.map_nil]
    · intro c
      rw [Dict.mem_set]
      exact ⟨fun hc => hc.elim (fun heq => heq ▸ hparent) fun hc => hc, Or.inr⟩
    · apply hl.revise _ (Dict.get?_set_self _ _ _) hall
      · intro c
        rw [List.mem_append, hmem, List.mem_singleton, hstr]
        simp [Val.text?]
      · intro p c hp
        rw [hstr]
        simp [Val.text?, Ne.symm hp]

/-- **The lists rebuilt from the parents**, one message after the other. -/
theorem adopt_all {base : Dict Str Obj} {items : List (Str × Obj)}
    (hitems : ∀ p ∈ items, base.get? p.1 = some p.2) (hnodup : (items.map Prod.fst).Nodup)
    {messages : Dict Str Obj} {listed : Str → Str → Prop} (hg : Grown messages)
    (hsame : parentOf messages = parentOf base) (hmem : ∀ c, c ∈ messages ↔ c ∈ base) (hl : Linked messages listed)
    (hnames : ∀ p ∈ items, Names base p.2) (hnew : ∀ p ∈ items, ∀ q, ¬ listed q p.1) :
    ∃ messages', items.foldlM adopt messages = some messages' ∧ Grown messages' ∧
      parentOf messages' = parentOf base ∧ (∀ c, c ∈ messages' ↔ c ∈ base) ∧
      Linked messages' fun q c => listed q c ∨ c ∈ items.map Prod.fst ∧ parentOf base c = some q := by
  induction items generalizing messages listed with
  | nil => exact ⟨messages, rfl, hg, hsame, hmem, hl.congr fun q c => by simp⟩
  | cons p items ih =>
    obtain ⟨hnot, hrest⟩ := List.nodup_cons.mp hnodup
    obtain ⟨messages₁, hadopt, hmem₁, hsame₁, hg₁, hl₁⟩ := adopt_spec hg hl
      ((hnames p List.mem_cons_self).mono fun c hc => (hmem c).mpr hc) (hnew p List.mem_cons_self)
    have hnew₁ : ∀ r ∈ items, ∀ q, ¬ (listed q r.1 ∨ r.1 = p.1 ∧ (field p.2 kParentId).text? = some q) := by
      rintro r hr q (hlisted | ⟨heq, -⟩)
      · exact hnew r (List.mem_cons_of_mem _ hr) q hlisted
      · exact hnot (heq ▸ List.mem_map_of_mem hr)
    obtain ⟨messages', hfold, hg', hsame', hmem', hl'⟩ := ih (fun r hr => hitems r (List.mem_cons_of_mem _ hr))
      hrest hg₁ (hsame₁.trans hsame) (fun c => (hmem₁ c).trans (hmem c)) hl₁
      (fun r hr => hnames r (List.mem_cons_of_mem _ hr)) hnew₁
    refine ⟨messages', ?_, hg', hsame', hmem', hl'.congr fun q c => ?_⟩
    · rw [List.foldlM_cons, hadopt]
      exact hfold
    · rw [List.map_cons, List.mem_cons, or_assoc, or_and_right]
      have hp : c = p.1 ∧ (field p.2 kParentId).text? = some q ↔ c = p.1 ∧ parentOf base c = some q := by
        constructor
        · rintro ⟨rfl, h⟩
          exact ⟨rfl, (parentOf_eq (hitems p List.mem_cons_self)).trans h⟩
        · rintro ⟨rfl, h⟩
          exact ⟨rfl, (parentOf_eq (hitems p List.mem_cons_self)).symm.trans h⟩
      rw [hp]

/-- The messages of both, with empty lists. -/
def overlaid (existing incoming : Dict Str Obj) : Dict Str Obj :=
  (existing.update incoming).map fun _ message => message.set kChildrenIds (.list [])

theorem mem_overlaid {existing incoming : Dict Str Obj} {c : Str} :
    c ∈ overlaid existing incoming ↔ c ∈ existing ∨ c ∈ incoming := by
  rw [overlaid, Dict.mem_map, Dict.mem_update]

theorem get?_overlaid {existing incoming : Dict Str Obj} {c : Str} {message : Obj}
    (h : (overlaid existing incoming).get? c = some message) : ∃ old, message = old.set kChildrenIds (.list []) ∧
      (incoming.get? c = some old ∨ c ∉ incoming ∧ existing.get? c = some old) := by
  rw [overlaid, Dict.get?_map, Option.map_eq_some_iff] at h
  obtain ⟨old, hold, rfl⟩ := h
  refine ⟨old, rfl, ?_⟩
  rw [Dict.get?_update, Option.or_eq_some_iff] at hold
  exact hold.imp_right fun h => ⟨Dict.get?_eq_none_iff.mp h.1, h.2⟩

theorem field_setChildren (message : Obj) (v : Val) :
    field (message.set kChildrenIds v) kParentId = field message kParentId := by
  have hne : kParentId ≠ kChildrenIds := by decide
  rw [field_set, if_neg hne]

theorem parentOf_overlaid (existing incoming : Dict Str Obj) (c : Str) :
    parentOf (overlaid existing incoming) c =
      if c ∈ incoming then parentOf incoming c else parentOf existing c := by
  by_cases hall : c ∈ overlaid existing incoming
  · obtain ⟨message, hmessage⟩ := Dict.mem_iff.mp hall
    obtain ⟨old, rfl, hin | ⟨hnot, hex⟩⟩ := get?_overlaid hmessage
    · rw [parentOf_eq hmessage, field_setChildren, if_pos (Dict.mem_of_get? hin), parentOf_eq hin]
    · rw [parentOf_eq hmessage, field_setChildren, if_neg hnot, parentOf_eq hex]
  · have hboth := not_or.mp (mt mem_overlaid.mpr hall)
    rw [parentOf_of_not_mem hall, if_neg hboth.2, parentOf_of_not_mem hboth.1]

theorem grown_overlaid {existing incoming : Dict Str Obj} (hex : Grown existing) (hin : Grown incoming) :
    Grown (overlaid existing incoming) where
  named := by
    rw [mem_overlaid]
    exact not_or.mpr ⟨hex.named, hin.named⟩
  parents := by
    intro id message hmessage
    obtain ⟨old, rfl, hold | ⟨-, hold⟩⟩ := get?_overlaid hmessage
    · rw [Names, field_setChildren]
      exact (hin.parents id old hold).mono fun c hc => mem_overlaid.mpr (Or.inr hc)
    · rw [Names, field_setChildren]
      exact (hex.parents id old hold).mono fun c hc => mem_overlaid.mpr (Or.inl hc)
  rooted := by
    apply rooted_overlay (fun c => c ∈ incoming) hex.rooted hin.rooted
    · intro c p _ hp
      exact hin.parent_mem hp
    · intro c hc
      rw [parentOf_overlaid, if_pos hc]
    · intro c hc
      rw [parentOf_overlaid, if_neg hc]

/-- The current id, if it is that of a message. -/
theorem find?_current (messages : Dict Str Obj) {v : Val} (h : v = .none ∨ ∃ id, v = .str id) :
    find? messages v = some none ∨ ∃ id ∈ messages, v = .str id ∧ ∃ message, find? messages v = some (some message) := by
  rcases h with rfl | ⟨id, rfl⟩
  · exact Or.inl rfl
  · cases hget : messages.get? id with
    | none => exact Or.inl (congrArg some hget)
    | some message => exact Or.inr ⟨id, Dict.mem_of_get? hget, rfl, message, congrArg some hget⟩

/-- **Two histories that are trees are merged into one.** -/
theorem merge_spec {existing incoming : History} (hex : Tree existing) (hin : Tree incoming) :
    ∃ h', merge_history (some existing) (some incoming) = some h' ∧ Tree h' := by
  have hgrown := grown_overlaid hex.grown hin.grown
  have hempty : Linked (overlaid existing.messages incoming.messages) fun _ _ => False := by
    intro id message hmessage
    obtain ⟨old, rfl, -⟩ := get?_overlaid hmessage
    exact ⟨[], Dict.get?_set_self _ _ _, List.nodup_nil, fun c => by simp⟩
  obtain ⟨messages, hfold, hg, hsame, hmem, hl⟩ := adopt_all
    (fun p (hp : p ∈ (overlaid existing.messages incoming.messages).items) => Dict.get?_eq_some_iff.mpr hp)
      (Dict.nodup_keys _) hgrown rfl (fun _ => Iff.rfl) hempty
    (fun p hp => hgrown.parents p.1 p.2 (Dict.get?_eq_some_iff.mpr hp)) (fun _ _ _ h => h)
  have hlinked : Linked messages (IsParent (parentOf messages)) := by
    refine hl.congr fun q c => ?_
    rw [IsParent, hsame]
    constructor
    · rintro (hfalse | ⟨-, hparent⟩)
      · exact hfalse.elim
      · exact hparent
    · intro hparent
      exact Or.inr ⟨mem_of_parentOf hparent, hparent⟩
  have htext : ∀ {h : History}, Tree h → h.currentId = .none ∨ ∃ id, h.currentId = .str id := fun htree =>
    htree.current.imp_right (Exists.imp fun _ h => h.2)
  simp only [merge_history, Option.getD_some]
  rw [overlaid] at hfold
  rw [hfold]
  simp only [Option.bind_eq_bind, Option.bind_some]
  rcases find?_current messages (htext hin) with hno | ⟨id, hid, hstr, message, hfound⟩
  · rw [hno]
    rcases find?_current messages (htext hex) with hno' | ⟨id, hid, hstr, message, hfound⟩
    · rw [hno']
      exact ⟨_, rfl, hg, hlinked, Or.inl rfl⟩
    · rw [hfound]
      exact ⟨_, rfl, hg, hlinked, Or.inr ⟨id, hid, hstr⟩⟩
  · rw [hfound]
    exact ⟨_, rfl, hg, hlinked, Or.inr ⟨id, hid, hstr⟩⟩

end Chats
end MaterialOpenWebui
