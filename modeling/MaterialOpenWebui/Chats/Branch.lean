import MaterialOpenWebui.Chats.History
import MaterialOpenWebui.Lib.Forest

/-!
# `Chats.Branch` — the messages of one branch (`get_message_list` in `backend/open_webui/utils/misc.py`)

`get_message_list` follows the parents of a message up to its root. It stops at a message whose id it has seen,
at one that is not there and at an empty one. In a history that is `Whole` it meets none of these, and the list
is the lineage of the message, root first.

The walk moves by the keys of the history, but what it has seen it knows by the ids that the messages say. In any history
whatever, it returns the messages that are met up to a key that was there already if and only if the ids tell as much
(`get_message_list_iff`).
-/

namespace MaterialOpenWebui
namespace Chats
open Py Forest

/-! ## The walk -/

/-- A value that can be in a set. -/
def hashable : Val → Bool
  | .list _ => false
  | .dict _ => false
  | _ => true

/-- From a message up to its root, the message first; `none` where it raises, or does not end. -/
def walk (messages_map : Dict Str Obj) : Nat → List Val → Option Obj → Option (List Obj)
  | 0, _, _ => none
  | _ + 1, _, none => some []
  | fuel + 1, visited, some message =>
    let message_id := field message kId
    if message.items = [] then some []
    else if !hashable message_id then none
    else if visited.any (·.eq message_id) then some []
    else (parentMessage messages_map (field message kParentId)).bind fun parent =>
      (walk messages_map fuel (if message_id.isNone then visited else message_id :: visited) parent).map (message :: ·)

/-- Within so many rounds of the loop. -/
def get_message_list_within (fuel : Nat) (messages_map : Dict Str Obj) (message_id : Str) : Option (List Obj) :=
  if messages_map.items = [] then some []
  else (walk messages_map fuel [] (messages_map.get? message_id)).map List.reverse

/-- A message without an id is not seen again; one with an id that is in the circle is, in the second round at the latest. -/
def get_message_list (messages_map : Dict Str Obj) (message_id : Str) : Option (List Obj) :=
  get_message_list_within (2 * messages_map.size + 1) messages_map message_id

/-! ## Links -/

/-- The id of the parent that a message has. -/
def link (message : Obj) : Option Str :=
  if (field message kParentId).truthy then (field message kParentId).text? else none

def linkOf (messages : Dict Str Obj) (id : Str) : Option Str := (messages.get? id).bind link

/-- Every message is there with all its ancestors, under its own id if it says any. -/
structure Whole (messages : Dict Str Obj) : Prop where
  ids : ∀ id message, messages.get? id = some message →
    message.items ≠ [] ∧ (field message kId = .none ∨ field message kId = .str id)
  parents : ∀ id message, messages.get? id = some message →
    (field message kParentId).truthy = false ∨ ∃ p ∈ messages, p ≠ [] ∧ field message kParentId = .str p
  rooted : Rooted (linkOf messages)

theorem link_of_str {message : Obj} {p : Str} (h : field message kParentId = .str p) (hp : p ≠ []) :
    link message = some p := by
  rw [link, h, if_pos (by simpa [Val.truthy] using hp), Val.text?]

theorem link_of_falsy {message : Obj} (h : (field message kParentId).truthy = false) : link message = none := by
  rw [link, h, if_neg Bool.false_ne_true]

theorem linkOf_eq {messages : Dict Str Obj} {id : Str} {message : Obj} (h : messages.get? id = some message) :
    linkOf messages id = link message := by
  rw [linkOf, h, Option.bind_some]

/-- What the walk finds above a message. -/
theorem Whole.parentMessage {messages : Dict Str Obj} (hw : Whole messages) {id : Str} {message : Obj}
    (hmessage : messages.get? id = some message) :
    parentMessage messages (field message kParentId) = some ((linkOf messages id).bind messages.get?) ∧
      ∀ p, linkOf messages id = some p → p ∈ messages := by
  rw [linkOf_eq hmessage, Chats.parentMessage]
  rcases hw.parents id message hmessage with hfalsy | ⟨p, hmem, hp, hparent⟩
  · rw [link_of_falsy hfalsy, hfalsy, if_neg Bool.false_ne_true]
    exact ⟨rfl, nofun⟩
  · rw [link_of_str hparent hp, hparent, if_pos (by simpa [Val.truthy] using hp)]
    refine ⟨rfl, fun q hq => ?_⟩
    cases hq
    exact hmem

theorem Whole.mem_of_linkOf {messages : Dict Str Obj} (hw : Whole messages) {id p : Str}
    (h : linkOf messages id = some p) : p ∈ messages := by
  obtain ⟨message, hmessage, -⟩ := Option.bind_eq_some_iff.mp h
  exact (hw.parentMessage hmessage).2 p h

/-! ## The branch of a message -/

/-- The message under an id that is there. -/
def messageAt (messages : Dict Str Obj) (id : Str) : Obj := (messages.get? id).getD .empty

/-- One message of the walk, if it has not been seen. -/
theorem walk_step {messages : Dict Str Obj} (hw : Whole messages) {id : Str} {message : Obj}
    (hmessage : messages.get? id = some message) (fuel : Nat) {visited : List Val}
    (hvisited : ∀ v ∈ visited, ∃ a, v = .str a ∧ a ≠ id) :
    ∃ visited', (∀ v ∈ visited', v ∈ visited ∨ v = .str id) ∧
      walk messages (fuel + 1) visited (some message) =
        (walk messages fuel visited' ((linkOf messages id).bind messages.get?)).map (message :: ·) := by
  obtain ⟨hne, hid⟩ := hw.ids id message hmessage
  obtain ⟨hparent, -⟩ := hw.parentMessage hmessage
  have hhash : hashable (field message kId) = true := by
    rcases hid with hid | hid <;> rw [hid] <;> rfl
  have hunseen : visited.any (·.eq (field message kId)) = false := by
    rw [List.any_eq_false]
    intro v hv
    obtain ⟨a, rfl, ha⟩ := hvisited v hv
    rcases hid with hid | hid <;> rw [hid, Val.eq]
    · exact Bool.false_ne_true
    · simpa [Val.text?] using fun heq => ha heq.symm
  refine ⟨if (field message kId).isNone then visited else field message kId :: visited, ?_, ?_⟩
  · intro v hv
    split at hv
    · exact Or.inl hv
    · rename_i hsome
      have hstr : field message kId = .str id := hid.resolve_left fun hnone => hsome (by rw [hnone]; rfl)
      rw [hstr, List.mem_cons] at hv
      exact hv.symm
  · rw [walk]
    simp only [if_neg hne, hhash, Bool.not_true, Bool.false_eq_true, if_false, hunseen, hparent, Option.bind_some]

/-- **The walk is the lineage**, if it has seen none of it. -/
theorem walk_lineage {messages : Dict Str Obj} (hw : Whole messages) {id : Str} {l : List Str}
    (hl : Lineage (linkOf messages) id l) (hmem : id ∈ messages) {fuel : Nat} (hfuel : l.length < fuel)
    {visited : List Val} (hvisited : ∀ v ∈ visited, ∃ a, v = .str a ∧ a ∉ l) :
    walk messages fuel visited (messages.get? id) = some (l.map (messageAt messages)) := by
  induction hl generalizing fuel visited with
  | @root x hroot =>
    obtain ⟨message, hmessage⟩ := Dict.mem_iff.mp hmem
    obtain ⟨fuel, rfl⟩ : ∃ n, fuel = n + 2 := ⟨fuel - 2, by simp at hfuel; omega⟩
    have hunseen : ∀ v ∈ visited, ∃ a, v = .str a ∧ a ≠ x := fun v hv => by
      obtain ⟨a, ha, hnot⟩ := hvisited v hv
      exact ⟨a, ha, fun heq => hnot (by rw [heq]; exact List.mem_singleton_self x)⟩
    obtain ⟨visited', -, hstep⟩ := walk_step hw hmessage (fuel + 1) hunseen
    rw [hmessage, hstep, hroot, Option.bind_none, walk, Option.map_some, List.map_singleton, messageAt, hmessage,
      Option.getD_some]
  | @step x p l hp hl ih =>
    obtain ⟨message, hmessage⟩ := Dict.mem_iff.mp hmem
    obtain ⟨fuel, rfl⟩ : ∃ n, fuel = n + 1 := ⟨fuel - 1, by omega⟩
    have hnodup := List.nodup_cons.mp (Lineage.step hp hl).nodup
    have hunseen : ∀ v ∈ visited, ∃ a, v = .str a ∧ a ≠ x := fun v hv => by
      obtain ⟨a, ha, hnot⟩ := hvisited v hv
      exact ⟨a, ha, fun heq => hnot (by rw [heq]; exact List.mem_cons_self)⟩
    obtain ⟨visited', hvisited', hstep⟩ := walk_step hw hmessage fuel hunseen
    have hrest : ∀ v ∈ visited', ∃ a, v = .str a ∧ a ∉ l := by
      intro v hv
      rcases hvisited' v hv with hv | rfl
      · obtain ⟨a, ha, hnot⟩ := hvisited v hv
        exact ⟨a, ha, fun hmem => hnot (List.mem_cons_of_mem _ hmem)⟩
      · exact ⟨x, rfl, hnodup.1⟩
    have hparent := (hw.parentMessage hmessage).2 p hp
    have htail := ih hparent (by simp at hfuel; omega) hrest
    rw [hmessage, hstep, hp, Option.bind_some, htail, Option.map_some, List.map_cons, messageAt, hmessage,
      Option.getD_some]

/-- The messages of a lineage are there. -/
theorem Whole.mem_of_lineage {messages : Dict Str Obj} (hw : Whole messages) {id : Str} {l : List Str}
    (hl : Lineage (linkOf messages) id l) (hmem : id ∈ messages) : ∀ a ∈ l, a ∈ messages := by
  induction hl with
  | root =>
    intro a ha
    rw [List.mem_singleton.mp ha]
    exact hmem
  | @step x p l hp _ ih =>
    obtain ⟨message, hmessage⟩ := Dict.mem_iff.mp hmem
    intro a ha
    rcases List.mem_cons.mp ha with rfl | ha
    · exact hmem
    · exact ih ((hw.parentMessage hmessage).2 p hp) a ha

/-- **The branch of a message** is its lineage, root first. -/
theorem get_message_list_lineage {messages : Dict Str Obj} (hw : Whole messages) {id : Str} {l : List Str}
    (hl : Lineage (linkOf messages) id l) (hmem : id ∈ messages) :
    get_message_list messages id = some (l.reverse.map (messageAt messages)) := by
  have hne : messages.items ≠ [] := by
    intro hempty
    have hkeys : messages.keys = [] := by rw [Dict.keys, hempty, List.map_nil]
    rw [Dict.mem_iff_mem_keys, hkeys] at hmem
    cases hmem
  have hlength : l.length ≤ messages.size := by
    have hle := hl.length_le messages.keys (hw.mem_of_lineage hl hmem)
    rwa [Dict.keys, List.length_map] at hle
  rw [get_message_list, get_message_list_within, if_neg hne, walk_lineage hw hl hmem (by omega) (by simp), Option.map_some,
    List.map_reverse]

/-! ## Any history -/

/-- The keys that are met from `start` upwards, those in `seen` aside, until there is no parent, or none of that key, or one
    that was met; and at which key it stops. -/
inductive Met (messages : Dict Str Obj) : List Str → Option Str → List Str → Option Str → Prop where
  | root {seen : List Str} : Met messages seen none [] none
  | missing {seen : List Str} {k : Str} (h : k ∉ messages) : Met messages seen (some k) [] (some k)
  | again {seen : List Str} {k : Str} (h : k ∈ seen) : Met messages seen (some k) [] (some k)
  | step {seen : List Str} {k : Str} {l : List Str} {stop : Option Str} (h : k ∈ messages) (hnew : k ∉ seen)
      (hrest : Met messages (k :: seen) (linkOf messages k) l stop) : Met messages seen (some k) (k :: l) stop

/-- The id that the message under a key says. -/
def idAt (messages : Dict Str Obj) (k : Str) : Val := field (messageAt messages k) kId

/-- The walk can go on at a message: it is not empty, its id can be in a set, and its parent can be looked up. -/
structure Passable (messages : Dict Str Obj) (k : Str) : Prop where
  filled : (messageAt messages k).items ≠ []
  hashed : hashable (idAt messages k) = true
  parent : (parentMessage messages (field (messageAt messages k) kParentId)).isSome = true

/-- The ids tell the messages that are met apart, and tell the one at which it stops. -/
structure Told (messages : Dict Str Obj) (l : List Str) (stop : Option Str) : Prop where
  passable : ∀ k ∈ l, Passable messages k
  distinct : l.Pairwise fun a b => (idAt messages a).isNone = true ∨ (idAt messages a).eq (idAt messages b) = false
  closed : ∀ k, stop = some k → k ∈ messages → (idAt messages k).isNone = false

/-- What the walk has noted of the keys that were met. -/
def noted (messages : Dict Str Obj) (seen : List Str) : List Val := (seen.map (idAt messages)).filter fun v => !v.isNone

theorem noted_cons (messages : Dict Str Obj) (k : Str) (seen : List Str) : noted messages (k :: seen) =
    if (idAt messages k).isNone then noted messages seen else idAt messages k :: noted messages seen := by
  rw [noted, List.map_cons, List.filter_cons]
  cases (idAt messages k).isNone <;> rfl

theorem not_noted_iff {messages : Dict Str Obj} {seen : List Str} {v : Val} : (noted messages seen).any (·.eq v) = false ↔
    ∀ a ∈ seen, (idAt messages a).isNone = true ∨ (idAt messages a).eq v = false := by
  rw [noted, List.any_eq_false]
  constructor
  · intro h a ha
    cases hnone : (idAt messages a).isNone with
    | true => exact Or.inl rfl
    | false =>
      have hmem : idAt messages a ∈ (seen.map (idAt messages)).filter fun v => !v.isNone :=
        List.mem_filter.mpr ⟨List.mem_map_of_mem ha, by rw [hnone]; rfl⟩
      exact Or.inr (Bool.eq_false_iff.mpr (h _ hmem))
  · intro h w hw
    obtain ⟨hw, hsome⟩ := List.mem_filter.mp hw
    obtain ⟨a, ha, rfl⟩ := List.mem_map.mp hw
    rw [Bool.not_eq_true'] at hsome
    exact Bool.eq_false_iff.mp ((h a ha).resolve_left (by rw [hsome]; exact Bool.false_ne_true))

theorem eq_none_of_isNone_false {v w : Val} (hv : v.isNone = false) (hw : w.isNone = true) : v.eq w = false := by
  have hnone : w = .none := by
    cases w with
    | none => rfl
    | _ => cases hw
  rw [hnone]
  cases v with
  | none => cases hv
  | _ =>
    rw [Val.eq]
    first | rfl | (intros; contradiction)

theorem get?_messageAt {messages : Dict Str Obj} {k : Str} (h : k ∈ messages) :
    messages.get? k = some (messageAt messages k) := by
  obtain ⟨message, hmessage⟩ := Dict.mem_iff.mp h
  rw [messageAt, hmessage, Option.getD_some]

/-- What the walk finds above a message, if it can look. -/
theorem parentMessage_eq {messages : Dict Str Obj} {k : Str} (hmem : k ∈ messages)
    (h : (parentMessage messages (field (messageAt messages k) kParentId)).isSome = true) :
    parentMessage messages (field (messageAt messages k) kParentId) = some ((linkOf messages k).bind messages.get?) := by
  rw [linkOf_eq (get?_messageAt hmem), link]
  rw [parentMessage] at h ⊢
  by_cases htruthy : (field (messageAt messages k) kParentId).truthy = true
  · rw [if_pos htruthy] at h ⊢
    rw [if_pos htruthy]
    cases hparent : field (messageAt messages k) kParentId with
    | list vs =>
      rw [hparent] at h
      cases h
    | dict items =>
      rw [hparent] at h
      cases h
    | _ => rfl
  · rw [if_neg htruthy, if_neg htruthy]
    rfl

/-- One round of the loop. -/
theorem walk_round {messages : Dict Str Obj} {k : Str} (hmem : k ∈ messages) (fuel : Nat) (visited : List Val) :
    walk messages (fuel + 1) visited (messages.get? k) =
      if (messageAt messages k).items = [] then some []
      else if !hashable (idAt messages k) then none
      else if visited.any (·.eq (idAt messages k)) then some []
      else (parentMessage messages (field (messageAt messages k) kParentId)).bind fun parent =>
        (walk messages fuel (if (idAt messages k).isNone then visited else idAt messages k :: visited) parent).map
          (messageAt messages k :: ·) := by
  rw [get?_messageAt hmem, walk]
  rfl

/-- **One more message** is returned, and the rest, exactly if the walk can go on at it and has not noted its id. -/
theorem walk_cons_iff {messages : Dict Str Obj} {k : Str} (hmem : k ∈ messages) (seen : List Str) (rest : List Obj) :
    (∃ fuel, walk messages fuel (noted messages seen) (messages.get? k) = some (messageAt messages k :: rest)) ↔
      Passable messages k ∧ (noted messages seen).any (·.eq (idAt messages k)) = false ∧
        ∃ fuel, walk messages fuel (noted messages (k :: seen)) ((linkOf messages k).bind messages.get?) = some rest := by
  constructor
  · rintro ⟨fuel, hwalk⟩
    cases fuel with
    | zero => cases hwalk
    | succ fuel =>
      rw [walk_round hmem] at hwalk
      by_cases hfilled : (messageAt messages k).items = []
      · rw [if_pos hfilled] at hwalk
        cases hwalk
      · rw [if_neg hfilled] at hwalk
        cases hhashed : hashable (idAt messages k) with
        | false =>
          rw [hhashed] at hwalk
          cases hwalk
        | true =>
          rw [hhashed, Bool.not_true, if_neg Bool.false_ne_true] at hwalk
          cases hnoted : (noted messages seen).any (·.eq (idAt messages k)) with
          | true =>
            rw [hnoted, if_pos rfl] at hwalk
            cases hwalk
          | false =>
            rw [hnoted, if_neg Bool.false_ne_true] at hwalk
            obtain ⟨parent, hparent, hrest⟩ := Option.bind_eq_some_iff.mp hwalk
            have hpassable : Passable messages k := ⟨hfilled, hhashed, by rw [hparent]; rfl⟩
            rw [parentMessage_eq hmem hpassable.parent] at hparent
            obtain ⟨rest', hrest', heq⟩ := Option.map_eq_some_iff.mp hrest
            rw [← noted_cons, ← Option.some.inj hparent] at hrest'
            exact ⟨hpassable, rfl, fuel, hrest'.trans (congrArg some (List.cons.inj heq).2)⟩
  · rintro ⟨hpassable, hnoted, fuel, hrest⟩
    refine ⟨fuel + 1, ?_⟩
    rw [walk_round hmem, if_neg hpassable.filled, hpassable.hashed, Bool.not_true, if_neg Bool.false_ne_true, hnoted,
      if_neg Bool.false_ne_true, parentMessage_eq hmem hpassable.parent, Option.bind_some, ← noted_cons, hrest]
    rfl

/-- **The walk stops** at a message exactly if it has noted its id. -/
theorem walk_nil_iff {messages : Dict Str Obj} {k : Str} (hmem : k ∈ messages) (hpassable : Passable messages k)
    (seen : List Str) : (∃ fuel, walk messages fuel (noted messages seen) (messages.get? k) = some []) ↔
      (noted messages seen).any (·.eq (idAt messages k)) = true := by
  have hround : ∀ fuel, walk messages (fuel + 1) (noted messages seen) (messages.get? k) =
      if (noted messages seen).any (·.eq (idAt messages k)) then some []
      else (parentMessage messages (field (messageAt messages k) kParentId)).bind fun parent =>
        (walk messages fuel (if (idAt messages k).isNone then noted messages seen else idAt messages k :: noted messages seen)
          parent).map (messageAt messages k :: ·) := by
    intro fuel
    rw [walk_round hmem, if_neg hpassable.filled, hpassable.hashed, Bool.not_true, if_neg Bool.false_ne_true]
  constructor
  · rintro ⟨fuel, hwalk⟩
    cases fuel with
    | zero => cases hwalk
    | succ fuel =>
      rw [hround] at hwalk
      by_contra hnoted
      rw [if_neg hnoted] at hwalk
      obtain ⟨parent, -, hrest⟩ := Option.bind_eq_some_iff.mp hwalk
      obtain ⟨rest, -, heq⟩ := Option.map_eq_some_iff.mp hrest
      cases heq
  · intro hnoted
    exact ⟨1, by rw [hround, if_pos hnoted]⟩

/-- The walk, from where it has met what is in `seen`. -/
theorem walk_iff {messages : Dict Str Obj} {seen l : List Str} {start stop : Option Str}
    (h : Met messages seen start l stop) (hseen : ∀ k ∈ seen, k ∈ messages ∧ Passable messages k) :
    (∃ fuel, walk messages fuel (noted messages seen) (start.bind messages.get?) = some (l.map (messageAt messages))) ↔
      Told messages l stop ∧
        ∀ a ∈ seen, ∀ b ∈ l, (idAt messages a).isNone = true ∨ (idAt messages a).eq (idAt messages b) = false := by
  induction h with
  | root =>
    refine iff_of_true ⟨1, rfl⟩ ⟨⟨nofun, .nil, nofun⟩, nofun⟩
  | @missing seen k hmem =>
    have hnone : messages.get? k = none := Dict.get?_eq_none_iff.mpr hmem
    refine iff_of_true ⟨1, ?_⟩ ⟨⟨nofun, .nil, ?_⟩, nofun⟩
    · rw [Option.bind_some, hnone]
      rfl
    · intro k' hk' hmem'
      cases hk'
      exact absurd hmem' hmem
  | @again seen k hk =>
    obtain ⟨hmem, hpassable⟩ := hseen k hk
    rw [Option.bind_some, List.map_nil, walk_nil_iff hmem hpassable]
    constructor
    · intro hnoted
      refine ⟨⟨nofun, .nil, ?_⟩, nofun⟩
      intro k' hk' _
      cases hk'
      by_contra hnone
      -- without an id it is in no set
      have hunseen : (noted messages seen).any (·.eq (idAt messages k)) = false := by
        rw [not_noted_iff]
        intro a _
        cases ha : (idAt messages a).isNone with
        | true => exact Or.inl rfl
        | false => exact Or.inr (eq_none_of_isNone_false ha ((Bool.not_eq_false _).mp hnone))
      rw [hunseen] at hnoted
      cases hnoted
    · rintro ⟨htold, -⟩
      have hsome := htold.closed k rfl hmem
      refine List.any_eq_true.mpr ⟨idAt messages k, ?_, Val.eq_refl _⟩
      exact List.mem_filter.mpr ⟨List.mem_map_of_mem hk, by rw [hsome]; rfl⟩
  | @step seen k l stop hmem hnew hrest ih =>
    rw [Option.bind_some, List.map_cons, walk_cons_iff hmem, not_noted_iff]
    constructor
    · rintro ⟨hpassable, hunseen, hwalk⟩
      obtain ⟨htold, happart⟩ := (ih (List.forall_mem_cons.mpr ⟨⟨hmem, hpassable⟩, hseen⟩)).mp hwalk
      obtain ⟨hk, happart⟩ := List.forall_mem_cons.mp happart
      refine ⟨⟨List.forall_mem_cons.mpr ⟨hpassable, htold.passable⟩, .cons hk htold.distinct, htold.closed⟩, ?_⟩
      intro a ha
      exact List.forall_mem_cons.mpr ⟨hunseen a ha, happart a ha⟩
    · rintro ⟨htold, happart⟩
      obtain ⟨hpassable, hpassables⟩ := List.forall_mem_cons.mp htold.passable
      obtain ⟨hk, hdistinct⟩ := List.pairwise_cons.mp htold.distinct
      refine ⟨hpassable, fun a ha => happart a ha k List.mem_cons_self, ?_⟩
      apply (ih (List.forall_mem_cons.mpr ⟨⟨hmem, hpassable⟩, hseen⟩)).mpr
      refine ⟨⟨hpassables, hdistinct, htold.closed⟩, List.forall_mem_cons.mpr ⟨hk, ?_⟩⟩
      exact fun a ha b hb => happart a ha b (List.mem_cons_of_mem _ hb)

/-- **The messages that are met** are returned, root first, if and only if their ids tell them apart, and tell the one at
    which the walk stops. -/
theorem get_message_list_iff {messages : Dict Str Obj} {id : Str} (hmem : id ∈ messages) {l : List Str} {stop : Option Str}
    (h : Met messages [] (some id) l stop) :
    (∃ fuel, get_message_list_within fuel messages id = some (l.reverse.map (messageAt messages))) ↔
      Told messages l stop := by
  have hne : messages.items ≠ [] := by
    intro hempty
    rw [Dict.mem_iff_mem_keys, Dict.keys, hempty] at hmem
    cases hmem
  have hwithin : ∀ fuel, get_message_list_within fuel messages id = some (l.reverse.map (messageAt messages)) ↔
      walk messages fuel [] (messages.get? id) = some (l.map (messageAt messages)) := by
    intro fuel
    rw [get_message_list_within, if_neg hne, List.map_reverse]
    cases walk messages fuel [] (messages.get? id) with
    | none => simp
    | some found => rw [Option.map_some, Option.some_inj, Option.some_inj, List.reverse_inj]
  have hwalk := walk_iff h (List.forall_mem_nil _)
  constructor
  · rintro ⟨fuel, hfuel⟩
    exact (hwalk.mp ⟨fuel, (hwithin fuel).mp hfuel⟩).1
  · intro htold
    obtain ⟨fuel, hfuel⟩ := hwalk.mpr ⟨htold, List.forall_mem_nil _⟩
    exact ⟨fuel, (hwithin fuel).mpr hfuel⟩

/-- A message, and the reply to it under another key than it says. -/
def misfiled : Dict Str Obj :=
  Dict.ofList [(py "a", Dict.ofList [(kId, .str (py "a"))]),
    (py "b", Dict.ofList [(kId, .str (py "x")), (kParentId, .str (py "a"))])]

/-- From the reply, both are returned. -/
theorem get_message_list_iff_misfiled :
    (∃ fuel, get_message_list_within fuel misfiled (py "b") =
        some [messageAt misfiled (py "a"), messageAt misfiled (py "b")]) ↔
      Told misfiled [py "b", py "a"] none := by
  have hmet : Met misfiled [] (some (py "b")) [py "b", py "a"] none :=
    .step (by decide) (by decide) (.step (by decide) (by decide) .root)
  exact get_message_list_iff (by decide) hmet

/-- A message that says no id and is its own parent. -/
def endless : Dict Str Obj := Dict.ofList [(py "a", Dict.ofList [(kParentId, .str (py "a"))])]

/-- **The walk does not end** at a message without an id that is above itself. -/
theorem endless_walk : ¬∀ (messages : Dict Str Obj) (id : Str), id ∈ messages → ∀ (l : List Str) (stop : Option Str),
    Met messages [] (some id) l stop →
      ∃ fuel, get_message_list_within fuel messages id = some (l.reverse.map (messageAt messages)) := by
  intro h
  have hmet : Met endless [] (some (py "a")) [py "a"] (some (py "a")) :=
    .step (by decide) (by decide) (.again (by decide))
  obtain ⟨fuel, hfuel⟩ := h endless (py "a") (by decide) _ _ hmet
  have hnone : ∀ fuel, walk endless fuel [] (endless.get? (py "a")) = none := by
    intro fuel
    induction fuel with
    | zero => rfl
    | succ fuel ih =>
      rw [walk_round (by decide)]
      show (walk endless fuel [] (endless.get? (py "a"))).map _ = none
      rw [ih]
      rfl
  rw [get_message_list_within, hnone] at hfuel
  cases hfuel

end Chats
end MaterialOpenWebui
