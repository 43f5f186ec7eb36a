import MaterialOpenWebui.Chats.Branch

/-!
# `Chats.Fork` — a chat that starts as one branch of another (`backend/open_webui/utils/chat_fork.py`)

`build_fork_history` follows the parents of a message, in a map that anyone may have written, and rebuilds the branch from
its root: each message is copied, gets the id it was found under, and is linked to the one before. The copies are what the
new chat holds, and also what is returned in order.

Messages are objects: the map and the branch hold references to them, and a copy is a new object. So that the messages of the
original are what they were is a statement about the objects (`IsFork.untouched`).
-/

namespace MaterialOpenWebui
namespace Fork
open Py Chats Forest

/-! ## Objects -/

/-- What a map of messages holds: a dictionary, among the first `n` objects, or something else. -/
inductive Item (n : Nat) where
  | message (r : Fin n)
  | other

/-- A map of messages, with the objects there are. -/
structure Source where
  heap : List Obj
  messages_map : Dict Str (Item heap.length)

inductive Raised where
  | ValueError (text : Str)
  | TypeError
  | KeyError

/-- The copies made so far. -/
structure Copies where
  heap : List Obj
  fork_messages : Dict Str Nat
  ordered_messages : List Nat
  parent_id : Option Str

/-- What `build_fork_history` returns, with the objects there are then. -/
structure Forked where
  heap : List Obj
  messages : Dict Str Nat
  currentId : Str
  ordered_messages : List Nat

/-! ## The fork -/

/-- `messages_map.get(message_id)`, if it is a dictionary, with the key it is under. -/
def Source.find (s : Source) : Val → Option (Str × Fin s.heap.length)
  | .str id =>
    match s.messages_map.get? id with
    | some (.message r) => some (id, r)
    | _ => none
  | _ => none

/-- The loop up to the root. -/
def collect (s : Source) : Nat → List Val → Val → Option (Except Raised (List (Str × Fin s.heap.length)))
  | 0, _, _ => none
  | fuel + 1, seen, message_id =>
    if !message_id.truthy then some (.ok [])
    else if !hashable message_id then some (.error .TypeError)
    else if seen.any (·.eq message_id) then some (.error (.ValueError (py "message branch contains a cycle")))
    else
      match s.find message_id with
      | none => some (.error (.ValueError (py "message not found")))
      | some p =>
        (collect s fuel (message_id :: seen) (field (s.heap.get p.2) kParentId)).map fun branch => branch.map (p :: ·)

/-- One turn of the loop down again. -/
def copyMessage (c : Copies) (p : Str × Nat) : Except Raised Copies :=
  let message := (c.heap[p.2]?).getD .empty
  let copied := ((message.set kId (.str p.1)).set kParentId (c.parent_id.elim .none .str)).set kChildrenIds (.list [])
  let heap := c.heap ++ [copied]
  let next (heap : List Obj) : Copies :=
    ⟨heap, c.fork_messages.set p.1 c.heap.length, c.ordered_messages ++ [c.heap.length], some p.1⟩
  match c.parent_id with
  | none => .ok (next heap)
  | some parent_id =>
    if parent_id = [] then .ok (next heap)
    else
      match c.fork_messages.get? parent_id with
      | none => .error .KeyError
      | some r => .ok (next (heap.modify r fun parent => parent.set kChildrenIds (.list [.str p.1])))

def copyEach (c : Copies) (branch : List (Str × Nat)) : Except Raised Copies := branch.foldlM copyMessage c

def build_fork_history (s : Source) (source_message_id : Str) : Option (Except Raised Forked) :=
  if s.messages_map.items = [] then some (.error (.ValueError (py "chat has no messages to fork")))
  else
    (collect s (s.messages_map.size + 1) [] (.str source_message_id)).map fun branch => do
      let branch ← branch
      let c ← copyEach ⟨s.heap, .empty, [], none⟩ (branch.reverse.map fun p => (p.1, p.2.val))
      .ok ⟨c.heap, c.fork_messages, source_message_id, c.ordered_messages⟩

/-! ## The branch -/

/-- The parent that the message under an id names. -/
def Source.parentOf (s : Source) (id : Str) : Option Str := (s.find (.str id)).bind fun p => link (s.heap.get p.2)

/-- A message is under the id, and what it says of its parent is the id of one, or nothing. -/
def Source.There (s : Source) (id : Str) : Prop :=
  ∃ p, s.find (.str id) = some p ∧ ((field (s.heap.get p.2) kParentId).truthy = false ∨
    ∃ a, a ≠ [] ∧ field (s.heap.get p.2) kParentId = .str a)

/-- The chain of parents from a message is all there, and comes back to none of its messages. -/
structure Unbroken (s : Source) (id : Str) : Prop where
  complete : ∀ a, a = id ∨ Ancestor s.parentOf a id → s.There a
  acyclic : ∀ a, a = id ∨ Ancestor s.parentOf a id → ¬ Ancestor s.parentOf a a

theorem find_str {s : Source} {id : Str} {p : Str × Fin s.heap.length} (h : s.find (.str id) = some p) :
    p.1 = id ∧ id ∈ s.messages_map := by
  cases hget : s.messages_map.get? id with
  | none =>
    simp only [Source.find, hget] at h
    cases h
  | some item =>
    refine ⟨?_, Dict.mem_of_get? hget⟩
    cases item with
    | message r =>
      simp only [Source.find, hget, Option.some.injEq] at h
      rw [← h]
    | other =>
      simp only [Source.find, hget] at h
      cases h

theorem Source.There.mem {s : Source} {id : Str} (h : s.There id) : id ∈ s.messages_map := by
  obtain ⟨p, hp, -⟩ := h
  exact (find_str hp).2

/-- A chain is unbroken if it comes to an end, over messages that are there. -/
theorem unbroken_iff {s : Source} {id : Str} :
    Unbroken s id ↔ ∃ l, Lineage s.parentOf id l ∧ ∀ a ∈ l, s.There a := by
  constructor
  · intro h
    obtain ⟨l, hl⟩ := exists_lineage s.messages_map.keys (fun a ha => (h.complete a ha).mem) h.acyclic
    exact ⟨l, hl, fun a ha => h.complete a (hl.mem_iff.mp ha)⟩
  · rintro ⟨l, hl, hthere⟩
    refine ⟨fun a ha => hthere a (hl.mem_iff.mpr ha), ?_⟩
    intro a ha
    obtain ⟨front, back, -, hback⟩ := hl.suffix (hl.mem_iff.mpr ha)
    exact hback.irrefl

/-- What the loop goes on with after a message that is there. -/
theorem parentOf_cases {s : Source} {id : Str} {p : Str × Fin s.heap.length} (hp : s.find (.str id) = some p)
    (h : s.There id) :
    s.parentOf id = none ∧ (field (s.heap.get p.2) kParentId).truthy = false ∨
      ∃ a, a ≠ [] ∧ s.parentOf id = some a ∧ field (s.heap.get p.2) kParentId = .str a := by
  obtain ⟨q, hq, hparent⟩ := h
  cases hp.symm.trans hq
  rw [Source.parentOf, hp, Option.bind_some]
  rcases hparent with hfalsy | ⟨a, ha, hstr⟩
  · exact .inl ⟨link_of_falsy hfalsy, hfalsy⟩
  · exact .inr ⟨a, ha, link_of_str hstr ha, hstr⟩

theorem str_truthy {x : Str} (h : x ≠ []) : (Val.str x).truthy = true := decide_eq_true h

theorem str_eq_str (a b : Str) : (Val.str a).eq (.str b) = decide (a = b) := by
  rw [Val.eq, Val.text?, Bool.eq_iff_iff, beq_iff_eq, Option.some.injEq, decide_eq_true_iff, eq_comm]

theorem collect_falsy (s : Source) (fuel : Nat) (seen : List Val) {v : Val} (h : v.truthy = false) :
    collect s (fuel + 1) seen v = some (.ok []) := by
  rw [collect, h]
  rfl

/-- A message that is there, and has not been seen. -/
theorem collect_there {s : Source} {x : Str} {p : Str × Fin s.heap.length} (hx : x ≠ []) (hp : s.find (.str x) = some p)
    (fuel : Nat) {seen : List Val} (hseen : ∀ v ∈ seen, ∃ a, v = .str a ∧ a ≠ x) :
    collect s (fuel + 1) seen (.str x) = (collect s fuel (.str x :: seen) (field (s.heap.get p.2) kParentId)).map
      fun branch => branch.map (p :: ·) := by
  have hnew : seen.any (·.eq (.str x)) = false := by
    rw [List.any_eq_false]
    intro v hv
    obtain ⟨a, rfl, ha⟩ := hseen v hv
    rw [str_eq_str]
    simpa using ha
  rw [collect, str_truthy hx, hnew, hp]
  rfl

/-- **An unbroken branch is collected.** -/
theorem collect_lineage {s : Source} {x : Str} {l : List Str} (hl : Lineage s.parentOf x l) (hx : x ≠ [])
    (hthere : ∀ a ∈ l, s.There a) {fuel : Nat} (hfuel : l.length < fuel) {seen : List Val}
    (hseen : ∀ v ∈ seen, ∃ a, v = .str a ∧ a ∉ l) : ∃ branch, collect s fuel seen (.str x) = some (.ok branch) := by
  induction hl generalizing fuel seen with
  | @root x hroot =>
    obtain ⟨fuel, rfl⟩ := Nat.exists_eq_add_of_lt hfuel
    rw [List.length_singleton, Nat.add_comm 1, Nat.add_assoc]
    have hself := hthere x (List.mem_singleton_self x)
    obtain ⟨p, hp, -⟩ := id hself
    have hunseen : ∀ v ∈ seen, ∃ a, v = .str a ∧ a ≠ x := by
      intro v hv
      obtain ⟨a, ha, hnot⟩ := hseen v hv
      exact ⟨a, ha, fun heq => hnot (heq ▸ List.mem_singleton_self x)⟩
    rcases parentOf_cases hp hself with ⟨-, hfalsy⟩ | ⟨a, -, hsome, -⟩
    · rw [collect_there hx hp _ hunseen, collect_falsy s fuel _ hfalsy]
      exact ⟨[p], rfl⟩
    · rw [hroot] at hsome
      cases hsome
  | @step x y l hy hl ih =>
    obtain ⟨fuel, rfl⟩ := Nat.exists_eq_add_one.mpr (Nat.zero_lt_of_lt hfuel)
    have hself := hthere x List.mem_cons_self
    obtain ⟨p, hp, -⟩ := id hself
    have hnodup := List.nodup_cons.mp (Lineage.step hy hl).nodup
    have hunseen : ∀ v ∈ seen, ∃ a, v = .str a ∧ a ≠ x := by
      intro v hv
      obtain ⟨a, ha, hnot⟩ := hseen v hv
      exact ⟨a, ha, fun heq => hnot (heq ▸ List.mem_cons_self)⟩
    have hrest : ∀ v ∈ Val.str x :: seen, ∃ a, v = .str a ∧ a ∉ l := by
      intro v hv
      rcases List.mem_cons.mp hv with rfl | hv
      · exact ⟨x, rfl, hnodup.1⟩
      · obtain ⟨a, ha, hnot⟩ := hseen v hv
        exact ⟨a, ha, fun hmem => hnot (List.mem_cons_of_mem _ hmem)⟩
    rcases parentOf_cases hp hself with ⟨hnone, -⟩ | ⟨a, ha, hsome, hstr⟩
    · rw [hy] at hnone
      cases hnone
    · cases hy.symm.trans hsome
      have hlength : l.length < fuel := Nat.lt_of_succ_lt_succ hfuel
      obtain ⟨branch, hbranch⟩ := ih ha (fun b hb => hthere b (List.mem_cons_of_mem _ hb)) hlength hrest
      rw [collect_there hx hp _ hunseen, hstr, hbranch]
      exact ⟨p :: branch, rfl⟩

/-- What has been collected, one message at a time. -/
theorem collect_ok {s : Source} {fuel : Nat} {seen : List Val} {v : Val} {branch : List (Str × Fin s.heap.length)}
    (h : collect s (fuel + 1) seen v = some (.ok branch)) :
    v.truthy = false ∧ branch = [] ∨
      v.truthy = true ∧ ∃ p rest, s.find v = some p ∧ branch = p :: rest ∧
        collect s fuel (v :: seen) (field (s.heap.get p.2) kParentId) = some (.ok rest) := by
  rw [collect] at h
  cases htruthy : v.truthy with
  | false =>
    rw [htruthy] at h
    cases h
    exact .inl ⟨rfl, rfl⟩
  | true =>
    rw [htruthy] at h
    refine .inr ⟨rfl, ?_⟩
    simp only [Bool.not_true, Bool.false_eq_true, if_false] at h
    split at h
    · cases h
    · split at h
      · cases h
      · cases hfind : s.find v with
        | none =>
          rw [hfind] at h
          cases h
        | some p =>
          rw [hfind] at h
          obtain ⟨r, hr, hmap⟩ := Option.map_eq_some_iff.mp h
          cases r with
          | error e => cases hmap
          | ok rest =>
            cases hmap
            exact ⟨p, rest, rfl, rfl, hr⟩

theorem find_some {s : Source} {v : Val} {p : Str × Fin s.heap.length} (h : s.find v = some p) : v = .str p.1 := by
  cases v with
  | str id => rw [(find_str h).1]
  | none => cases h
  | bool b => cases h
  | int n => cases h
  | float x => cases h
  | list vs => cases h
  | dict items => cases h

/-- **What is collected is an unbroken branch**, each message under its key. -/
theorem lineage_of_collect {s : Source} {fuel : Nat} {seen : List Val} {x : Str}
    {branch : List (Str × Fin s.heap.length)} (hx : x ≠ []) (h : collect s fuel seen (.str x) = some (.ok branch)) :
    Lineage s.parentOf x (branch.map Prod.fst) ∧
      ∀ p ∈ branch, s.find (.str p.1) = some p ∧ s.There p.1 ∧ p.1 ≠ [] := by
  induction fuel generalizing seen x branch with
  | zero => cases h
  | succ fuel ih =>
    rcases collect_ok h with ⟨hfalsy, -⟩ | ⟨-, p, rest, hp, rfl, hrest⟩
    · rw [str_truthy hx] at hfalsy
      cases hfalsy
    · have hid := (find_str hp).1
      subst hid
      have hparent : s.parentOf p.1 = link (s.heap.get p.2) := by rw [Source.parentOf, hp, Option.bind_some]
      cases fuel with
      | zero => cases hrest
      | succ fuel =>
        rcases collect_ok hrest with ⟨hfalsy, rfl⟩ | ⟨htruthy, q, rest', hq, rfl, -⟩
        · refine ⟨.root (by rw [hparent, link_of_falsy hfalsy]), ?_⟩
          intro q hq
          rw [List.mem_singleton.mp hq]
          exact ⟨hp, ⟨p, hp, .inl hfalsy⟩, hx⟩
        · -- the parent that was found is a string, and not an empty one
          have hstr := find_some hq
          have hq1 : q.1 ≠ [] := by
            intro hnil
            rw [hstr, hnil] at htruthy
            cases htruthy
          rw [hstr] at hrest
          have ⟨hl, hall⟩ := ih hq1 hrest
          refine ⟨.step (by rw [hparent, link_of_str hstr hq1]) hl, ?_⟩
          intro q' hq'
          rcases List.mem_cons.mp hq' with rfl | hq'
          · exact ⟨hp, ⟨q', hp, .inr ⟨q.1, hq1, hstr⟩⟩, hx⟩
          · exact hall q' hq'

/-- **The loop ends**, having taken each key of the map at most once. -/
theorem collect_isSome (s : Source) (fuel : Nat) {strs : List Str} (hnodup : strs.Nodup)
    (hin : ∀ a ∈ strs, a ∈ s.messages_map.keys) (hfuel : s.messages_map.size < fuel + strs.length) (v : Val) :
    ∃ r, collect s fuel (strs.map .str) v = some r := by
  induction fuel generalizing strs v with
  | zero =>
    have hle := (List.subperm_of_subset hnodup hin).length_le
    rw [Dict.keys, List.length_map] at hle
    rw [Dict.size] at hfuel
    omega
  | succ fuel ih =>
    rw [collect]
    split
    · exact ⟨_, rfl⟩
    · split
      · exact ⟨_, rfl⟩
      · split
        · exact ⟨_, rfl⟩
        · rename_i hnew
          cases hp : s.find v with
          | none => exact ⟨_, rfl⟩
          | some p =>
            have hv := find_some hp
            subst hv
            have hfresh : p.1 ∉ strs := by
              intro hmem
              apply hnew
              refine List.any_eq_true.mpr ⟨.str p.1, List.mem_map_of_mem hmem, ?_⟩
              rw [str_eq_str]
              exact decide_eq_true rfl
            obtain ⟨r, hr⟩ := ih (List.nodup_cons.mpr ⟨hfresh, hnodup⟩)
              (fun a ha => (List.mem_cons.mp ha).elim (fun heq => heq ▸ (find_str hp).2) (hin a))
              (by rw [List.length_cons]; omega) (field (s.heap.get p.2) kParentId)
            rw [List.map_cons] at hr
            simp only [hr]
            exact ⟨_, rfl⟩

/-! ## The copies -/

/-- A message under an id, with the links it gets. -/
def relink (parent_id : Val) (p : Str × Obj) (children : List Val) : Obj :=
  ((p.2.set kId (.str p.1)).set kParentId parent_id).set kChildrenIds (.list children)

def nextIds (rest : List (Str × Obj)) : List Val := rest.head?.toList.map fun p => .str p.1

/-- Messages in one line, below the parent. -/
def relinked (parent_id : Val) : List (Str × Obj) → List (Str × Obj)
  | [] => []
  | p :: rest => (p.1, relink parent_id p (nextIds rest)) :: relinked (.str p.1) rest

theorem keys_relinked (parent_id : Val) (ps : List (Str × Obj)) :
    (relinked parent_id ps).map Prod.fst = ps.map Prod.fst := by
  induction ps generalizing parent_id with
  | nil => rfl
  | cons p ps ih => rw [relinked, List.map_cons, List.map_cons, ih]

theorem set_children_relink (parent_id : Val) (p : Str × Obj) (children children' : List Val) :
    (relink parent_id p children).set kChildrenIds (.list children') = relink parent_id p children' :=
  Dict.set_set ..

theorem modify_append_cons {α : Type} (front : List α) (x : α) (back : List α) (f : α → α) :
    (front ++ x :: back).modify front.length f = front ++ f x :: back := by
  induction front with
  | nil => rfl
  | cons y front ih => simp [ih]

/-- The objects that references are to. -/
def objects (heap : List Obj) (refs : List (Str × Nat)) : List (Str × Obj) :=
  refs.map fun p => (p.1, (heap[p.2]?).getD .empty)

/-- One more copy, below the last. -/
theorem copyMessage_next {heap front : List Obj} {parent_id : Val} {q : Str × Obj} {messages : Dict Str Nat}
    {ordered : List Nat} {p : Str × Nat} (hp : p.2 < heap.length) (hq : q.1 ≠ [])
    (hlast : messages.get? q.1 = some (heap ++ front).length) :
    copyMessage ⟨heap ++ front ++ [relink parent_id q []], messages, ordered, some q.1⟩ p =
      .ok ⟨heap ++ (front ++ [relink parent_id q [.str p.1]]) ++
          [relink (.str q.1) (p.1, (heap[p.2]?).getD .empty) []],
        messages.set p.1 ((heap ++ front).length + 1), ordered ++ [(heap ++ front).length + 1], some p.1⟩ := by
  have hread : (heap ++ front ++ [relink parent_id q []])[p.2]? = heap[p.2]? := by
    rw [List.append_assoc, List.getElem?_append_left hp]
  have hlength : (heap ++ front ++ [relink parent_id q []]).length = (heap ++ front).length + 1 := by
    rw [List.length_append, List.length_singleton]
  have hlink : ∀ copied : Obj, (heap ++ front ++ [relink parent_id q []] ++ [copied]).modify (heap ++ front).length
      (fun parent => parent.set kChildrenIds (.list [.str p.1])) =
        heap ++ (front ++ [relink parent_id q [.str p.1]]) ++ [copied] := by
    intro copied
    rw [List.append_assoc (heap ++ front), List.singleton_append, modify_append_cons, set_children_relink]
    simp only [List.append_assoc, List.cons_append, List.nil_append]
  simp only [copyMessage, hread, if_neg hq, hlast, hlength, hlink, Option.elim_some]
  rfl

/-- **All the copies** below the last one. -/
theorem copyEach_next {heap : List Obj} {todo : List (Str × Nat)} (hrefs : ∀ p ∈ todo, p.2 < heap.length ∧ p.1 ≠ [])
    (hnodup : (todo.map Prod.fst).Nodup) (front : List Obj) (parent_id : Val) (q : Str × Obj) {messages : Dict Str Nat}
    (hq : q.1 ≠ []) (hlast : messages.get? q.1 = some (heap ++ front).length)
    (hnew : ∀ p ∈ todo, p.1 ∉ messages) (ordered : List Nat) :
    ∃ c, copyEach ⟨heap ++ front ++ [relink parent_id q []], messages, ordered, some q.1⟩ todo = .ok c ∧
      c.heap = heap ++ front ++ relink parent_id q (nextIds (objects heap todo)) ::
        (relinked (.str q.1) (objects heap todo)).map Prod.snd ∧
      c.fork_messages.items = messages.items ++
        (todo.map Prod.fst).zip (List.range' ((heap ++ front).length + 1) todo.length) ∧
      c.ordered_messages = ordered ++ List.range' ((heap ++ front).length + 1) todo.length := by
  induction todo generalizing front parent_id q messages ordered with
  | nil => exact ⟨_, rfl, rfl, (List.append_nil _).symm, (List.append_nil _).symm⟩
  | cons p todo ih =>
    rw [List.map_cons, List.nodup_cons] at hnodup
    have hp := hrefs p List.mem_cons_self
    have hlength : (heap ++ (front ++ [relink parent_id q [.str p.1]])).length = (heap ++ front).length + 1 := by
      simp only [List.length_append, List.length_singleton]
      omega
    have hlast' : (messages.set p.1 ((heap ++ front).length + 1)).get? p.1 =
        some (heap ++ (front ++ [relink parent_id q [.str p.1]])).length := by
      rw [Dict.get?_set_self, hlength]
    have hnew' : ∀ p' ∈ todo, p'.1 ∉ messages.set p.1 ((heap ++ front).length + 1) := by
      intro p' hp' hmem
      rcases Dict.mem_set.mp hmem with heq | hmem
      · exact hnodup.1 (heq ▸ List.mem_map_of_mem hp')
      · exact hnew p' (List.mem_cons_of_mem _ hp') hmem
    obtain ⟨c, hc, hheap, hitems, hordered⟩ := ih (fun p' hp' => hrefs p' (List.mem_cons_of_mem _ hp')) hnodup.2
      (front ++ [relink parent_id q [.str p.1]]) (.str q.1) (p.1, (heap[p.2]?).getD .empty) hp.2 hlast' hnew'
      (ordered ++ [(heap ++ front).length + 1])
    refine ⟨c, ?_, ?_, ?_, ?_⟩
    · rw [copyEach, List.foldlM_cons, copyMessage_next hp.1 hq hlast]
      exact hc
    · rw [hheap]
      simp [objects, relinked, nextIds]
    · rw [hitems, hlength, Dict.items_set_of_not_mem _ (hnew p List.mem_cons_self)]
      simp [List.range'_succ]
    · rw [hordered, hlength]
      simp [List.range'_succ]

/-- **The copies of a branch**, from its root. -/
theorem copyEach_spec {heap : List Obj} {todo : List (Str × Nat)} (hrefs : ∀ p ∈ todo, p.2 < heap.length ∧ p.1 ≠ [])
    (hnodup : (todo.map Prod.fst).Nodup) :
    ∃ c, copyEach ⟨heap, .empty, [], none⟩ todo = .ok c ∧
      c.heap = heap ++ (relinked .none (objects heap todo)).map Prod.snd ∧
      c.fork_messages.items = (todo.map Prod.fst).zip (List.range' heap.length todo.length) ∧
      c.ordered_messages = List.range' heap.length todo.length := by
  cases todo with
  | nil => exact ⟨_, rfl, (List.append_nil _).symm, rfl, rfl⟩
  | cons p todo =>
    rw [List.map_cons, List.nodup_cons] at hnodup
    have hp := hrefs p List.mem_cons_self
    have hfirst : copyMessage ⟨heap, .empty, [], none⟩ p =
        .ok ⟨heap ++ [] ++ [relink .none (p.1, (heap[p.2]?).getD .empty) []],
          (Dict.empty : Dict Str Nat).set p.1 heap.length, [heap.length], some p.1⟩ := by
      simp only [List.append_nil]
      rfl
    have hnew : ∀ p' ∈ todo, p'.1 ∉ (Dict.empty : Dict Str Nat).set p.1 heap.length := by
      intro p' hp' hmem
      rcases Dict.mem_set.mp hmem with heq | hmem
      · exact hnodup.1 (heq ▸ List.mem_map_of_mem hp')
      · exact Dict.not_mem_empty _ hmem
    obtain ⟨c, hc, hheap, hitems, hordered⟩ := copyEach_next
      (fun p' hp' => hrefs p' (List.mem_cons_of_mem _ hp')) hnodup.2 [] .none (p.1, (heap[p.2]?).getD .empty) hp.2
      (by rw [Dict.get?_set_self, List.append_nil]) hnew [heap.length]
    rw [List.append_nil] at hheap hitems hordered
    refine ⟨c, ?_, hheap, ?_, ?_⟩
    · rw [copyEach, List.foldlM_cons, hfirst]
      exact hc
    · rw [hitems, List.length_cons, List.range'_succ]
      rfl
    · rw [hordered, List.length_cons, List.range'_succ]
      rfl

/-! ## The fork is one line -/

def Forked.message (f : Forked) (r : Nat) : Obj := (f.heap[r]?).getD .empty

/-- The messages themselves. -/
def Forked.contents (f : Forked) : Dict Str Obj := f.messages.map fun _ r => f.message r

/-- The messages of the line, in a fork of the messages of the source; the last one is the current one. -/
structure IsFork (s : Source) (source_message_id : Str) (line : List Str) (f : Forked) : Prop where
  keys : f.messages.keys = line
  currentId : f.currentId = source_message_id
  /-- the messages are objects that were not there before -/
  fresh : ∀ id r, f.messages.get? id = some r → s.heap.length ≤ r
  untouched : ∀ r : Fin s.heap.length, f.heap[r]? = some (s.heap.get r)
  unchanged : ∀ id ∈ line, ∀ p, s.find (.str id) = some p → ∀ key, key ≠ kId → key ≠ kParentId → key ≠ kChildrenIds →
    (messageAt f.contents id).get? key = (s.heap.get p.2).get? key
  ids : ∀ id ∈ line, field (messageAt f.contents id) kId = .str id
  parents : ∀ front id back, line = front ++ id :: back →
    field (messageAt f.contents id) kParentId = front.getLast?.elim .none .str
  children : ∀ front id back, line = front ++ id :: back →
    field (messageAt f.contents id) kChildrenIds = .list (back.head?.toList.map .str)
  inverse : ∀ a ∈ line, ∀ b ∈ line,
    (field (messageAt f.contents b) kParentId = .str a ↔ field (messageAt f.contents a) kChildrenIds = .list [.str b])
  ordered : f.ordered_messages = f.messages.items.map Prod.snd
  walked : get_message_list f.contents source_message_id = some (f.ordered_messages.map f.message)

theorem field_id_relink (v : Val) (p : Str × Obj) (children : List Val) :
    field (relink v p children) kId = .str p.1 := by
  rw [relink, field_set, if_neg (by decide), field_set, if_neg (by decide), field_set, if_pos rfl]

theorem field_parentId_relink (v : Val) (p : Str × Obj) (children : List Val) :
    field (relink v p children) kParentId = v := by
  rw [relink, field_set, if_neg (by decide), field_set, if_pos rfl]

theorem field_childrenIds_relink (v : Val) (p : Str × Obj) (children : List Val) :
    field (relink v p children) kChildrenIds = .list children := by
  rw [relink, field_set, if_pos rfl]

theorem get?_relink (v : Val) (p : Str × Obj) (children : List Val) {key : Str} (hid : key ≠ kId)
    (hparent : key ≠ kParentId) (hchildren : key ≠ kChildrenIds) : (relink v p children).get? key = p.2.get? key := by
  rw [relink, Dict.get?_set_of_ne _ _ hchildren, Dict.get?_set_of_ne _ _ hparent, Dict.get?_set_of_ne _ _ hid]

/-- The message at any place of a line. -/
theorem mem_relinked (v : Val) (front : List (Str × Obj)) (p : Str × Obj) (back : List (Str × Obj)) :
    (p.1, relink (front.getLast?.elim v fun q => .str q.1) p (nextIds back)) ∈ relinked v (front ++ p :: back) := by
  induction front generalizing v with
  | nil => exact List.mem_cons_self
  | cons q front ih =>
    refine List.mem_cons_of_mem _ ?_
    have hparent : (q :: front).getLast?.elim v (fun q => Val.str q.1) =
        front.getLast?.elim (.str q.1) fun q => .str q.1 := by
      cases front with
      | nil => rfl
      | cons r front => rw [List.getLast?_cons_cons]; cases h : (r :: front).getLast? <;> simp_all
    rw [hparent]
    exact ih (.str q.1)

theorem split_keys {ps : List (Str × Obj)} {front back : List Str} {id : Str} (h : ps.map Prod.fst = front ++ id :: back) :
    ∃ before p after, ps = before ++ p :: after ∧ before.map Prod.fst = front ∧ p.1 = id ∧ after.map Prod.fst = back := by
  obtain ⟨before, rest, rfl, hbefore, hrest⟩ := List.map_eq_append_iff.mp h
  obtain ⟨p, after, rfl, hp, hafter⟩ := List.map_eq_cons_iff.mp hrest
  exact ⟨before, p, after, rfl, hbefore, hp, hafter⟩

section
variable {messages : Dict Str Obj} {ps : List (Str × Obj)} (h : messages.items = relinked .none ps)
include h

theorem keys_of_relinked : messages.keys = ps.map Prod.fst := by
  rw [Dict.keys, h, keys_relinked]

theorem get?_of_relinked {before after : List (Str × Obj)} {p : Str × Obj} (hps : ps = before ++ p :: after) :
    messages.get? p.1 =
      some (relink ((before.map Prod.fst).getLast?.elim .none .str) p ((after.map Prod.fst).head?.toList.map .str)) := by
  have hmem := mem_relinked .none before p after
  rw [← hps, ← h] at hmem
  rw [Dict.get?_eq_some_iff.mpr hmem, List.getLast?_map, List.head?_map, nextIds]
  cases before.getLast? <;> cases after.head? <;> rfl

/-- The links of a message of the line. -/
theorem links_of_relinked {front back : List Str} {id : Str} (hline : ps.map Prod.fst = front ++ id :: back) :
    ∃ message, messages.get? id = some message ∧ field message kId = .str id ∧
      field message kParentId = front.getLast?.elim .none .str ∧
      field message kChildrenIds = .list (back.head?.toList.map .str) := by
  obtain ⟨before, p, after, hps, rfl, rfl, rfl⟩ := split_keys hline
  exact ⟨_, get?_of_relinked h hps, field_id_relink .., field_parentId_relink .., field_childrenIds_relink ..⟩

theorem fields_of_relinked {front back : List Str} {id : Str} (hline : ps.map Prod.fst = front ++ id :: back) :
    field (messageAt messages id) kId = .str id ∧
      field (messageAt messages id) kParentId = front.getLast?.elim .none .str ∧
      field (messageAt messages id) kChildrenIds = .list (back.head?.toList.map .str) := by
  obtain ⟨message, hmessage, hfields⟩ := links_of_relinked h hline
  rw [messageAt, hmessage, Option.getD_some]
  exact hfields

/-- Each message is the child of its parent, and the parent of its child. -/
theorem inverse_of_relinked {a b : Str} (ha : a ∈ ps.map Prod.fst) (hb : b ∈ ps.map Prod.fst) :
    field (messageAt messages b) kParentId = .str a ↔ field (messageAt messages a) kChildrenIds = .list [.str b] := by
  constructor
  · intro hparent
    obtain ⟨front, back, hsplit⟩ := List.append_of_mem hb
    rw [(fields_of_relinked h hsplit).2.1] at hparent
    cases hlast : front.getLast? with
    | none =>
      rw [hlast] at hparent
      cases hparent
    | some a' =>
      rw [hlast] at hparent
      cases hparent
      obtain ⟨before, rfl⟩ := List.getLast?_eq_some_iff.mp hlast
      rw [List.append_assoc, List.singleton_append] at hsplit
      rw [(fields_of_relinked h hsplit).2.2]
      rfl
  · intro hchildren
    obtain ⟨front, back, hsplit⟩ := List.append_of_mem ha
    rw [(fields_of_relinked h hsplit).2.2] at hchildren
    cases back with
    | nil => cases hchildren
    | cons b' back =>
      cases hchildren
      have hnext : ps.map Prod.fst = (front ++ [a]) ++ b :: back := by
        rw [hsplit, List.append_assoc, List.singleton_append]
      rw [(fields_of_relinked h hnext).2.1, List.getLast?_concat]
      rfl

variable (hids : ∀ p ∈ ps, p.1 ≠ [])
include hids

theorem linkOf_of_relinked {front back : List Str} {id : Str} (hline : ps.map Prod.fst = front ++ id :: back) :
    linkOf messages id = front.getLast? := by
  obtain ⟨message, hmessage, -, hparent, -⟩ := links_of_relinked h hline
  rw [linkOf_eq hmessage]
  cases hlast : front.getLast? with
  | none =>
    rw [hlast] at hparent
    exact link_of_falsy (by rw [hparent]; rfl)
  | some a =>
    rw [hlast] at hparent
    have ha : a ∈ ps.map Prod.fst := by
      rw [hline]
      exact List.mem_append_left _ (List.mem_of_getLast? hlast)
    obtain ⟨p, hp, rfl⟩ := List.mem_map.mp ha
    exact link_of_str hparent (hids p hp)

/-- The chain of a message of the line is what is before it. -/
theorem lineage_of_relinked (front : List Str) (id : Str) (back : List Str)
    (hline : ps.map Prod.fst = front ++ id :: back) : Lineage (linkOf messages) id (id :: front.reverse) := by
  induction front using List.reverseRecOn generalizing id back with
  | nil => exact .root (linkOf_of_relinked h hids hline)
  | append_singleton front a ih =>
    have hlink := linkOf_of_relinked h hids hline
    rw [List.getLast?_concat] at hlink
    rw [List.reverse_concat]
    refine .step hlink (ih a (id :: back) ?_)
    rw [hline, List.append_assoc, List.singleton_append]

theorem whole_of_relinked : Whole messages := by
  have hsplit : ∀ {id message}, messages.get? id = some message → ∃ front back, ps.map Prod.fst = front ++ id :: back := by
    intro id message hmessage
    have hmem := Dict.mem_of_get? hmessage
    rw [Dict.mem_iff_mem_keys, keys_of_relinked h] at hmem
    exact List.append_of_mem hmem
  refine ⟨?_, ?_, ⟨?_⟩⟩
  · intro id message hmessage
    obtain ⟨front, back, hline⟩ := hsplit hmessage
    obtain ⟨message', hmessage', hid, -⟩ := links_of_relinked h hline
    cases hmessage.symm.trans hmessage'
    refine ⟨?_, .inr hid⟩
    intro hempty
    have hnone : message.get? kId = none := by rw [Dict.get?, hempty]; rfl
    rw [field, hnone] at hid
    cases hid
  · intro id message hmessage
    obtain ⟨front, back, hline⟩ := hsplit hmessage
    obtain ⟨message', hmessage', -, hparent, -⟩ := links_of_relinked h hline
    cases hmessage.symm.trans hmessage'
    rw [hparent]
    cases hlast : front.getLast? with
    | none => exact .inl rfl
    | some a =>
      have ha : a ∈ ps.map Prod.fst := by
        rw [hline]
        exact List.mem_append_left _ (List.mem_of_getLast? hlast)
      obtain ⟨p, hp, rfl⟩ := List.mem_map.mp ha
      refine .inr ⟨p.1, ?_, hids p hp, rfl⟩
      rw [Dict.mem_iff_mem_keys, keys_of_relinked h]
      exact ha
  · intro id
    cases hmessage : messages.get? id with
    | none =>
      refine ⟨id, fun p hp => ?_⟩
      rw [IsParent, linkOf, hmessage] at hp
      cases hp
    | some message =>
      obtain ⟨front, back, hline⟩ := hsplit hmessage
      exact (lineage_of_relinked h hids front id back hline).acc

/-- The branch of the last message is the whole line. -/
theorem walked_of_relinked {front : List Str} {id : Str} (hline : ps.map Prod.fst = front ++ [id]) :
    get_message_list messages id = some (messages.items.map Prod.snd) := by
  have hmem : id ∈ messages := by
    rw [Dict.mem_iff_mem_keys, keys_of_relinked h, hline]
    exact List.mem_append_right _ (List.mem_singleton_self id)
  rw [get_message_list_lineage (whole_of_relinked h hids) (lineage_of_relinked h hids front id [] hline) hmem,
    List.reverse_cons, List.reverse_reverse, ← hline, ← keys_of_relinked h, Dict.keys, List.map_map]
  refine congrArg some (List.map_congr_left ?_)
  intro p hp
  show messageAt messages p.1 = p.2
  rw [messageAt, Dict.get?_eq_some_iff.mpr hp, Option.getD_some]

end

/-- Objects that were added in a row, under the references they have. -/
theorem map_zip_range (heap : List Obj) (ps : List (Str × Obj)) :
    ((ps.map Prod.fst).zip (List.range' heap.length ps.length)).map
      (fun p => (p.1, ((heap ++ ps.map Prod.snd)[p.2]?).getD .empty)) = ps := by
  induction ps generalizing heap with
  | nil => rfl
  | cons p ps ih =>
    have hrest := ih (heap ++ [p.2])
    rw [List.length_append, List.length_singleton, List.append_assoc, List.singleton_append] at hrest
    rw [List.map_cons, List.map_cons, List.length_cons, List.range'_succ, List.zip_cons_cons, List.map_cons, hrest]
    simp

theorem length_relinked (parent_id : Val) (ps : List (Str × Obj)) : (relinked parent_id ps).length = ps.length := by
  rw [← List.length_map (f := Prod.fst), keys_relinked, List.length_map]

/-- A branch as it is collected, from the message up. -/
structure Collected (s : Source) (id : Str) (branch : List (Str × Fin s.heap.length)) : Prop where
  lineage : Lineage s.parentOf id (branch.map Prod.fst)
  found : ∀ p ∈ branch, s.find (.str p.1) = some p
  nonempty : ∀ p ∈ branch, p.1 ≠ []

/-- The copies of a branch, as what is returned. -/
theorem isFork_of_collected {s : Source} {id : Str} {branch : List (Str × Fin s.heap.length)} (h : Collected s id branch) :
    ∃ c, copyEach ⟨s.heap, .empty, [], none⟩ (branch.reverse.map fun p => (p.1, p.2.val)) = .ok c ∧
      IsFork s id (branch.map Prod.fst).reverse ⟨c.heap, c.fork_messages, id, c.ordered_messages⟩ := by
  have hkeys : (branch.reverse.map fun p => (p.1, p.2.val)).map Prod.fst = (branch.map Prod.fst).reverse := by
    rw [List.map_map, ← List.map_reverse]
    rfl
  have hrefs : ∀ p ∈ branch.reverse.map (fun p => (p.1, p.2.val)), p.2 < s.heap.length ∧ p.1 ≠ [] := by
    intro p hp
    obtain ⟨q, hq, rfl⟩ := List.mem_map.mp hp
    exact ⟨q.2.isLt, h.nonempty q (List.mem_reverse.mp hq)⟩
  obtain ⟨c, hc, hheap, hitems, hordered⟩ := copyEach_spec hrefs (by
    rw [hkeys]
    exact List.nodup_reverse.mpr h.lineage.nodup)
  refine ⟨c, hc, ?_⟩
  -- the messages of the branch, from its root
  have hps : objects s.heap (branch.reverse.map fun p => (p.1, p.2.val)) =
      branch.reverse.map fun p => (p.1, s.heap.get p.2) := by
    rw [objects, List.map_map]
    apply List.map_congr_left
    intro p _
    simp
  rw [hps] at hheap
  generalize hpsdef : (branch.reverse.map fun p => (p.1, s.heap.get p.2)) = ps at hheap
  have hline : ps.map Prod.fst = (branch.map Prod.fst).reverse := by
    rw [← hpsdef, List.map_map, ← List.map_reverse]
    rfl
  have hids : ∀ p ∈ ps, p.1 ≠ [] := by
    intro p hp
    rw [← hpsdef] at hp
    obtain ⟨q, hq, rfl⟩ := List.mem_map.mp hp
    exact h.nonempty q (List.mem_reverse.mp hq)
  have hlength : (branch.reverse.map fun p => (p.1, p.2.val)).length = (relinked .none ps).length := by
    rw [length_relinked, ← hpsdef, List.length_map, List.length_map]
  rw [hkeys, ← hline, ← keys_relinked .none ps, hlength] at hitems
  rw [hlength] at hordered
  generalize hf : (⟨c.heap, c.fork_messages, id, c.ordered_messages⟩ : Forked) = f
  have hcontents : f.contents.items = relinked .none ps := by
    rw [← map_zip_range s.heap (relinked .none ps), ← hitems, ← hheap, ← hf]
    rfl
  have hsource : ∃ front, ps.map Prod.fst = front ++ [id] := by
    obtain ⟨l, hl⟩ := h.lineage.head
    exact ⟨l.reverse, by rw [hline, hl, List.reverse_cons]⟩
  have hsnd : f.ordered_messages = f.messages.items.map Prod.snd := by
    rw [← hf]
    show c.ordered_messages = c.fork_messages.items.map Prod.snd
    rw [hitems, hordered, List.map_snd_zip (by rw [List.length_range', List.length_map])]
  rw [← hline]
  constructor
  · rw [← hf]
    show c.fork_messages.keys = ps.map Prod.fst
    rw [Dict.keys, hitems, List.map_fst_zip (by rw [List.length_range', List.length_map]), keys_relinked]
  · rw [← hf]
  · intro a r hr
    rw [← hf] at hr
    have hmem := (List.of_mem_zip (hitems ▸ Dict.get?_eq_some_iff.mp hr)).2
    exact (List.mem_range'_1.mp hmem).1
  · intro r
    rw [← hf]
    show c.heap[r.val]? = _
    rw [hheap, List.getElem?_append_left r.isLt]
    simp
  · intro a ha p hp key hkid hkparent hkchildren
    obtain ⟨q, hq, hqa⟩ := List.mem_map.mp ha
    obtain ⟨before, after, hsplit⟩ := List.append_of_mem hq
    have hget := get?_of_relinked hcontents hsplit
    rw [hqa] at hget
    rw [messageAt, hget, Option.getD_some, get?_relink _ _ _ hkid hkparent hkchildren]
    -- what was found under the key is the message that was collected
    rw [← hpsdef] at hq
    obtain ⟨t, ht, rfl⟩ := List.mem_map.mp hq
    have hfound := h.found t (List.mem_reverse.mp ht)
    rw [show t.1 = a from hqa, hp, Option.some.injEq] at hfound
    rw [hfound]
  · intro a ha
    obtain ⟨front, back, hsplit⟩ := List.append_of_mem ha
    exact (fields_of_relinked hcontents hsplit).1
  · exact fun front a back hsplit => (fields_of_relinked hcontents hsplit).2.1
  · exact fun front a back hsplit => (fields_of_relinked hcontents hsplit).2.2
  · exact fun a ha b hb => inverse_of_relinked hcontents ha hb
  · exact hsnd
  · obtain ⟨front, hlast⟩ := hsource
    have hvalues : f.ordered_messages.map f.message = f.contents.items.map Prod.snd := by
      rw [hsnd]
      show _ = (f.messages.items.map _).map Prod.snd
      rw [List.map_map, List.map_map]
      rfl
    rw [walked_of_relinked hcontents hids hlast, hvalues]

/-- What the first loop ends with. -/
theorem collected_iff (s : Source) {id : Str} (hid : id ≠ []) :
    ∃ r, collect s (s.messages_map.size + 1) [] (.str id) = some r ∧
      ((∃ branch, r = .ok branch) ↔ Unbroken s id) ∧ ∀ branch, r = .ok branch → Collected s id branch := by
  obtain ⟨r, hr⟩ := collect_isSome s (s.messages_map.size + 1) List.nodup_nil (fun a ha => absurd ha List.not_mem_nil)
    (by simp) (.str id)
  rw [List.map_nil] at hr
  have hcollected : ∀ branch, r = .ok branch → Collected s id branch ∧ Unbroken s id := by
    intro branch hbranch
    rw [hbranch] at hr
    obtain ⟨hl, hall⟩ := lineage_of_collect hid hr
    refine ⟨⟨hl, fun p hp => (hall p hp).1, fun p hp => (hall p hp).2.2⟩, unbroken_iff.mpr ⟨_, hl, ?_⟩⟩
    intro a ha
    obtain ⟨p, hp, rfl⟩ := List.mem_map.mp ha
    exact (hall p hp).2.1
  refine ⟨r, hr, ⟨?_, ?_⟩, fun branch hbranch => (hcollected branch hbranch).1⟩
  · rintro ⟨branch, hbranch⟩
    exact (hcollected branch hbranch).2
  · intro hunbroken
    obtain ⟨l, hl, hthere⟩ := unbroken_iff.mp hunbroken
    have hlength := hl.length_le s.messages_map.keys fun a ha => (hthere a ha).mem
    rw [Dict.keys, List.length_map] at hlength
    have hunseen : ∀ v ∈ ([] : List Val), ∃ a, v = .str a ∧ a ∉ l := fun v hv => absurd hv List.not_mem_nil
    obtain ⟨branch, hbranch⟩ := collect_lineage hl hid hthere (Nat.lt_succ_of_le hlength) hunseen
    exact ⟨branch, Option.some.inj (hr.symm.trans hbranch)⟩

/-- A fork is made exactly of an unbroken branch, and is that branch as one line; of any other the call raises. -/
theorem build_fork_history_spec (s : Source) (hmap : s.messages_map.items ≠ []) {source_message_id : Str}
    (hsource : source_message_id ≠ []) :
    (∃ r, build_fork_history s source_message_id = some r ∧ ((∃ f, r = .ok f) ↔ Unbroken s source_message_id)) ∧
    ∀ f, build_fork_history s source_message_id = some (.ok f) →
      ∃ line, Lineage s.parentOf source_message_id line.reverse ∧ IsFork s source_message_id line f := by
  obtain ⟨r, hr, hiff, hcollected⟩ := collected_iff s hsource
  have hbuild : ∀ branch, r = .ok branch → ∃ f, build_fork_history s source_message_id = some (.ok f) ∧
      IsFork s source_message_id (branch.map Prod.fst).reverse f := by
    intro branch hbranch
    obtain ⟨c, hc, hfork⟩ := isFork_of_collected (hcollected branch hbranch)
    refine ⟨_, ?_, hfork⟩
    rw [build_fork_history, if_neg hmap, hr, hbranch, Option.map_some]
    show some (copyEach _ _ >>= _) = _
    rw [hc]
    rfl
  cases r with
  | error e =>
    have herror : build_fork_history s source_message_id = some (.error e) := by
      rw [build_fork_history, if_neg hmap, hr]
      rfl
    refine ⟨⟨_, herror, ⟨?_, ?_⟩⟩, ?_⟩
    · rintro ⟨f, hf⟩
      cases hf
    · intro hunbroken
      obtain ⟨branch, hbranch⟩ := hiff.mpr hunbroken
      cases hbranch
    · intro f hf
      cases herror.symm.trans hf
  | ok branch =>
    obtain ⟨f, hf, hfork⟩ := hbuild branch rfl
    refine ⟨⟨_, hf, iff_of_true ⟨f, rfl⟩ (hiff.mp ⟨branch, rfl⟩)⟩, ?_⟩
    intro f' hf'
    cases hf.symm.trans hf'
    refine ⟨_, ?_, hfork⟩
    rw [List.reverse_reverse]
    exact (hcollected branch rfl).lineage

/-- A question and its answer, the question with another answer that is not there, and an entry that is no message. -/
def exampleSource : Source where
  heap := [.ofList [(py "role", .str (py "user")), (kChildrenIds, .list [.str (py "b"), .str (py "c")])],
    .ofList [(kId, .str (py "x")), (kParentId, .str (py "a"))]]
  messages_map := .ofList [(py "a", .message ⟨0, by decide⟩), (py "b", .message ⟨1, by decide⟩), (py "d", .other)]

theorem build_fork_history_spec_example :
    ∃ f, build_fork_history exampleSource (py "b") = some (.ok f) ∧ f.messages.keys = [py "a", py "b"] ∧
      ∃ line, Lineage exampleSource.parentOf (py "b") line.reverse ∧ IsFork exampleSource (py "b") line f :=
  ⟨_, rfl, by decide +kernel, (build_fork_history_spec exampleSource (List.cons_ne_nil _ _) (by decide)).2 _ rfl⟩

end Fork
end MaterialOpenWebui
