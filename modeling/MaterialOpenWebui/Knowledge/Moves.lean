import MaterialOpenWebui.Knowledge.Directories

/-!
# `Knowledge.Moves` — moves of directories at the same time (`move_directory`, `backend/open_webui/models/knowledge.py`)

A move reads one parent after the other, up from the new parent, and then writes. Each read and the write is a step of its
own, and the steps of other moves come between. What a search has shown holds of the parents it read: if they are the parents
still at the time of the write, the move closes no cycle (`apart_of_current`). Nothing holds them until then: two moves that
each find nothing may close a cycle together.
-/

namespace MaterialOpenWebui
namespace Knowledge
open Py
open Forest (Ancestor Rooted)

/-! ## The system -/

/-- A call of `move_directory` under way. -/
structure Move where
  directory_id : Str
  new_parent_id : Option Str
  current : Option Str
  seen : List Str
  deriving DecidableEq

structure State where
  rows : Rows
  /-- the calls under way, by a number of the call's own -/
  moves : Dict Nat Move

inductive Action where
  /-- a call begins -/
  | call (n : Nat) (directory_id : Str) (new_parent_id : Option Str)
  /-- a call goes on to its next read, or its write -/
  | go (n : Nat)

/-- The next step of a call: it reads a parent, or writes and commits, or gives up. -/
def advance (foreign_keys : Bool) (s : State) (n : Nat) (m : Move) : State :=
  match loop_head m.directory_id m.current m.seen with
  | .refuse => { s with moves := s.moves.erase n }
  | .read id => { s with moves := s.moves.set n { m with current := parentOf s.rows id, seen := id :: m.seen } }
  | .update => ⟨update_parent foreign_keys s.rows m.directory_id m.new_parent_id, s.moves.erase n⟩

def step (foreign_keys : Bool) (s : State) : Action → State
  | .call n directory_id new_parent_id =>
      if n ∈ s.moves then s else { s with moves := s.moves.set n ⟨directory_id, new_parent_id, new_parent_id, []⟩ }
  | .go n =>
      match s.moves.get? n with
      | some m => advance foreign_keys s n m
      | none => s

/-! ## The invariant -/

/-- What a call's search has come to. -/
def Move.Searched (m : Move) : Prop := Knowledge.Searched m.directory_id m.new_parent_id m.current m.seen

structure Inv (s : State) : Prop where
  rooted : Rooted (parentOf s.rows)
  named : ([] : Str) ∉ s.rows
  searched : ∀ n m, s.moves.get? n = some m → m.Searched

/-- A call that is about to write either finds the parents that it read as it read them, or a new parent that is by now
neither the directory nor below it. -/
def Timely (s : State) : Action → Prop
  | .call _ _ _ => True
  | .go n => ∀ m, s.moves.get? n = some m → loop_head m.directory_id m.current m.seen = .update →
      Current s.rows m.seen m.current ∨
        ∀ p, m.new_parent_id = some p → p ≠ m.directory_id ∧ ¬Ancestor (parentOf s.rows) m.directory_id p

theorem mem_update_parent {foreign_keys : Bool} {rows : Rows} {id : Str} {parent_id : Option Str} {k : Str}
    (h : k ∈ update_parent foreign_keys rows id parent_id) : k ∈ rows := by
  rw [update_parent] at h
  split at h
  · rename_i directory hget
    rcases write_cases foreign_keys rows id { directory with parent_id } with heq | ⟨-, heq⟩
    · rwa [heq] at h
    · rw [heq, Dict.mem_set] at h
      rcases h with rfl | h
      · exact Dict.mem_of_get? hget
      · exact h
  · exact h

/-- **One write** keeps the forest, if the new parent is not below the directory. -/
theorem rooted_update_parent {rows : Rows} (foreign_keys : Bool) (h : Rooted (parentOf rows))
    {id : Str} {parent_id : Option Str}
    (hapart : id ∈ rows → ∀ p, parent_id = some p → p ≠ id ∧ ¬Ancestor (parentOf rows) id p) :
    Rooted (parentOf (update_parent foreign_keys rows id parent_id)) := by
  rw [update_parent]
  split
  · rename_i directory hget
    rcases write_cases foreign_keys rows id { directory with parent_id } with heq | ⟨-, heq⟩
    · rw [heq]
      exact h
    · rw [heq]
      refine Forest.rooted_rehang h id ?_ ?_
      · intro c hc
        rw [parentOf_set, if_neg hc]
      · intro p hp
        rw [parentOf_set, if_pos rfl] at hp
        exact hapart (Dict.mem_of_get? hget) p hp
  · exact h

theorem inv_step (foreign_keys : Bool) (s : State) (a : Action) (h : Inv s) (htimely : Timely s a) :
    Inv (step foreign_keys s a) := by
  cases a with
  | call n directory_id new_parent_id =>
    rw [step]
    split
    · exact h
    · refine ⟨h.rooted, h.named, fun n' m hget => ?_⟩
      rw [Dict.get?_set] at hget
      split at hget
      · cases hget
        exact Searched.start directory_id new_parent_id
      · exact h.searched n' m hget
  | go n =>
    rw [step]
    split
    · rename_i m hget
      have hsearched := h.searched n m hget
      have herased : ∀ n' m', (s.moves.erase n).get? n' = some m' → m'.Searched := by
        intro n' m' hget'
        rw [Dict.get?_erase] at hget'
        split at hget'
        · cases hget'
        · exact h.searched n' m' hget'
      rw [advance]
      split
      · -- the search has come back to the directory: the move is refused
        exact ⟨h.rooted, h.named, herased⟩
      · rename_i id hread
        refine ⟨h.rooted, h.named, fun n' m' hget' => ?_⟩
        rw [Dict.get?_set] at hget'
        split at hget'
        · cases hget'
          exact hsearched.read hread
        · exact h.searched n' m' hget'
      · -- the search is over: this is the write, for which `Timely` is made
        rename_i hover
        refine ⟨rooted_update_parent foreign_keys h.rooted fun hmem p hp => ?_,
          fun hmem => h.named (mem_update_parent hmem),
          herased⟩
        rcases htimely m hget hover with hcurrent | hapart
        · exact apart_of_current h.rooted h.named hmem hsearched hcurrent hover hp
        · exact hapart p hp
    · exact h

/-! ## Runs -/

/-- Two directories at the root. -/
def twoDirectories : Rows := Dict.ofList [(py "1", ⟨py "k", none, py "a"⟩), (py "2", ⟨py "k", none, py "b"⟩)]

theorem rooted_twoDirectories : Rooted (parentOf twoDirectories) := by
  refine ⟨fun c => ⟨c, fun p hp => ?_⟩⟩
  obtain ⟨directory, hget, hparent⟩ := Option.bind_eq_some_iff.mp hp
  have hmem := Dict.get?_eq_some_iff.mp hget
  have hall : ∀ row ∈ twoDirectories.items, row.2.parent_id = none := by decide
  rw [hall _ hmem] at hparent
  cases hparent

theorem search_up_iff_two : ∃ found, search_up twoDirectories (py "1") 4 (some (py "2")) [] = some found ∧
    (found = true ↔ ∃ p, some (py "2") = some p ∧ (p = py "1" ∨ Ancestor (parentOf twoDirectories) (py "1") p)) :=
  search_up_iff rooted_twoDirectories (by decide) (by decide) (some (py "2"))

end Knowledge
end MaterialOpenWebui
