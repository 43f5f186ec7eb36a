import Mathlib.Data.List.Forall2
import Mathlib.Data.List.Induction

/-!
# `Lib.HashChain` — lists whose entries carry the hash of the entry before

A record in a hash chain carries a parent, its own hash, and content that its hash is computed from. The
chain is linked when every parent is the hash before it and every hash is the recomputed one. Nothing here
says how a hash is computed or what an entry contains.
-/

namespace HashChain

variable {α β : Type}

/-- How entries of type `α` carry hashes of type `β`. -/
structure Scheme (α β : Type) where
  /-- The hash an entry says it follows. -/
  parent : α → β
  /-- The hash an entry carries. -/
  hash : α → β
  /-- The hash its content has. -/
  digest : α → β

variable (S : Scheme α β)

/-- The entries follow one another from `p`, and each carries the hash of its content. -/
def Linked : β → List α → Prop
  | _, [] => True
  | p, e :: es => S.parent e = p ∧ S.hash e = S.digest e ∧ Linked (S.hash e) es

/-- The hash a further entry has to name as its parent. -/
def tip : β → List α → β
  | p, [] => p
  | _, e :: es => tip (S.hash e) es

variable {S}

theorem tip_append (p : β) (l m : List α) : tip S p (l ++ m) = tip S (tip S p l) m := by
  induction l generalizing p with
  | nil => rfl
  | cons e l ih => exact ih (S.hash e)

/-- The tip of a nonempty list is its last entry's hash, wherever the list starts. -/
theorem tip_eq_getLast? (p : β) (l : List α) : tip S p l = (l.getLast?.map S.hash).getD p := by
  induction l generalizing p with
  | nil => rfl
  | cons e l ih =>
    rw [tip, ih, List.getLast?_cons]
    cases l.getLast? <;> rfl

theorem linked_append (p : β) (l m : List α) :
    Linked S p (l ++ m) ↔ Linked S p l ∧ Linked S (tip S p l) m := by
  induction l generalizing p with
  | nil => simp [Linked, tip]
  | cons e l ih => simp only [List.cons_append, Linked, tip, ih, and_assoc]

/-- Appending a well-formed entry keeps the chain. -/
theorem Linked.concat {p : β} {l : List α} {e : α} (h : Linked S p l) (hp : S.parent e = tip S p l)
    (he : S.hash e = S.digest e) : Linked S p (l ++ [e]) :=
  (linked_append p l [e]).mpr ⟨h, hp, he, trivial⟩

theorem Linked.hash_eq {p : β} {l : List α} (h : Linked S p l) : ∀ e ∈ l, S.hash e = S.digest e := by
  induction l generalizing p with
  | nil => intro e he; exact absurd he List.not_mem_nil
  | cons a l ih =>
    intro e he
    rcases List.mem_cons.mp he with rfl | he
    · exact h.2.1
    · exact ih h.2.2 e he

/-- A list translated without change to what the chain reads is linked as it was. -/
theorem linked_map_iff {γ : Type} {T : Scheme γ β} {f : α → γ} {p : β} {l : List α}
    (hp : ∀ e ∈ l, T.parent (f e) = S.parent e) (hh : ∀ e ∈ l, T.hash (f e) = S.hash e)
    (hd : ∀ e ∈ l, T.digest (f e) = S.digest e) : Linked T p (l.map f) ↔ Linked S p l := by
  induction l generalizing p with
  | nil => exact Iff.rfl
  | cons e l ih =>
    have hrest := ih (p := S.hash e) (fun a ha => hp a (by simp [ha])) (fun a ha => hh a (by simp [ha]))
      (fun a ha => hd a (by simp [ha]))
    simp only [List.map_cons, Linked, hp e (by simp), hh e (by simp), hd e (by simp), hrest]

/-- A nonempty chain names its own start. -/
theorem Linked.start_unique {p q : β} {l : List α} (hne : l ≠ []) (hp : Linked S p l)
    (hq : Linked S q l) : p = q := by
  cases l with
  | nil => exact absurd rfl hne
  | cons e l => exact hp.1.symm.trans hq.1

/-- Re-seal a list from `p`, giving each entry the hash of the one before as its parent. -/
def relink (S : Scheme α β) (f : β → α → α) : β → List α → List α
  | _, [] => []
  | p, e :: es => f p e :: relink S f (S.hash (f p e)) es

theorem length_relink (f : β → α → α) (p : β) (l : List α) : (relink S f p l).length = l.length := by
  induction l generalizing p with
  | nil => rfl
  | cons e l ih => simp [relink, ih]

/-- A field that re-sealing leaves alone is left alone along the whole list. -/
theorem map_relink {γ : Type} (g : α → γ) {f : β → α → α} (hg : ∀ p e, g (f p e) = g e) (p : β)
    (l : List α) : (relink S f p l).map g = l.map g := by
  induction l generalizing p with
  | nil => rfl
  | cons e l ih => simp [relink, ih, hg]

theorem linked_relink {f : β → α → α} (hp : ∀ p e, S.parent (f p e) = p)
    (hh : ∀ p e, S.hash (f p e) = S.digest (f p e)) (p : β) (l : List α) :
    Linked S p (relink S f p l) := by
  induction l generalizing p with
  | nil => trivial
  | cons e l ih => exact ⟨hp p e, hh p e, ih _⟩

/-! ## Tamper evidence -/

/-- The tip of a chain is its start only if the chain is empty, when no entry hashes to the start. -/
theorem Linked.eq_nil_of_tip {g : β} {l : List α} (h : Linked S g l)
    (hg : ∀ e ∈ l, S.digest e ≠ g) (ht : tip S g l = g) : l = [] := by
  cases hl : l.getLast? with
  | none => exact List.getLast?_eq_none_iff.mp hl
  | some e =>
    have he : e ∈ l := List.mem_of_getLast? hl
    have htip : tip S g l = S.hash e := by rw [tip_eq_getLast?, hl]; rfl
    rw [htip, h.hash_eq e he] at ht
    exact absurd ht (hg e he)

/-- **Equal tips, equal content.** Two chains from one start with the same tip have equally many entries,
    equal in everything the digest depends on. The induction runs from the newest entry back: equal hashes
    give equal content, and equal content names the same parent. -/
theorem Linked.agree {κ : Type} (key : α → κ) {g : β} : ∀ {l m : List α},
    (∀ a ∈ l, ∀ b ∈ m, S.digest a = S.digest b → key a = key b) →
    (∀ a ∈ l, ∀ b ∈ m, key a = key b → S.parent a = S.parent b) →
    (∀ a ∈ l, S.digest a ≠ g) → (∀ b ∈ m, S.digest b ≠ g) →
    Linked S g l → Linked S g m → tip S g l = tip S g m →
    List.Forall₂ (fun a b => key a = key b) l m := by
  intro l
  induction l using List.reverseRecOn with
  | nil =>
    intro m _ _ _ hgm _ hm ht
    rw [hm.eq_nil_of_tip hgm ht.symm]
    exact .nil
  | append_singleton l a ih =>
    intro m hkey hpar hgl hgm hl hm ht
    rcases List.eq_nil_or_concat m with rfl | ⟨m, b, rfl⟩
    · exact absurd (hl.eq_nil_of_tip hgl ht) (by simp)
    · rw [List.concat_eq_append] at *
      obtain ⟨hl', hal⟩ := (linked_append g l [a]).mp hl
      obtain ⟨hm', hbm⟩ := (linked_append g m [b]).mp hm
      have hhash : S.hash a = S.hash b := by
        rw [tip_append, tip_append] at ht
        exact ht
      have hdig : S.digest a = S.digest b := by
        rw [← hal.2.1, ← hbm.2.1]
        exact hhash
      have hab : key a = key b := hkey a (by simp) b (by simp) hdig
      have htip : tip S g l = tip S g m := by
        rw [← hal.1, ← hbm.1]
        exact hpar a (by simp) b (by simp) hab
      have hrest := ih (fun x hx y hy => hkey x (by simp [hx]) y (by simp [hy]))
        (fun x hx y hy => hpar x (by simp [hx]) y (by simp [hy]))
        (fun x hx => hgl x (by simp [hx])) (fun y hy => hgm y (by simp [hy])) hl' hm' htip
      exact List.rel_append hrest (.cons hab .nil)

end HashChain
