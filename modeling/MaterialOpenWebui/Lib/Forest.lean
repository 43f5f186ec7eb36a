import Mathlib.Data.List.Nodup
import Mathlib.Data.List.Perm.Subperm
import Mathlib.Logic.Relation
import Mathlib.Order.RelClasses

/-!
# `Lib.Forest` — forests given by a parent function

A forest is a partial parent function whose chains all end (`Rooted`). What an operation may do to one and
leave it a forest: hang a new leaf on it (`rooted_leaf`), hang a node with all that is below it elsewhere, not
below itself (`rooted_rehang`), cut nodes out between a node and an ancestor that becomes its parent
(`rooted_of_ancestors`, and `spliced` for a node that goes with its children), lay a forest that is closed under
parents over another (`rooted_overlay`).

`Lineage parent x l` is the chain from `x` to its root, `x` first; there is one if the chain repeats nothing and its nodes
are finitely many (`exists_lineage`).
-/

namespace Forest

variable {κ : Type} {parent parent' : κ → Option κ}

def IsParent (parent : κ → Option κ) (p c : κ) : Prop := parent c = some p

/-- `a` is above `c`, at any distance. -/
def Ancestor (parent : κ → Option κ) : κ → κ → Prop := Relation.TransGen (IsParent parent)

/-- Every chain of parents ends. -/
def Rooted (parent : κ → Option κ) : Prop := WellFounded (IsParent parent)

theorem ancestor_of_parent {p c : κ} (h : parent c = some p) : Ancestor parent p c := .single h

theorem Rooted.irrefl (h : Rooted parent) (x : κ) : ¬ Ancestor parent x x :=
  fun hx => (WellFounded.transGen h).asymmetric _ _ hx hx

/-- An ancestor is the parent, or an ancestor of the parent. -/
theorem ancestor_iff {a c : κ} :
    Ancestor parent a c ↔ ∃ p, parent c = some p ∧ (a = p ∨ Ancestor parent a p) := by
  constructor
  · intro h
    cases h with
    | single hp => exact ⟨a, hp, Or.inl rfl⟩
    | tail hap hp => exact ⟨_, hp, Or.inr hap⟩
  · rintro ⟨p, hp, rfl | hap⟩
    · exact .single hp
    · exact .tail hap hp

theorem not_ancestor_of_root {a c : κ} (h : parent c = none) : ¬ Ancestor parent a c := by
  rw [ancestor_iff]
  rintro ⟨p, hp, -⟩
  rw [h] at hp
  cases hp

/-! ## Operations -/

/-- New parents that were ancestors. -/
theorem rooted_of_ancestors (h : Rooted parent) (hsub : ∀ p c, parent' c = some p → Ancestor parent p c) :
    Rooted parent' :=
  Subrelation.wf (fun {p c} hp => hsub p c hp) (WellFounded.transGen h)

/-- A node that is nobody's parent may be given any parent but itself. -/
theorem rooted_leaf (h : Rooted parent) (leaf : κ) (hleaf : ∀ c, parent c ≠ some leaf)
    (hself : parent' leaf ≠ some leaf) (hothers : ∀ c, c ≠ leaf → parent' c = parent c) : Rooted parent' := by
  have hold : ∀ c, c ≠ leaf → Acc (IsParent parent') c := by
    intro c
    induction c using h.induction with
    | _ c ih =>
      intro hc
      refine ⟨c, fun p hp => ?_⟩
      have hp' : parent c = some p := hothers c hc ▸ hp
      exact ih p hp' (fun heq => hleaf c (heq ▸ hp'))
  refine ⟨fun c => ?_⟩
  by_cases hc : c = leaf
  · subst hc
    refine ⟨c, fun p hp => hold p ?_⟩
    rintro rfl
    exact hself hp
  · exact hold c hc

/-- A node goes, with what is below it, to a parent that is neither the node nor below it. -/
theorem rooted_rehang (h : Rooted parent) (x : κ) (hothers : ∀ c, c ≠ x → parent' c = parent c)
    (hx : ∀ p, parent' x = some p → p ≠ x ∧ ¬Ancestor parent x p) : Rooted parent' := by
  have hapart : ∀ c, c ≠ x → ¬Ancestor parent x c → Acc (IsParent parent') c := by
    intro c
    induction c using h.induction with
    | _ c ih =>
      intro hc hbelow
      refine ⟨c, fun p hp => ?_⟩
      have hp' : parent c = some p := hothers c hc ▸ hp
      refine ih p hp' ?_ ?_
      · rintro rfl
        exact hbelow (ancestor_of_parent hp')
      · exact fun hp'' => hbelow (hp''.tail hp')
  refine ⟨fun c => ?_⟩
  induction c using h.induction with
  | _ c ih =>
    refine ⟨c, fun p hp => ?_⟩
    by_cases hc : c = x
    · subst hc
      exact hapart p (hx p hp).1 (hx p hp).2
    · have hp' : parent c = some p := hothers c hc ▸ hp
      exact ih p hp'

/-- A forest closed under parents, laid over another. -/
theorem rooted_overlay {above : κ → Option κ} (new : κ → Prop) (h : Rooted parent) (hover : Rooted above)
    (hclosed : ∀ c p, new c → above c = some p → new p) (hnew : ∀ c, new c → parent' c = above c)
    (hothers : ∀ c, ¬ new c → parent' c = parent c) : Rooted parent' := by
  have hin : ∀ c, new c → Acc (IsParent parent') c := by
    intro c
    induction c using hover.induction with
    | _ c ih =>
      intro hc
      refine ⟨c, fun p hp => ?_⟩
      have hp' : above c = some p := hnew c hc ▸ hp
      exact ih p hp' (hclosed c p hc hp')
  refine ⟨fun c => ?_⟩
  induction c using h.induction with
  | _ c ih =>
    by_cases hc : new c
    · exact hin c hc
    · refine ⟨c, fun p hp => ?_⟩
      have hp' : parent c = some p := hothers c hc ▸ hp
      exact ih p hp'

/-! ## Cutting out a node with its children -/

/-- `c` is a child of a child of `a`. -/
def Grandchild (parent : κ → Option κ) (a c : κ) : Prop := ∃ p, parent p = some a ∧ parent c = some p

/-- A forest without a node and its children, with its grandchildren under its parent. -/
def Spliced (parent parent' : κ → Option κ) (x : κ) : Prop := ∀ c,
  (c = x ∨ parent c = some x → parent' c = none) ∧
  (¬ (c = x ∨ parent c = some x) → Grandchild parent x c → parent' c = parent x) ∧
  (¬ (c = x ∨ parent c = some x) → ¬ Grandchild parent x c → parent' c = parent c)

theorem Rooted.not_grandchild_self (h : Rooted parent) (x : κ) : ¬ Grandchild parent x x := by
  rintro ⟨p, hp, hx⟩
  exact h.irrefl x ((ancestor_of_parent hp).tail hx)

theorem Rooted.not_grandchild_of_child (h : Rooted parent) {x c : κ} (hc : parent c = some x) :
    ¬ Grandchild parent x c := by
  rintro ⟨p, hp, hc'⟩
  have heq : p = x := Option.some.inj (hc'.symm.trans hc)
  subst heq
  exact h.irrefl p (ancestor_of_parent hp)

/-- The parent of a node is neither the node nor one of its children. -/
theorem Rooted.parent_apart (h : Rooted parent) {x p : κ} (hp : parent x = some p) :
    ¬ (p = x ∨ parent p = some x) := by
  rintro (rfl | hpx)
  · exact h.irrefl p (ancestor_of_parent hp)
  · exact h.irrefl x ((ancestor_of_parent hpx).tail hp)

/-- The parents that are left are nodes that are left. -/
theorem Spliced.stays {x : κ} (hs : Spliced parent parent' x) (h : Rooted parent) {c p : κ}
    (hp : parent' c = some p) : ¬ (p = x ∨ parent p = some x) := by
  by_cases hout : c = x ∨ parent c = some x
  · rw [(hs c).1 hout] at hp
    cases hp
  by_cases hgrand : Grandchild parent x c
  · rw [(hs c).2.1 hout hgrand] at hp
    exact h.parent_apart hp
  · rw [(hs c).2.2 hout hgrand] at hp
    rintro (rfl | hpx)
    · exact hout (Or.inr hp)
    · exact hgrand ⟨p, hpx, hp⟩

theorem rooted_spliced {x : κ} (h : Rooted parent) (hs : Spliced parent parent' x) : Rooted parent' := by
  apply rooted_of_ancestors h
  intro p c hp
  by_cases hout : c = x ∨ parent c = some x
  · rw [(hs c).1 hout] at hp
    cases hp
  by_cases hgrand : Grandchild parent x c
  · rw [(hs c).2.1 hout hgrand] at hp
    obtain ⟨kid, hkid, hc⟩ := hgrand
    exact ((ancestor_of_parent hp).tail hkid).tail hc
  · rw [(hs c).2.2 hout hgrand] at hp
    exact ancestor_of_parent hp

/-- The children of a node that is left. -/
theorem Spliced.child_iff {x : κ} (hs : Spliced parent parent' x) (h : Rooted parent) {q : κ}
    (hq : ¬ (q = x ∨ parent q = some x)) (c : κ) :
    parent' c = some q ↔ parent c = some q ∧ c ≠ x ∨ parent x = some q ∧ Grandchild parent x c := by
  constructor
  · intro hc
    by_cases hout : c = x ∨ parent c = some x
    · rw [(hs c).1 hout] at hc
      cases hc
    by_cases hgrand : Grandchild parent x c
    · exact Or.inr ⟨(hs c).2.1 hout hgrand ▸ hc, hgrand⟩
    · exact Or.inl ⟨(hs c).2.2 hout hgrand ▸ hc, fun heq => hout (Or.inl heq)⟩
  · rintro (⟨hc, hne⟩ | ⟨hx, hgrand⟩)
    · have hout : ¬ (c = x ∨ parent c = some x) := by
        rintro (heq | hcx)
        · exact hne heq
        · exact hq (Or.inl (Option.some.inj (hc.symm.trans hcx)))
      have hgrand : ¬ Grandchild parent x c := by
        rintro ⟨kid, hkid, hck⟩
        exact hq (Or.inr (Option.some.inj (hck.symm.trans hc) ▸ hkid))
      exact ((hs c).2.2 hout hgrand).trans hc
    · have hout : ¬ (c = x ∨ parent c = some x) := by
        rintro (rfl | hcx)
        · exact h.not_grandchild_self c hgrand
        · exact h.not_grandchild_of_child hcx hgrand
      exact ((hs c).2.1 hout hgrand).trans hx

/-! ## Lineages -/

/-- The chain of parents from a node to its root. -/
inductive Lineage (parent : κ → Option κ) : κ → List κ → Prop
  | root {x : κ} (h : parent x = none) : Lineage parent x [x]
  | step {x p : κ} {l : List κ} (h : parent x = some p) (hl : Lineage parent p l) : Lineage parent x (x :: l)

theorem Rooted.lineage (h : Rooted parent) (x : κ) : ∃ l, Lineage parent x l := by
  induction x using h.induction with
  | _ x ih =>
    cases hp : parent x with
    | none => exact ⟨[x], .root hp⟩
    | some p =>
      obtain ⟨l, hl⟩ := ih p hp
      exact ⟨x :: l, .step hp hl⟩

/-- The chain is the node and its ancestors. -/
theorem Lineage.mem_iff {x : κ} {l : List κ} (h : Lineage parent x l) {a : κ} :
    a ∈ l ↔ a = x ∨ Ancestor parent a x := by
  induction h with
  | root hnone => simp [not_ancestor_of_root hnone]
  | @step x p l hp _ ih =>
    have hancestor : Ancestor parent a x ↔ a = p ∨ Ancestor parent a p := by
      rw [ancestor_iff]
      simp [hp]
    rw [List.mem_cons, ih, hancestor]

/-- Parents that are the same along the chain. -/
theorem Lineage.congr {x : κ} {l : List κ} (h : Lineage parent x l) (hsame : ∀ a ∈ l, parent' a = parent a) :
    Lineage parent' x l := by
  induction h with
  | root hnone => exact .root ((hsame _ List.mem_cons_self).trans hnone)
  | step hp _ ih =>
    exact .step ((hsame _ List.mem_cons_self).trans hp) (ih fun a ha => hsame a (List.mem_cons_of_mem _ ha))

theorem Lineage.head {x : κ} {l : List κ} (h : Lineage parent x l) : ∃ l', l = x :: l' := by
  cases h with
  | root => exact ⟨[], rfl⟩
  | step => exact ⟨_, rfl⟩

theorem Lineage.acc {x : κ} {l : List κ} (h : Lineage parent x l) : Acc (IsParent parent) x := by
  induction h with
  | root hnone =>
    refine ⟨_, fun p hp => ?_⟩
    rw [IsParent, hnone] at hp
    cases hp
  | step hp _ ih =>
    refine ⟨_, fun p hp' => ?_⟩
    rw [IsParent, hp] at hp'
    cases hp'
    exact ih

theorem Lineage.irrefl {x : κ} {l : List κ} (h : Lineage parent x l) : ¬ Ancestor parent x x := by
  intro hself
  have hacc := h.acc.transGen
  clear h
  induction hacc with
  | intro x _ ih => exact ih x hself hself

/-- A chain that ends has no node twice. -/
theorem Lineage.nodup {x : κ} {l : List κ} (h : Lineage parent x l) : l.Nodup := by
  induction h with
  | root => exact List.nodup_singleton _
  | step hp hl ih =>
    refine List.nodup_cons.mpr ⟨?_, ih⟩
    rw [hl.mem_iff]
    intro hmem
    exact (Lineage.step hp hl).irrefl (ancestor_iff.mpr ⟨_, hp, hmem⟩)

/-- A chain is no longer than a list of the nodes. -/
theorem Lineage.length_le {x : κ} {l : List κ} (h : Lineage parent x l) (nodes : List κ)
    (hin : ∀ a ∈ l, a ∈ nodes) : l.length ≤ nodes.length := (List.subperm_of_subset h.nodup hin).length_le

/-- A chain that meets no node twice comes to an end, if its nodes are among finitely many. -/
theorem exists_lineage (nodes : List κ) {x : κ} (hnodes : ∀ a, a = x ∨ Ancestor parent a x → a ∈ nodes)
    (hacyclic : ∀ a, a = x ∨ Ancestor parent a x → ¬ Ancestor parent a a) : ∃ l, Lineage parent x l := by
  have hwalk : ∀ n, ∀ y path, (y :: path).Nodup → (∀ b ∈ path, Ancestor parent y b) →
      (∀ b ∈ y :: path, b = x ∨ Ancestor parent b x) → nodes.length < (y :: path).length + n →
      ∃ l, Lineage parent y l := by
    intro n
    induction n with
    | zero =>
      intro y path hnodup _ hchain hlength
      have hle := (List.subperm_of_subset hnodup fun b hb => hnodes b (hchain b hb)).length_le
      omega
    | succ n ih =>
      intro y path hnodup hbelow hchain hlength
      cases hp : parent y with
      | none => exact ⟨[y], .root hp⟩
      | some p =>
        have hup : Ancestor parent p y := ancestor_of_parent hp
        have hpchain : p = x ∨ Ancestor parent p x := by
          rcases hchain y List.mem_cons_self with rfl | hy
          · exact Or.inr hup
          · exact Or.inr (hup.trans hy)
        have habove : ∀ b ∈ y :: path, Ancestor parent p b := by
          intro b hb
          rcases List.mem_cons.mp hb with rfl | hb
          · exact hup
          · exact hup.trans (hbelow b hb)
        have hnew : p ∉ y :: path := fun hmem => hacyclic p hpchain (habove p hmem)
        obtain ⟨l, hl⟩ := ih p (y :: path) (List.nodup_cons.mpr ⟨hnew, hnodup⟩) habove
          (fun b hb => (List.mem_cons.mp hb).elim (fun heq => heq ▸ hpchain) (hchain b))
          (by simp only [List.length_cons] at hlength ⊢; omega)
        exact ⟨y :: l, .step hp hl⟩
  exact hwalk nodes.length x [] (List.nodup_singleton x) (fun b hb => nomatch hb)
    (fun b hb => Or.inl (List.mem_singleton.mp hb)) (by simp)
/-- The chain of a node on the chain is the rest of it. -/
theorem Lineage.suffix {x : κ} {l : List κ} (h : Lineage parent x l) {a : κ} (ha : a ∈ l) :
    ∃ front back, l = front ++ back ∧ Lineage parent a back := by
  induction h with
  | root hnone =>
    rw [List.mem_singleton] at ha
    subst ha
    exact ⟨[], _, rfl, .root hnone⟩
  | @step x p l hp hl ih =>
    rcases List.mem_cons.mp ha with rfl | hmem
    · exact ⟨[], _, rfl, .step hp hl⟩
    · obtain ⟨front, back, rfl, hback⟩ := ih hmem
      exact ⟨x :: front, back, rfl, hback⟩

/-- The chain ends at a root. -/
theorem Lineage.last {x : κ} {l : List κ} (h : Lineage parent x l) : ∃ front r, l = front ++ [r] ∧ parent r = none := by
  induction h with
  | root hnone => exact ⟨[], _, rfl, hnone⟩
  | @step x p l hp _ ih =>
    obtain ⟨front, r, rfl, hr⟩ := ih
    exact ⟨x :: front, r, rfl, hr⟩

/-- Nodes whose parents are the same, and are such nodes again, have the same ancestors. -/
theorem ancestor_congr (old : κ → Prop) (hclosed : ∀ c p, old c → parent c = some p → old p)
    (hsame : ∀ c, old c → parent' c = parent c) {a c : κ} (hc : old c) (h : Ancestor parent' a c) :
    old a ∧ Ancestor parent a c := by
  induction h with
  | single hp =>
    have hp' := (hsame _ hc).symm.trans hp
    exact ⟨hclosed _ _ hc hp', .single hp'⟩
  | tail _ hp ih =>
    have hp' := (hsame _ hc).symm.trans hp
    obtain ⟨ha, hancestor⟩ := ih (hclosed _ _ hc hp')
    exact ⟨ha, hancestor.tail hp'⟩

end Forest
