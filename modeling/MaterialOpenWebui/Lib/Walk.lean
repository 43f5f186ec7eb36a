import MaterialOpenWebui.Lib.Forest

/-!
# `Lib.Walk` — walks over a graph that is given by its successors

Two ways to go through what is below a node, and why both end where the graph has no cycle and all successors
are among finitely many nodes. A recursion into the successors goes no deeper than there are nodes (`Deep`,
`deep_of_acyclic`). A loop over a stack, to which the successors of every node that is taken off are added, takes
every node off at most once if no node has two predecessors (`walk_spec`).
-/

namespace Walk

variable {κ : Type}

/-- `b` is a successor of `a`. -/
def Edge (next : κ → List κ) (a b : κ) : Prop := b ∈ next a

/-- One or more edges. -/
def Below (next : κ → List κ) : κ → κ → Prop := Relation.TransGen (Edge next)

def Acyclic (next : κ → List κ) : Prop := ∀ a, ¬Below next a a

/-- From parents to children. -/
theorem acyclic_down {parent : κ → Option κ} (h : Forest.Rooted parent) {next : κ → List κ}
    (hnext : ∀ a b, b ∈ next a → parent b = some a) : Acyclic next := by
  have hancestor : ∀ a b, Below next a b → Forest.Ancestor parent a b := by
    intro a b hbelow
    induction hbelow with
    | single hedge => exact .single (hnext _ _ hedge)
    | tail _ hedge ih => exact ih.tail (hnext _ _ hedge)
  exact fun a hbelow => h.irrefl a (hancestor a a hbelow)

/-- From children to parents. -/
theorem acyclic_up {parent : κ → Option κ} (h : Forest.Rooted parent) {next : κ → List κ}
    (hnext : ∀ a b, b ∈ next a → parent a = some b) : Acyclic next := by
  have hancestor : ∀ a b, Below next a b → Forest.Ancestor parent b a := by
    intro a b hbelow
    induction hbelow with
    | single hedge => exact .single (hnext _ _ hedge)
    | tail _ hedge ih => exact .head (hnext _ _ hedge) ih
  exact fun a hbelow => h.irrefl a (hancestor a a hbelow)

/-! ## Recursion -/

/-- No path from the node has more than `n` nodes. -/
def Deep (next : κ → List κ) : Nat → κ → Prop
  | 0, _ => False
  | n + 1, a => ∀ b ∈ next a, Deep next n b

theorem Deep.mono {next next' : κ → List κ} (hsub : ∀ a, next' a ⊆ next a) {n : Nat} {a : κ} (h : Deep next n a) :
    Deep next' n a := by
  induction n generalizing a with
  | zero => exact h
  | succ n ih => exact fun b hb => ih (h b (hsub a hb))

/-- Below a node whose path has `path.length` nodes there are no more than the others. -/
theorem deep_of_path {next : κ → List κ} (hacyclic : Acyclic next) {nodes : List κ} (hnodes : ∀ a, next a ⊆ nodes)
    {n : Nat} {a : κ} {path : List κ} (hpath : (a :: path).Nodup) (habove : ∀ b ∈ path, Below next b a)
    (hin : a :: path ⊆ nodes) (hlength : nodes.length < (a :: path).length + n) : Deep next n a := by
  induction n generalizing a path with
  | zero =>
    have hle := (List.subperm_of_subset hpath hin).length_le
    omega
  | succ n ih =>
    intro b hb
    have hbelow : ∀ c ∈ a :: path, Below next c b := by
      intro c hc
      rcases List.mem_cons.mp hc with rfl | hc
      · exact .single hb
      · exact (habove c hc).tail hb
    have hpath' : (b :: a :: path).Nodup := List.nodup_cons.mpr ⟨fun hmem => hacyclic b (hbelow b hmem), hpath⟩
    refine ih hpath' hbelow ?_ ?_
    · exact List.cons_subset.mpr ⟨hnodes a hb, hin⟩
    · rw [List.length_cons]
      omega

theorem deep_of_acyclic {next : κ → List κ} (hacyclic : Acyclic next) {nodes : List κ} (hnodes : ∀ a, next a ⊆ nodes)
    (a : κ) : Deep next (nodes.length + 1) a := by
  intro b hb
  refine deep_of_path hacyclic hnodes (List.nodup_singleton b) (fun c hc => nomatch hc) ?_ (by simp)
  exact List.cons_subset.mpr ⟨hnodes a hb, List.nil_subset _⟩

/-! ## The stack -/

/-- The node on top is taken off, and its successors are put on the stack and noted. -/
def walk (next : κ → List κ) : Nat → List κ → List κ → Option (List κ)
  | 0, _, _ => none
  | _ + 1, [], noted => some noted
  | fuel + 1, a :: stack, noted => walk next fuel ((next a).reverse ++ stack) (noted ++ next a)

/-- What is on the stack and what is noted, in a walk that started at `start`. -/
structure Walked (next : κ → List κ) (start : κ) (stack noted : List κ) : Prop where
  stack_nodup : stack.Nodup
  noted_nodup : noted.Nodup
  start_noted : start ∈ noted
  stack_noted : stack ⊆ noted
  below : ∀ a ∈ noted, a = start ∨ Below next start a
  /-- what is noted beside the start came with a predecessor that was taken off -/
  pred : ∀ a ∈ noted, a = start ∨ ∃ b ∈ noted, b ∉ stack ∧ a ∈ next b
  /-- what was taken off has its successors noted -/
  closed : ∀ a ∈ noted, a ∉ stack → next a ⊆ noted
  /-- what is on the stack has none of them noted yet -/
  fresh : ∀ a ∈ stack, ∀ b ∈ next a, b ∉ noted

theorem walked_start {next : κ → List κ} (hacyclic : Acyclic next) (start : κ) : Walked next start [start] [start] where
  stack_nodup := List.nodup_singleton _
  noted_nodup := List.nodup_singleton _
  start_noted := List.mem_singleton_self _
  stack_noted := List.Subset.refl _
  below := by
    intro a ha
    exact Or.inl (List.mem_singleton.mp ha)
  pred := by
    intro a ha
    exact Or.inl (List.mem_singleton.mp ha)
  closed := fun a ha hnot => absurd ha hnot
  fresh := by
    intro a ha b hb hnoted
    rw [List.mem_singleton] at ha hnoted
    subst ha hnoted
    exact hacyclic b (.single hb)

section
variable {next : κ → List κ} (hacyclic : Acyclic next) (hnodup : ∀ a, (next a).Nodup)
  (honce : ∀ a b c, c ∈ next a → c ∈ next b → a = b)
include hacyclic hnodup honce

/-- **One node is taken off.** -/
theorem Walked.pop {start a : κ} {stack noted : List κ} (h : Walked next start (a :: stack) noted) :
    Walked next start ((next a).reverse ++ stack) (noted ++ next a) := by
  obtain ⟨ha, hstack⟩ := List.nodup_cons.mp h.stack_nodup
  have hfresh := h.fresh a List.mem_cons_self
  have hnoted : a ∈ noted := h.stack_noted List.mem_cons_self
  have hbelow : ∀ b ∈ next a, Below next start b := by
    intro b hb
    rcases h.below a hnoted with rfl | hstart
    · exact .single hb
    · exact hstart.tail hb
  have hnew : ∀ b ∈ next a, b ∉ stack := fun b hb hmem => hfresh b hb (h.stack_noted (List.mem_cons_of_mem a hmem))
  constructor
  · rw [List.nodup_append', List.nodup_reverse]
    exact ⟨hnodup a, hstack, fun b hb => hnew b (List.mem_reverse.mp hb)⟩
  · rw [List.nodup_append']
    exact ⟨h.noted_nodup, hnodup a, fun b hb hb' => hfresh b hb' hb⟩
  · exact List.mem_append_left _ h.start_noted
  · intro b hb
    rcases List.mem_append.mp hb with hb | hb
    · exact List.mem_append_right _ (List.mem_reverse.mp hb)
    · exact List.mem_append_left _ (h.stack_noted (List.mem_cons_of_mem a hb))
  · intro b hb
    rcases List.mem_append.mp hb with hb | hb
    · exact h.below b hb
    · exact Or.inr (hbelow b hb)
  · -- the node itself is off the stack now, and is no successor of itself
    have hoff : a ∉ (next a).reverse ++ stack := by
      rw [List.mem_append, List.mem_reverse, not_or]
      exact ⟨fun hself => hacyclic a (.single hself), ha⟩
    intro b hb
    rcases List.mem_append.mp hb with hb | hb
    · refine (h.pred b hb).imp_right ?_
      rintro ⟨c, hc, hcoff, hbc⟩
      refine ⟨c, List.mem_append_left _ hc, ?_, hbc⟩
      rw [List.mem_append, List.mem_reverse, not_or]
      exact ⟨fun hca => hfresh c hca hc, fun hcs => hcoff (List.mem_cons_of_mem a hcs)⟩
    · exact Or.inr ⟨a, List.mem_append_left _ hnoted, hoff, hb⟩
  · intro b hb hnot
    rw [List.mem_append, List.mem_reverse, not_or] at hnot
    have hb' : b ∈ noted := (List.mem_append.mp hb).resolve_right hnot.1
    by_cases hba : b = a
    · subst hba
      exact fun c hc => List.mem_append_right _ hc
    · have hoff : b ∉ a :: stack := by
        rw [List.mem_cons, not_or]
        exact ⟨hba, hnot.2⟩
      exact fun c hc => List.mem_append_left _ (h.closed b hb' hoff hc)
  · intro b hb c hc hmem
    rcases List.mem_append.mp hb with hb | hb
    · -- a successor of a successor is below it, so neither noted before nor a successor itself
      have hb' : b ∈ next a := List.mem_reverse.mp hb
      rcases List.mem_append.mp hmem with hmem | hmem
      · rcases h.pred c hmem with rfl | ⟨p, hp, -, hpc⟩
        · exact hacyclic c ((hbelow b hb').tail hc)
        · exact hfresh b hb' (honce b p c hc hpc ▸ hp)
      · have heq := honce a b c hmem hc
        subst heq
        exact hacyclic a (.single hb')
    · have hb' : b ∈ a :: stack := List.mem_cons_of_mem a hb
      rcases List.mem_append.mp hmem with hmem | hmem
      · exact h.fresh b hb' c hc hmem
      · have heq := honce a b c hmem hc
        subst heq
        exact ha hb

/-- **The walk ends**, having noted the start and what is below it, everything once. -/
theorem walk_spec {nodes : List κ} (hnodes : ∀ a, next a ⊆ nodes) {start : κ} (hstart : start ∈ nodes) :
    ∃ noted, walk next (nodes.length + 1) [start] [start] = some noted ∧ noted.Nodup ∧
      ∀ a, a ∈ noted ↔ a = start ∨ Below next start a := by
  suffices hloop : ∀ fuel stack noted, Walked next start stack noted → noted ⊆ nodes →
      nodes.length - noted.length + stack.length < fuel →
      ∃ result, walk next fuel stack noted = some result ∧ Walked next start [] result by
    obtain ⟨noted, hwalk, hdone⟩ := hloop (nodes.length + 1) [start] [start] (walked_start hacyclic start)
      (List.cons_subset.mpr ⟨hstart, List.nil_subset _⟩) (by
        have hpos := List.length_pos_of_mem hstart
        simp only [List.length_singleton]
        omega)
    refine ⟨noted, hwalk, hdone.noted_nodup, fun a => ⟨hdone.below a, ?_⟩⟩
    rintro (rfl | hbelow)
    · exact hdone.start_noted
    · -- what is noted is closed under successors
      induction hbelow with
      | single hedge => exact hdone.closed _ hdone.start_noted List.not_mem_nil hedge
      | tail _ hedge ih => exact hdone.closed _ ih List.not_mem_nil hedge
  intro fuel
  induction fuel with
  | zero => exact fun stack noted _ _ hlt => absurd hlt (Nat.not_lt_zero _)
  | succ fuel ih =>
    intro stack noted hwalked hin hlt
    cases stack with
    | nil => exact ⟨noted, rfl, hwalked⟩
    | cons a stack =>
      have hpop := hwalked.pop hacyclic hnodup honce
      have hin' : noted ++ next a ⊆ nodes := List.append_subset.mpr ⟨hin, hnodes a⟩
      have hle := (List.subperm_of_subset hpop.noted_nodup hin').length_le
      refine ih _ _ hpop hin' ?_
      simp only [List.length_append, List.length_reverse, List.length_cons] at hle hlt ⊢
      omega

end

/-! ## One successor -/

section
variable (next : κ → Option κ) (ok : κ → Bool)

/-- Zero or more links. -/
def Reaches : κ → κ → Prop := Relation.ReflTransGen fun a b => next a = some b

/-- What has been seen is in order, but for the start, and so is the way from it. -/
structure Followed (start : κ) (seen : List κ) (current : Option κ) : Prop where
  start_seen : start ∈ seen
  in_order : ∀ a ∈ seen, a = start ∨ ok a = true
  linked : ∀ a ∈ seen, ∀ b, next a = some b → b ∈ seen ∨ current = some b
  reached : ∀ a, a ∈ seen ∨ current = some a → Reaches next start a

variable {next ok}

theorem followed_start (start : κ) : Followed next ok start [start] (next start) := by
  refine ⟨List.mem_singleton_self start, ?_, ?_, ?_⟩
  · intro a ha
    exact Or.inl (List.mem_singleton.mp ha)
  · intro a ha b hb
    rw [List.mem_singleton.mp ha] at hb
    exact Or.inr hb
  · rintro a (ha | ha)
    · rw [List.mem_singleton.mp ha]
      exact .refl
    · exact .single ha

theorem Followed.step {start a : κ} {seen : List κ} (h : Followed next ok start seen (some a)) (hok : ok a = true) :
    Followed next ok start (a :: seen) (next a) := by
  have ha : Reaches next start a := h.reached a (Or.inr rfl)
  refine ⟨List.mem_cons_of_mem a h.start_seen, ?_, ?_, ?_⟩
  · intro b hb
    rcases List.mem_cons.mp hb with rfl | hb
    · exact Or.inr hok
    · exact h.in_order b hb
  · intro b hb c hc
    rcases List.mem_cons.mp hb with rfl | hb
    · exact Or.inr hc
    · rcases h.linked b hb c hc with hseen | heq
      · exact Or.inl (List.mem_cons_of_mem a hseen)
      · cases heq
        exact Or.inl List.mem_cons_self
  · rintro b (hb | hb)
    · rcases List.mem_cons.mp hb with rfl | hb
      · exact ha
      · exact h.reached b (Or.inl hb)
    · exact ha.tail hb

/-- Where the walk goes on to nothing new, it has seen everything below the start. -/
theorem Followed.closed {start : κ} {seen : List κ} {current : Option κ} (h : Followed next ok start seen current)
    (hdone : ∀ a, current = some a → a ∈ seen) {b : κ} (hb : Reaches next start b) : b ∈ seen := by
  induction hb with
  | refl => exact h.start_seen
  | tail _ hlink ih => exact (h.linked _ ih _ hlink).elim id (hdone _)

variable [DecidableEq κ]

/-- From one node to the next, until there is none, one has been seen, or one is not in order. -/
def follow (next : κ → Option κ) (ok : κ → Bool) : Nat → List κ → Option κ → Option Bool
  | 0, _, _ => none
  | _ + 1, _, none => some true
  | fuel + 1, seen, some a =>
      if a ∈ seen then some true
      else if ok a then follow next ok fuel (a :: seen) (next a)
      else some false

theorem follow_spec {start : κ} (fuel : Nat) {seen : List κ} {current : Option κ}
    (h : Followed next ok start seen current) {b : Bool} (hb : follow next ok fuel seen current = some b) :
    b = true ↔ ∀ a, Reaches next start a → a = start ∨ ok a = true := by
  induction fuel generalizing seen current with
  | zero => cases hb
  | succ fuel ih =>
    cases current with
    | none =>
      cases hb
      exact iff_of_true rfl fun a ha => h.in_order a (h.closed nofun ha)
    | some a =>
      rw [follow] at hb
      split at hb
      · rename_i hseen
        cases hb
        have hdone : ∀ c, some a = some c → c ∈ seen := fun c hc => Option.some.inj hc ▸ hseen
        exact iff_of_true rfl fun c hc => h.in_order c (h.closed hdone hc)
      · rename_i hnew
        split at hb
        · rename_i hok
          exact ih (h.step hok) hb
        · rename_i hok
          cases hb
          -- the node that is not in order is not the start, which has been seen
          refine iff_of_false Bool.false_ne_true fun hall => ?_
          rcases hall a (h.reached a (Or.inr rfl)) with rfl | hall
          · exact hnew h.start_seen
          · exact hok hall

/-- **The walk ends** if all nodes that are in order are among finitely many. -/
theorem follow_isSome {nodes : List κ} (hnodes : ∀ a, ok a = true → a ∈ nodes) (fuel : Nat) {seen : List κ}
    (hfuel : (nodes.filter fun a => decide (a ∉ seen)).length < fuel) (current : Option κ) :
    (follow next ok fuel seen current).isSome = true := by
  induction fuel generalizing seen current with
  | zero => exact absurd hfuel (Nat.not_lt_zero _)
  | succ fuel ih =>
    cases current with
    | none => rfl
    | some a =>
      rw [follow]
      split
      · rfl
      · rename_i hnew
        split
        · rename_i hok
          refine ih (Nat.lt_of_lt_of_le ?_ (Nat.lt_succ_iff.mp hfuel)) (next a)
          -- the node is no longer among those that have not been seen
          have hsub : (nodes.filter fun b => decide (b ∉ a :: seen)).Sublist
            (nodes.filter fun b => decide (b ∉ seen)) := by
            refine List.monotone_filter_right nodes fun b hb => ?_
            rw [decide_eq_true_iff] at hb ⊢
            exact fun hmem => hb (List.mem_cons_of_mem a hmem)
          refine Nat.lt_of_le_of_ne hsub.length_le fun heq => ?_
          have hmem : a ∈ nodes.filter fun b => decide (b ∉ seen) :=
            List.mem_filter.mpr ⟨hnodes a hok, decide_eq_true hnew⟩
          rw [← hsub.eq_of_length heq] at hmem
          exact of_decide_eq_true (List.mem_filter.mp hmem).2 List.mem_cons_self
        · rfl

/-- **A walk with what has been seen** says whether all below its start, other than the start, is in order. -/
theorem follow_iff {nodes : List κ} (hnodes : ∀ a, ok a = true → a ∈ nodes) (start : κ) :
    ∃ b, follow next ok (nodes.length + 1) [start] (next start) = some b ∧
      (b = true ↔ ∀ a, Reaches next start a → a = start ∨ ok a = true) := by
  have hfuel : (nodes.filter fun a => decide (a ∉ [start])).length < nodes.length + 1 :=
    Nat.lt_succ_of_le (List.length_filter_le _ _)
  obtain ⟨b, hb⟩ := Option.isSome_iff_exists.mp (follow_isSome hnodes _ hfuel (next start))
  exact ⟨b, hb, follow_spec _ (followed_start start) hb⟩

end

end Walk
