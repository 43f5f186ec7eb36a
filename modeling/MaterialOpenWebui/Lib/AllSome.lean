import Mathlib.Data.List.Forall2

/-!
# `Lib.AllSome` — all results of a function on a list, unless one is missing

`l.mapM f` is the list of what `f` gives for each element, and `none` if it gives nothing for one of them. It is determined by
its elements (`mapM_eq_some_iff`); the other rules are uses of this.
-/

namespace AllSome

variable {α β γ : Type} {f : α → Option β}

theorem mapM_cons_eq_some_iff (a : α) (l : List α) (l' : List β) :
    (a :: l).mapM f = some l' ↔ ∃ b bs, f a = some b ∧ l.mapM f = some bs ∧ b :: bs = l' := by
  rw [List.mapM_cons]
  cases f a with
  | none => exact iff_of_false (fun h => by cases h) fun ⟨b, bs, hb, _⟩ => by cases hb
  | some b =>
    cases l.mapM f with
    | none => exact iff_of_false (fun h => by cases h) fun ⟨b, bs, _, hbs, _⟩ => by cases hbs
    | some bs =>
      constructor
      · intro h
        exact ⟨b, bs, rfl, rfl, Option.some.inj h⟩
      · rintro ⟨b', bs', hb, hbs, rfl⟩
        cases hb
        cases hbs
        rfl

theorem mapM_eq_some_iff {l : List α} {l' : List β} :
    l.mapM f = some l' ↔ List.Forall₂ (fun a b => f a = some b) l l' := by
  induction l generalizing l' with
  | nil =>
    constructor
    · intro h
      cases h
      exact List.Forall₂.nil
    · intro h
      cases h
      rfl
  | cons a l ih =>
    rw [mapM_cons_eq_some_iff, List.forall₂_cons_left_iff]
    constructor
    · rintro ⟨b, bs, hb, hbs, rfl⟩
      exact ⟨b, bs, hb, ih.mp hbs, rfl⟩
    · rintro ⟨b, bs, hb, hbs, rfl⟩
      exact ⟨b, bs, hb, ih.mpr hbs, rfl⟩

/-- There are all results, each with what is known of it. -/
theorem exists_mapM {Q : α → β → Prop} {l : List α} (h : ∀ a ∈ l, ∃ b, f a = some b ∧ Q a b) :
    ∃ l', l.mapM f = some l' ∧ List.Forall₂ Q l l' := by
  induction l with
  | nil => exact ⟨[], rfl, List.Forall₂.nil⟩
  | cons a l ih =>
    obtain ⟨b, hb, hq⟩ := h a List.mem_cons_self
    obtain ⟨bs, hbs, hqs⟩ := ih fun a' ha' => h a' (List.mem_cons_of_mem a ha')
    exact ⟨b :: bs, (mapM_cons_eq_some_iff a l _).mpr ⟨b, bs, hb, hbs, rfl⟩, List.Forall₂.cons hq hqs⟩

theorem mapM_eq_map {g : α → β} {l : List α} (h : ∀ a ∈ l, f a = some (g a)) : l.mapM f = some (l.map g) :=
  mapM_eq_some_iff.mpr (List.forall₂_map_right_iff.mpr (List.forall₂_same.mpr h))

/-- What is written and read again is what was written. -/
theorem mapM_map_eq {g : β → α} {l : List β} (h : ∀ b ∈ l, f (g b) = some b) : (l.map g).mapM f = some l :=
  mapM_eq_some_iff.mpr (List.forall₂_map_left_iff.mpr (List.forall₂_same.mpr h))

/-- What each result keeps of its element, the list keeps. -/
theorem map_of_mapM {g : β → γ} {k : α → γ} (h : ∀ a b, f a = some b → g b = k a) {l : List α} {r : List β}
    (hr : l.mapM f = some r) : r.map g = l.map k := by
  have hall := mapM_eq_some_iff.mp hr
  clear hr
  induction hall with
  | nil => rfl
  | cons hab _ ih => rw [List.map_cons, List.map_cons, ih, h _ _ hab]

theorem forall_mem_of_forall₂ {R : α → β → Prop} {l : List α} {l' : List β} (h : List.Forall₂ R l l') :
    (∀ a ∈ l, ∃ b ∈ l', R a b) ∧ ∀ b ∈ l', ∃ a ∈ l, R a b := by
  induction h with
  | nil => exact ⟨List.forall_mem_nil _, List.forall_mem_nil _⟩
  | @cons a b l l' hab _ ih =>
    constructor
    · intro a' ha'
      rcases List.mem_cons.mp ha' with rfl | ha'
      · exact ⟨b, List.mem_cons_self, hab⟩
      · obtain ⟨b', hb', hab'⟩ := ih.1 a' ha'
        exact ⟨b', List.mem_cons_of_mem _ hb', hab'⟩
    · intro b' hb'
      rcases List.mem_cons.mp hb' with rfl | hb'
      · exact ⟨a, List.mem_cons_self, hab⟩
      · obtain ⟨a', ha', hab'⟩ := ih.2 b' hb'
        exact ⟨a', List.mem_cons_of_mem _ ha', hab'⟩

/-- Every result is that of an element, and every element has one. -/
theorem mem_of_mapM {l : List α} {l' : List β} (h : l.mapM f = some l') :
    (∀ a ∈ l, ∃ b ∈ l', f a = some b) ∧ ∀ b ∈ l', ∃ a ∈ l, f a = some b :=
  forall_mem_of_forall₂ (mapM_eq_some_iff.mp h)

/-- What holds of all results, when there are any. -/
theorem forall_mapM_iff (Q : β → Prop) (l : List α) :
    (∀ l', l.mapM f = some l' → ∀ b ∈ l', Q b) ↔ ((∀ a ∈ l, (f a).isSome) → ∀ a ∈ l, ∀ b, f a = some b → Q b) := by
  constructor
  · intro h hall a ha b hb
    obtain ⟨l', hl', -⟩ := exists_mapM (Q := fun _ _ => True) fun a ha =>
      (Option.isSome_iff_exists.mp (hall a ha)).imp fun b hb => ⟨hb, trivial⟩
    obtain ⟨b', hb', hab'⟩ := (mem_of_mapM hl').1 a ha
    rw [hb, Option.some.injEq] at hab'
    exact hab' ▸ h l' hl' b' hb'
  · intro h l' hl' b hb
    have hresults := mem_of_mapM hl'
    obtain ⟨a, ha, hab⟩ := hresults.2 b hb
    refine h ?_ a ha b hab
    intro a' ha'
    obtain ⟨b', -, hab'⟩ := hresults.1 a' ha'
    exact Option.isSome_of_eq_some hab'

/-- A fold whose steps fail at the elements that are not good, and else go as `g` says. -/
theorem foldlM_eq_some_iff {σ : Type} {f : σ → α → Option σ} {g : σ → α → σ} {good : α → Prop} {I : σ → Prop}
    (hstep : ∀ s a s', I s → (f s a = some s' ↔ good a ∧ s' = g s a)) (hI : ∀ s a, I s → good a → I (g s a))
    {l : List α} {s r : σ} (hs : I s) : l.foldlM f s = some r ↔ (∀ a ∈ l, good a) ∧ r = l.foldl g s := by
  induction l generalizing s with
  | nil =>
    show some s = some r ↔ _
    rw [Option.some_inj, List.foldl_nil]
    exact ⟨fun h => ⟨fun a ha => (nomatch ha), h.symm⟩, fun h => h.2.symm⟩
  | cons a l ih =>
    rw [List.foldlM_cons, List.forall_mem_cons, List.foldl_cons]
    show (f s a).bind _ = _ ↔ _
    rw [Option.bind_eq_some_iff]
    constructor
    · rintro ⟨s', hs', hrest⟩
      obtain ⟨hgood, rfl⟩ := (hstep s a s' hs).mp hs'
      have hl := (ih (hI s a hs hgood)).mp hrest
      exact ⟨⟨hgood, hl.1⟩, hl.2⟩
    · rintro ⟨⟨hgood, hl⟩, hr⟩
      exact ⟨g s a, (hstep s a _ hs).mpr ⟨hgood, rfl⟩, (ih (hI s a hs hgood)).mpr ⟨hl, hr⟩⟩

end AllSome
