import Mathlib.Algebra.Order.BigOperators.Group.List
import Mathlib.Algebra.Order.Group.Defs
import Mathlib.Algebra.Order.Group.Nat
import Mathlib.Algebra.BigOperators.Group.List.Basic
import Mathlib.Data.List.Count
import Mathlib.Data.List.Induction
import MaterialOpenWebui.Lib.Dict
import MaterialOpenWebui.Lib.Run

/-!
# `Lib.Rolling` — limiters that count every call

A limiter answers each call with whether it is limited. If a call is let through only when no more than `cap` calls,
itself among them and limited ones too, were made in the window that ends with it, then no window of that width, wherever
it lies, has more than `cap` calls that were let through (`bounded`): the last of them has counted all the others.

A limiter that counts in buckets has counted every call in the window if its buckets cover the window
(`countP_le_sum`), and what a dictionary of counts holds under distinct keys is no more than all it holds (`sum_get?_le`).
-/

namespace Rolling

/-! ## Runs of a limiter -/

variable {σ T : Type}

/-- A limiter, and the calls made to it so far, each with whether it was limited. -/
structure Logged (σ T : Type) where
  state : σ
  calls : List (T × Bool)

def call (limited : T → σ → Bool × σ) (l : Logged σ T) (t : T) : Logged σ T :=
  ⟨(limited t l.state).2, l.calls ++ [(t, (limited t l.state).1)]⟩

/-- The calls at the given times, one after the other. -/
def calls (limited : T → σ → Bool × σ) (s : σ) (times : List T) : Logged σ T := Run.run (call limited) ⟨s, []⟩ times

theorem calls_snoc (limited : T → σ → Bool × σ) (s : σ) (times : List T) (t : T) :
    calls limited s (times ++ [t]) = call limited (calls limited s times) t := Run.run_append ..

theorem times_calls (limited : T → σ → Bool × σ) (s : σ) (times : List T) :
    (calls limited s times).calls.map Prod.fst = times := by
  induction times using List.reverseRecOn with
  | nil => rfl
  | append_singleton times t ih => simp [calls_snoc, call, ih]

section
variable [AddCommGroup T] [LinearOrder T]

/-- The calls let through in the window of the given width that starts at `a`. -/
def passed (width a : T) (cs : List (T × Bool)) : List (T × Bool) :=
  cs.filter fun c => !c.2 && (a ≤ c.1 && c.1 ≤ a + width)

/-- The number of calls, let through or not, in the window that ends at `t`. -/
def recent (width t : T) (times : List T) : Nat := times.countP fun x => t ≤ x + width

variable [IsOrderedAddMonoid T]

/-- What is let through in a window that ends no earlier than `t` is recent at `t`. -/
theorem length_passed_le {width a t : T} (h : t ≤ a + width) (cs : List (T × Bool)) :
    (passed width a cs).length ≤ recent width t (cs.map Prod.fst) := by
  rw [passed, recent, List.countP_map, ← List.countP_eq_length_filter]
  apply List.countP_mono_left
  intro c _ hc
  have hstart : a ≤ c.1 := by
    simp only [Bool.and_eq_true, decide_eq_true_eq] at hc
    exact hc.2.1
  exact decide_eq_true (h.trans (add_le_add_left hstart width))

variable {limited : T → σ → Bool × σ} {cap : Nat} {width : T}

/-- **Every window is bounded** if what the limiter keeps, `I`, makes each call that is let through one of at most `cap`
    recent ones. -/
theorem bounded (ok : T → Prop) (I : σ → List T → Prop)
    (hstep : ∀ s times t, I s times → ok t → (∀ x ∈ times, x ≤ t) →
      I (limited t s).2 (times ++ [t]) ∧ ((limited t s).1 = false → recent width t (times ++ [t]) ≤ cap))
    {s : σ} (hs : I s []) {times : List T} (hok : ∀ t ∈ times, ok t) (hsorted : times.Pairwise (· ≤ ·)) :
    I (calls limited s times).state times ∧ ∀ a, (passed width a (calls limited s times).calls).length ≤ cap := by
  induction times using List.reverseRecOn with
  | nil => exact ⟨hs, fun _ => Nat.zero_le _⟩
  | append_singleton times t ih =>
    have hparts := List.pairwise_append.mp hsorted
    have hbefore : ∀ x ∈ times, x ≤ t := fun x hx => hparts.2.2 x hx t (List.mem_singleton_self t)
    have ⟨hI, hpassed⟩ := ih (fun x hx => hok x (List.mem_append_left _ hx)) hparts.1
    have ⟨hnext, hcap⟩ := hstep _ times t hI (hok t (List.mem_append_right _ (List.mem_singleton_self t))) hbefore
    rw [calls_snoc]
    refine ⟨hnext, ?_⟩
    intro a
    show (passed width a ((calls limited s times).calls ++ [(t, _)])).length ≤ cap
    cases hlimited : (limited t (calls limited s times).state).1 with
    | false =>
      by_cases hin : t ≤ a + width
      · -- the newest call of the window has counted all the others
        refine (length_passed_le hin _).trans ?_
        rw [List.map_append, times_calls]
        exact hcap hlimited
      · have hout : passed width a [(t, false)] = [] := by simp [passed, hin]
        have hsame : passed width a ((calls limited s times).calls ++ [(t, false)]) =
            passed width a (calls limited s times).calls := by
          rw [passed, List.filter_append]
          show _ ++ passed width a [(t, false)] = _
          rw [hout, List.append_nil]
          rfl
        rw [hsame]
        exact hpassed a
    | true =>
      have hsame : passed width a ((calls limited s times).calls ++ [(t, true)]) =
          passed width a (calls limited s times).calls := by
        simp [passed, List.filter_append]
      rw [hsame]
      exact hpassed a

end

/-! ## Counting in buckets -/

/-- What a list holds of a property is at most what it holds of it, bucket by bucket. -/
theorem countP_le_sum {β : Type} [DecidableEq β] (bucket : T → β) {p : T → Bool} {bs : List β} {xs : List T}
    (h : ∀ x ∈ xs, p x = true → bucket x ∈ bs) :
    xs.countP p ≤ (bs.map fun b => xs.countP fun x => bucket x = b).sum := by
  induction xs with
  | nil => simp
  | cons x xs ih =>
    have hrest := ih (fun y hy => h y (List.mem_cons_of_mem x hy))
    have hsplit : (bs.map fun b => (x :: xs).countP fun y => bucket y = b).sum =
        (bs.map fun b => xs.countP fun y => bucket y = b).sum +
          (bs.map fun b => if bucket x = b then 1 else 0).sum := by
      rw [← List.sum_map_add]
      simp [List.countP_cons]
    rw [hsplit, List.countP_cons]
    by_cases hx : p x = true
    · have hmem := h x (List.mem_cons_self ..) hx
      have hone : 1 ≤ (bs.map fun b => if bucket x = b then 1 else 0).sum :=
        List.single_le_sum (fun _ _ => Nat.zero_le _) 1 (List.mem_map.mpr ⟨bucket x, hmem, if_pos rfl⟩)
      rw [if_pos hx]
      omega
    · rw [if_neg hx]
      omega

/-- Adding up what is there, where what is missing counts nothing. -/
theorem sum_filterMap_id {β : Type} {f : β → Option Nat} {n : β → Nat} {bs : List β}
    (h : ∀ b ∈ bs, (f b).getD 0 = n b) : ((bs.map f).filterMap id).sum = (bs.map n).sum := by
  induction bs with
  | nil => rfl
  | cons b bs ih =>
    have hrest := ih (fun b' hb' => h b' (List.mem_cons_of_mem b hb'))
    have hb := h b (List.mem_cons_self ..)
    rw [List.map_cons, List.map_cons, List.sum_cons, ← hrest, ← hb]
    cases hf : f b with
    | none => simp
    | some m => simp

end Rolling

namespace Dict

/-- What the items hold under distinct keys is at most all they hold. -/
theorem sum_lookup_le {κ : Type} [DecidableEq κ] (items : List (κ × Nat)) {ks : List κ} (hks : ks.Nodup) :
    (ks.map fun k => (lookup items k).getD 0).sum ≤ (items.map Prod.snd).sum := by
  induction items generalizing ks with
  | nil => simp [lookup]
  | cons p items ih =>
    by_cases hk : p.1 ∈ ks
    · have hperm := List.perm_cons_erase hk
      rw [(hperm.map _).sum_eq, List.map_cons, List.sum_cons, List.map_cons, List.sum_cons, lookup_cons, if_pos rfl]
      have hrest : ((ks.erase p.1).map fun k => (lookup (p :: items) k).getD 0) =
          (ks.erase p.1).map fun k => (lookup items k).getD 0 := by
        apply List.map_congr_left
        intro k hmem
        have hne : k ≠ p.1 := (hks.mem_erase_iff.mp hmem).1
        rw [lookup_cons, if_neg hne]
      rw [hrest]
      exact Nat.add_le_add_left (ih (hks.erase _)) p.2
    · have hrest : (ks.map fun k => (lookup (p :: items) k).getD 0) = ks.map fun k => (lookup items k).getD 0 := by
        apply List.map_congr_left
        intro k hmem
        have hne : k ≠ p.1 := fun heq => hk (heq ▸ hmem)
        rw [lookup_cons, if_neg hne]
      rw [hrest, List.map_cons, List.sum_cons]
      exact (ih hks).trans (Nat.le_add_left _ _)

theorem sum_get?_le {κ : Type} [DecidableEq κ] (d : Dict κ Nat) {ks : List κ} (hks : ks.Nodup) :
    (ks.map fun k => (d.get? k).getD 0).sum ≤ (d.items.map Prod.snd).sum := sum_lookup_le d.items hks

end Dict
