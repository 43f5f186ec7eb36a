import Mathlib.Data.List.Basic
import Mathlib.Data.Int.Order.Basic
import Mathlib.Order.Basic

/-!
# `Lib.Window` — how often something may happen within a rolling window

`Capped cap width times` says that no window of the given width, wherever it ends, holds more than `cap` of
the times. A limiter keeps a list of recent uses, forgets the old ones from the front (`forget`), and allows
one more while fewer than `cap` are left: `Capped.use` is what that buys.
-/

namespace Window

variable {cap : Nat} {width : Int}

/-- The times in the window that ends at `t`. -/
def within (width t : Int) (times : List Int) : List Int := times.filter (fun x => t - width ≤ x ∧ x ≤ t)

/-- The times not yet forgotten at `t`. -/
def since (width t : Int) (times : List Int) : List Int := times.filter (fun x => t - width ≤ x)

def Capped (cap : Nat) (width : Int) (times : List Int) : Prop := ∀ t, (within width t times).length ≤ cap

/-- Forgets the uses before the window, from the front. -/
def forget (width now : Int) (uses : List Int) : List Int := uses.dropWhile (· < now - width)

theorem capped_nil (cap : Nat) (width : Int) : Capped cap width [] := fun _ => Nat.zero_le _

theorem within_append (t : Int) (xs ys : List Int) :
    within width t (xs ++ ys) = within width t xs ++ within width t ys := List.filter_append ..

theorem since_append (t : Int) (xs ys : List Int) :
    since width t (xs ++ ys) = since width t xs ++ since width t ys := List.filter_append ..

/-- What is within a window that contains `now` has not been forgotten at `now`. -/
theorem within_sublist_since {t now : Int} (h : now ≤ t) (times : List Int) :
    (within width t times).Sublist (since width now times) := by
  apply List.monotone_filter_right
  intro x hx
  have hin : t - width ≤ x ∧ x ≤ t := of_decide_eq_true hx
  exact decide_eq_true (by omega)

/-- Forgetting drops no use that the window still holds. -/
theorem since_sublist_forget (now : Int) (uses : List Int) :
    (since width now uses).Sublist (forget width now uses) := by
  induction uses with
  | nil => exact List.Sublist.refl _
  | cons x xs ih =>
    by_cases hold : x < now - width
    · have hgone : ¬ now - width ≤ x := Int.not_le.mpr hold
      have hsince : since width now (x :: xs) = since width now xs :=
        List.filter_cons_of_neg (by rw [decide_eq_true_eq]; exact hgone)
      have hforget : forget width now (x :: xs) = forget width now xs :=
        List.dropWhile_cons_of_pos (decide_eq_true hold)
      rw [hsince, hforget]
      exact ih
    · have hkept : forget width now (x :: xs) = x :: xs := by simp [forget, hold]
      rw [hkept]
      exact List.filter_sublist

/-- If the limiter has every time the window still holds, so it has after forgetting, at any later time. -/
theorem since_sublist_of_forget {t now : Int} {times uses : List Int} (hnow : t ≤ now)
    (h : (since width t times).Sublist uses) : (since width now times).Sublist (forget width now uses) := by
  have hagain : since width now (since width t times) = since width now times := by
    simp only [since, List.filter_filter]
    apply List.filter_congr
    intro x _
    have himp : now - width ≤ x → t - width ≤ x := by omega
    by_cases hx : now - width ≤ x
    · simp [hx, himp hx]
    · simp [hx]
  rw [← hagain]
  exact (h.filter _).trans (since_sublist_forget now uses)

/-- **One more use**, while the uses that are kept are fewer than the cap. -/
theorem Capped.use {times uses : List Int} {now : Int} (h : Capped cap width times)
    (hkept : (since width now times).Sublist uses) (hroom : uses.length < cap) :
    Capped cap width (times ++ [now]) := by
  intro t
  rw [within_append, List.length_append]
  by_cases hin : t - width ≤ now ∧ now ≤ t
  · -- the window at `t` holds `now`: what else is in it is among the uses that were kept at `now`
    have hle := ((within_sublist_since hin.2 times).trans hkept).length_le
    have hone : (within width t [now]).length ≤ 1 := List.length_filter_le _ _
    omega
  · have hnone : within width t [now] = [] := List.filter_cons_of_neg (by rw [decide_eq_true_eq]; exact hin)
    rw [hnone, List.length_nil, Nat.add_zero]
    exact h t

end Window
