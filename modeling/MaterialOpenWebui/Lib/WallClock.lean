import Mathlib.Order.Basic

/-!
# `Lib.WallClock` — readings of a clock that is set forward and back

A clock shows an instant moved by an offset, and the offset changes from time to time. Where it grows, readings are
skipped; where it shrinks, readings are shown twice. A reading is taken for an instant by one rule: the first at which the
clock shows it, and for a skipped reading as if the clock had not been set. So a later reading may be taken for an
earlier instant, but only across a skip (`instantOf_lt_iff`).
-/

namespace WallClock

/-! ## Clocks -/

/-- The offset at an instant: the one before the changes, or that of the last change up to then. -/
def offsetAt (before : Int) : List (Int × Int) → Int → Int
  | [], _ => before
  | c :: cs, t => if t < c.1 then before else offsetAt c.2 cs t

/-- Between two changes there is at least as much time as both move the clock. -/
def Spaced (before : Int) : List (Int × Int) → Prop
  | [] => True
  | [_] => True
  | c :: d :: cs =>
    (c.2 - before).natAbs + (d.2 - c.2).natAbs ≤ d.1 - c.1 ∧ Spaced c.2 (d :: cs)

/-- A clock: the offset at first, and from which instant on it is which. -/
structure Zone where
  before : Int
  changes : List (Int × Int)
  spaced : Spaced before changes

/-- What a clock shows at an instant. -/
def Zone.wall (z : Zone) (t : Int) : Int := t + offsetAt z.before z.changes t

/-! ## From readings to instants -/

/-- The offset that a reading is taken with: a change counts from the later of the readings around it. -/
def offsetOf (before : Int) : List (Int × Int) → Int → Int
  | [], _ => before
  | c :: cs, d => if d < c.1 + max before c.2 then before else offsetOf c.2 cs d

def Zone.instantOf (z : Zone) (d : Int) : Int := d - offsetOf z.before z.changes d

variable {before : Int} {cs : List (Int × Int)} {c : Int × Int}

theorem Spaced.tail (h : Spaced before (c :: cs)) : Spaced c.2 cs := by
  cases cs with
  | nil => trivial
  | cons d cs => exact h.2

/-- From a change on the clock shows nothing from before. -/
theorem le_wall_of_le (h : Spaced before (c :: cs)) {t : Int} (ht : c.1 ≤ t) : c.1 + c.2 ≤ t + offsetAt c.2 cs t := by
  induction cs generalizing before c with
  | nil =>
    rw [offsetAt]
    omega
  | cons d cs ih =>
    obtain ⟨hspace, hrest⟩ := h
    rw [offsetAt]
    split
    · omega
    · rename_i hd
      have hlater := ih hrest (Int.not_lt.mp hd)
      omega

/-- A reading from after a change is taken for an instant after it. -/
theorem le_instantOf_of_le (h : Spaced before (c :: cs)) {d : Int} (hd : c.1 + max before c.2 ≤ d) :
    c.1 ≤ d - offsetOf c.2 cs d := by
  induction cs generalizing before c with
  | nil =>
    rw [offsetOf]
    omega
  | cons e cs ih =>
    obtain ⟨hspace, hrest⟩ := h
    rw [offsetOf]
    split
    · omega
    · rename_i he
      have hlater := ih hrest (Int.not_lt.mp he)
      omega

/-- A reading from after a change is taken with its offset, or is past the time that is kept after it. -/
theorem offsetOf_cases (h : Spaced before (c :: cs)) (d : Int) :
    offsetOf c.2 cs d = c.2 ∨
      c.1 + (c.2 - before).natAbs ≤ d - offsetOf c.2 cs d ∧ c.1 + (c.2 - before).natAbs + c.2 ≤ d := by
  cases cs with
  | nil => exact Or.inl rfl
  | cons e cs =>
    obtain ⟨hspace, hrest⟩ := h
    rw [offsetOf]
    split
    · exact Or.inl rfl
    · rename_i he
      have hlate := le_instantOf_of_le hrest (Int.not_lt.mp he)
      right
      omega

/-! ## The first instant -/

/-- No earlier instant shows the reading. -/
theorem instantOf_le_of_spaced (h : Spaced before cs) {t d : Int} (hd : t + offsetAt before cs t = d) :
    d - offsetOf before cs d ≤ t := by
  induction cs generalizing before with
  | nil =>
    rw [offsetAt] at hd
    rw [offsetOf]
    omega
  | cons c cs ih =>
    rw [offsetAt] at hd
    rw [offsetOf]
    split at hd
    · split
      · omega
      · -- the reading would be one from after the change
        omega
    · rename_i ht
      have hlate := le_wall_of_le h (Int.not_lt.mp ht)
      split
      · omega
      · exact ih h.tail hd

theorem Zone.instantOf_le (z : Zone) {t d : Int} (h : z.wall t = d) : z.instantOf d ≤ t :=
  instantOf_le_of_spaced z.spaced h

/-- What the clock has not come to is shown at its instant, if that has come. -/
theorem wall_instantOf_of_spaced (h : Spaced before cs) {now d : Int} (hnow : now + offsetAt before cs now < d)
    (hd : d - offsetOf before cs d ≤ now) :
    d - offsetOf before cs d + offsetAt before cs (d - offsetOf before cs d) = d := by
  induction cs generalizing before with
  | nil =>
    rw [offsetAt] at hnow
    rw [offsetOf] at hd
    omega
  | cons c cs ih =>
    rw [offsetOf] at hd ⊢
    by_cases hbefore : d < c.1 + max before c.2
    · rw [if_pos hbefore] at hd ⊢
      rw [offsetAt] at hnow ⊢
      split
      · omega
      · -- the reading is skipped, and the clock is past the skip
        rename_i hlate
        have hshown := le_wall_of_le h (Int.le_trans (Int.not_lt.mp hlate) hd)
        split at hnow
        · omega
        · omega
    · rw [if_neg hbefore] at hd ⊢
      have hlate := le_instantOf_of_le h (Int.not_lt.mp hbefore)
      have hnowLate : ¬ now < c.1 := by omega
      rw [offsetAt, if_neg hnowLate] at hnow
      rw [offsetAt, if_neg (Int.not_lt.mpr hlate)]
      exact ih h.tail hnow hd

/-- **A reading that is to come is taken for an instant that is over exactly if the clock has shown it.** -/
theorem Zone.instantOf_le_iff (z : Zone) {now d : Int} (h : z.wall now < d) {t : Int} (ht : t ≤ now) :
    z.instantOf d ≤ t ↔ ∃ s ≤ t, z.wall s = d := by
  constructor
  · exact fun hle => ⟨z.instantOf d, hle, wall_instantOf_of_spaced z.spaced h (Int.le_trans hle ht)⟩
  · rintro ⟨s, hs, hshown⟩
    exact Int.le_trans (z.instantOf_le hshown) hs

/-! ## The order of readings -/

/-- At some change the clock is set forward from one reading to another. -/
def Skips (before : Int) : List (Int × Int) → Int → Int → Prop
  | [], _, _ => False
  | c :: cs, a, b => c.1 + before = a ∧ c.1 + c.2 = b ∧ a < b ∨ Skips c.2 cs a b

/-- A skip after a change is past the readings around it. -/
theorem le_of_skips (h : Spaced before (c :: cs)) {a b : Int} (hskip : Skips c.2 cs a b) : c.1 + max before c.2 ≤ a := by
  induction cs generalizing before c with
  | nil => exact absurd hskip not_false
  | cons d cs ih =>
    obtain ⟨hspace, hrest⟩ := h
    rcases hskip with ⟨ha, -, -⟩ | hskip
    · omega
    · have hlater := ih hrest hskip
      omega

/-- The first reading is in a skip, the second after it, and there is no more between them than was skipped. -/
def Overtakes (z : Zone) (d e : Int) : Prop :=
  ∃ a b, Skips z.before z.changes a b ∧ a ≤ d ∧ d < b ∧ b ≤ e ∧ e - d ≤ b - a

theorem instantOf_lt_of_spaced (h : Spaced before cs) {d e : Int} (hde : d < e) :
    d - offsetOf before cs d < e - offsetOf before cs e ↔
      ¬ ∃ a b, Skips before cs a b ∧ a ≤ d ∧ d < b ∧ b ≤ e ∧ e - d ≤ b - a := by
  induction cs generalizing before with
  | nil =>
    rw [offsetOf, offsetOf]
    apply iff_of_true (by omega)
    rintro ⟨a, b, hskip, -⟩
    exact hskip
  | cons c cs ih =>
    have hlaterSkip : ∀ a b, Skips c.2 cs a b → c.1 + max before c.2 ≤ a := fun a b hskip => le_of_skips h hskip
    rw [offsetOf, offsetOf]
    by_cases hd : d < c.1 + max before c.2
    · rw [if_pos hd]
      by_cases he : e < c.1 + max before c.2
      · rw [if_pos he]
        apply iff_of_true (by omega)
        rintro ⟨a, b, ⟨rfl, rfl, hab⟩ | hskip, had, hdb, hbe, hshort⟩
        · omega
        · have hlate := hlaterSkip a b hskip
          omega
      · rw [if_neg he]
        have hlate := le_instantOf_of_le h (Int.not_lt.mp he)
        by_cases hskipped : c.1 + before ≤ d
        · rcases offsetOf_cases h e with hnext | ⟨hinstant, hreading⟩
          · -- the skip decides
            rw [hnext]
            constructor
            · rintro hlt ⟨a, b, ⟨rfl, rfl, hab⟩ | hskip, had, hdb, hbe, hshort⟩
              · omega
              · have hlate := hlaterSkip a b hskip
                omega
            · intro hno
              by_contra hle
              exact hno ⟨c.1 + before, c.1 + c.2, Or.inl ⟨rfl, rfl, by omega⟩, by omega, by omega, by omega, by omega⟩
          · apply iff_of_true (by omega)
            rintro ⟨a, b, ⟨rfl, rfl, hab⟩ | hskip, had, hdb, hbe, hshort⟩
            · omega
            · have hlate := hlaterSkip a b hskip
              omega
        · apply iff_of_true (by omega)
          rintro ⟨a, b, ⟨rfl, rfl, hab⟩ | hskip, had, hdb, hbe, hshort⟩
          · omega
          · have hlate := hlaterSkip a b hskip
            omega
    · have he : ¬ e < c.1 + max before c.2 := by omega
      rw [if_neg hd, if_neg he, ih h.tail]
      apply not_congr
      constructor
      · rintro ⟨a, b, hskip, hrest⟩
        exact ⟨a, b, Or.inr hskip, hrest⟩
      · rintro ⟨a, b, ⟨rfl, rfl, hab⟩ | hskip, had, hdb, hbe, hshort⟩
        · omega
        · exact ⟨a, b, hskip, had, hdb, hbe, hshort⟩

/-- **The order of two readings is that of their instants, unless the first overtakes the second.** -/
theorem Zone.instantOf_lt_iff (z : Zone) {d e : Int} (hde : d < e) :
    z.instantOf d < z.instantOf e ↔ ¬ Overtakes z d e :=
  instantOf_lt_of_spaced z.spaced hde

end WallClock
