import MaterialOpenWebui.Js.Text

/-!
# `Js.Radix` — `Number.prototype.toString(36)` of a natural number

Digits `0`–`9` and `a`–`z`, most significant first. Different numbers have different texts
(`radix36_injective`), and no text holds a hyphen, so a text that a hyphen follows can be told from what
follows (`append_hyphen_inj`).
-/

namespace Js

/-- The digits of `n` in base 36, least significant first; `n` itself is fuel enough. -/
def digits36 : Nat → Nat → List Nat
  | 0, n => [n]
  | f + 1, n => if n < 36 then [n] else n % 36 :: digits36 f (n / 36)

/-- The code unit of a digit. -/
def digit36 (d : Nat) : UInt16 := if d < 10 then UInt16.ofNat (48 + d) else UInt16.ofNat (87 + d)

/-- `n.toString(36)`. -/
def radix36 (n : Nat) : JsString := ((digits36 n n).map digit36).reverse

example : radix36 71 = js "1z" := by decide

theorem digits36_lt : ∀ (f n : Nat), n ≤ f → ∀ d ∈ digits36 f n, d < 36 := by
  intro f
  induction f with
  | zero =>
    intro n hn d hd
    rw [digits36, List.mem_singleton] at hd
    omega
  | succ f ih =>
    intro n hn d hd
    rw [digits36] at hd
    split_ifs at hd with h
    · rw [List.mem_singleton] at hd
      omega
    · rcases List.mem_cons.mp hd with rfl | hd
      · omega
      · exact ih (n / 36) (by omega) d hd

/-- The number the digits are of. -/
def value36 : List Nat → Nat
  | [] => 0
  | d :: ds => d + 36 * value36 ds

theorem value36_digits36 (f n : Nat) : value36 (digits36 f n) = n := by
  induction f generalizing n with
  | zero => rfl
  | succ f ih =>
    rw [digits36]
    split_ifs with h
    · rfl
    · rw [value36, ih]
      omega

theorem digit36_injective : ∀ d < 36, ∀ e < 36, digit36 d = digit36 e → d = e := by decide

theorem digit36_ne_hyphen : ∀ d < 36, digit36 d ≠ 0x2d := by decide

/-- A text without hyphens that a hyphen follows is where it ends. -/
theorem append_hyphen_inj {s t u v : JsString} (hs : (0x2d : UInt16) ∉ s) (ht : (0x2d : UInt16) ∉ t)
    (h : s ++ 0x2d :: u = t ++ 0x2d :: v) : s = t := by
  induction s generalizing t with
  | nil =>
    cases t with
    | nil => rfl
    | cons b t =>
      rw [List.nil_append, List.cons_append, List.cons.injEq] at h
      exact absurd (List.mem_cons.mpr (Or.inl h.1)) ht
  | cons a s ih =>
    cases t with
    | nil =>
      rw [List.nil_append, List.cons_append, List.cons.injEq] at h
      exact absurd (List.mem_cons.mpr (Or.inl h.1.symm)) hs
    | cons b t =>
      rw [List.cons_append, List.cons_append, List.cons.injEq] at h
      rw [h.1, ih (fun hm => hs (List.mem_cons_of_mem a hm)) (fun hm => ht (List.mem_cons_of_mem b hm)) h.2]

theorem hyphen_not_mem_radix36 (n : Nat) : (0x2d : UInt16) ∉ radix36 n := by
  intro h
  rw [radix36, List.mem_reverse] at h
  obtain ⟨d, hd, heq⟩ := List.mem_map.mp h
  exact digit36_ne_hyphen d (digits36_lt n n (Nat.le_refl n) d hd) heq

theorem map_digit36_injective : ∀ {l m : List Nat}, (∀ d ∈ l, d < 36) → (∀ d ∈ m, d < 36) →
    l.map digit36 = m.map digit36 → l = m := by
  intro l
  induction l with
  | nil =>
    intro m _ _ h
    exact (List.map_eq_nil_iff.mp h.symm).symm
  | cons d l ih =>
    intro m hl hm h
    cases m with
    | nil => cases h
    | cons e m =>
      rw [List.map_cons, List.map_cons, List.cons.injEq] at h
      rw [digit36_injective d (hl d (by simp)) e (hm e (by simp)) h.1,
        ih (fun d hd => hl d (List.mem_cons_of_mem _ hd)) (fun e he => hm e (List.mem_cons_of_mem _ he)) h.2]

theorem radix36_injective {m n : Nat} (h : radix36 m = radix36 n) : m = n := by
  have hmap : (digits36 m m).map digit36 = (digits36 n n).map digit36 := List.reverse_inj.mp h
  have hdigits := map_digit36_injective (digits36_lt m m (Nat.le_refl m)) (digits36_lt n n (Nat.le_refl n)) hmap
  rw [← value36_digits36 m m, hdigits, value36_digits36]

end Js
