import Mathlib.Data.List.Basic

/-!
# `Lib.Scan` — reading a text character by character

A scanner has a state and may refuse a character. What it does with a text is what it does with its parts, one after the other
(`scan_append`); and where it only collects what some pieces of text stand for, it has collected all of them after any number of
such pieces (`scan_flatMap`).
-/

namespace Scan

variable {σ α β γ : Type} {step : σ → α → Option σ}

/-- The state after a text; `none` where a character is refused. -/
def scan (step : σ → α → Option σ) : σ → List α → Option σ
  | s, [] => some s
  | s, a :: text => (step s a).bind fun t => scan step t text

@[simp] theorem scan_nil (s : σ) : scan step s [] = some s := rfl

theorem scan_cons (s : σ) (a : α) (text : List α) : scan step s (a :: text) = (step s a).bind fun t => scan step t text := rfl

theorem scan_singleton (s : σ) (a : α) : scan step s [a] = step s a := Option.bind_fun_some (step s a)

theorem scan_append (s : σ) (text rest : List α) :
    scan step s (text ++ rest) = (scan step s text).bind fun t => scan step t rest := by
  induction text generalizing s with
  | nil => rfl
  | cons a text ih =>
    rw [List.cons_append, scan_cons, scan_cons]
    cases step s a with
    | none => rfl
    | some t => exact ih t

/-- One part after the other. -/
theorem scan_trans {s t : σ} {text : List α} (h : scan step s text = some t) (rest : List α) :
    scan step s (text ++ rest) = scan step t rest := by rw [scan_append, h, Option.bind_some]

theorem scan_seq {s t u : σ} {text rest : List α} (h : scan step s text = some t) (hrest : scan step t rest = some u) :
    scan step s (text ++ rest) = some u := (scan_trans h rest).trans hrest

/-- **Pieces of text** that each stand for something the scanner collects. -/
theorem scan_flatMap {write : β → List α} {mean : β → γ} {collected : List γ → σ} {P : β → Prop}
    (h : ∀ got b, P b → scan step (collected got) (write b) = some (collected (got ++ [mean b])))
      {bs : List β} (hbs : ∀ b ∈ bs, P b)
    (got : List γ) : scan step (collected got) (bs.flatMap write) = some (collected (got ++ bs.map mean)) := by
  induction bs generalizing got with
  | nil => exact congrArg some (congrArg collected (List.append_nil got).symm)
  | cons b bs ih =>
    rw [List.flatMap_cons, List.map_cons, List.append_cons]
    exact scan_seq (h got b (hbs b List.mem_cons_self))
      (ih (fun c hc => hbs c (List.mem_cons_of_mem b hc)) (got ++ [mean b]))

/-- Characters that the scanner takes as they are. -/
theorem scan_plain {collected : List α → σ} {P : α → Prop}
    (h : ∀ got a, P a → step (collected got) a = some (collected (got ++ [a])))
    {text : List α} (htext : ∀ a ∈ text, P a) (got : List α) : scan step (collected got) text =
      some (collected (got ++ text)) := by
  have hone : ∀ got a, P a → scan step (collected got) [a] = some (collected (got ++ [a])) := by
    intro got a ha
    rw [scan_cons, h got a ha]
    rfl
  have hall := scan_flatMap hone htext got
  rw [List.flatMap_singleton', List.map_id'] at hall
  exact hall

end Scan
