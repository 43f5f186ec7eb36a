import MaterialOpenWebui.Js.JsonRoundTrip

/-!
# `Js.Indent` — `JSON.stringify(v, null, 2)`

Each element and each property stands on a line of its own, two blanks further in than the brackets around it. What is read
back is the same copy as without the lines: the reader passes over white space between the parts.
-/

namespace Js

open JsValue

/-! ## Writing -/

def newline (depth : Nat) : List Char := '\n' :: List.replicate (2 * depth) ' '

mutual

/-- `JSON.stringify(v, null, 2)` inside of `depth` brackets; `none` where it returns `undefined`. -/
def pretty : Nat → JsValue → Option (List Char)
  | _, .arr [] => some ['[', ']']
  | depth, .arr (v :: vs) => some ('[' :: (commas (prettyElems (depth + 1) (v :: vs)) ++ (newline depth ++ [']'])))
  | depth, .obj ps =>
    match prettyProps (depth + 1) ps with
    | [] => some ['\x7b', '\x7d']
    | t :: ts => some ('\x7b' :: (commas (t :: ts) ++ (newline depth ++ ['\x7d'])))
  | _, v => stringify v

def prettyElems : Nat → List JsValue → List (List Char)
  | _, [] => []
  | depth, v :: vs => (newline depth ++ (pretty depth v).getD nullText) :: prettyElems depth vs

def prettyProps : Nat → List (JsString × JsValue) → List (List Char)
  | _, [] => []
  | depth, (k, v) :: ps =>
    match pretty depth v with
    | none => prettyProps depth ps
    | some t => (newline depth ++ propText k (' ' :: t)) :: prettyProps depth ps

end

/-! ## Round trip -/

theorem blank_newline (depth : Nat) : Blank (newline depth) := by
  intro c hc
  rcases List.mem_cons.mp hc with rfl | hc
  · rfl
  · rw [List.eq_of_mem_replicate hc]
    rfl

theorem pretty_eq_none {depth : Nat} {v : JsValue} (h : pretty depth v = none) : v = .undefined := by
  cases v with
  | arr vs => cases vs <;> exact absurd h (by simp [pretty])
  | obj ps =>
    rw [pretty] at h
    split at h <;> cases h
  | _ => exact stringify_eq_none h

theorem pretty_opens {depth : Nat} {v : JsValue} {t : List Char} (h : pretty depth v = some t) : Opens t := by
  cases v with
  | arr vs =>
    cases vs with
    | nil =>
      cases h
      exact opens_of_start (by simp) _
    | cons v vs =>
      rw [pretty] at h
      cases h
      exact opens_of_start (by simp) _
  | obj ps =>
    rw [pretty] at h
    split at h
    · cases h
      exact opens_of_start (by simp) _
    · cases h
      exact opens_of_start (by simp) _
  | _ => exact stringify_opens h

theorem reads_prettyElems {depth : Nat} {vs : List JsValue}
    (ih : ∀ v ∈ vs, ∀ t, pretty depth v = some t → Reads t (jsonCopy v)) :
    List.Forall₂ Reads (prettyElems depth vs) (copyElems vs) := by
  induction vs with
  | nil => exact .nil
  | cons v vs ihvs =>
    refine .cons (Reads.blank (blank_newline depth) ?_) (ihvs fun v hv => ih v (List.mem_cons_of_mem _ hv))
    cases hs : pretty depth v with
    | some t => exact ih v List.mem_cons_self t hs
    | none =>
      rw [pretty_eq_none hs]
      exact reads_null

theorem reads_prettyProps {depth : Nat} {ps : List (JsString × JsValue)}
    (ih : ∀ p ∈ ps, ∀ t, pretty depth p.2 = some t → Reads t (jsonCopy p.2)) :
    List.Forall₂ PropReads (prettyProps depth ps) (copyProps ps) := by
  induction ps with
  | nil => exact .nil
  | cons p ps ihps =>
    obtain ⟨k, v⟩ := p
    have hrest := ihps fun p hp => ih p (List.mem_cons_of_mem _ hp)
    cases hs : pretty depth v with
    | none =>
      rw [prettyProps, hs, pretty_eq_none hs]
      exact hrest
    | some t =>
      have hne : v ≠ .undefined := by
        rintro rfl
        exact absurd hs (by simp [pretty, stringify])
      have hspace : Blank [' '] := by simp [Blank, isWs]
      have hread := (ih (k, v) List.mem_cons_self t hs).blank hspace
      rw [prettyProps, hs, copyProps]
      · exact .cons ⟨_, _, blank_newline depth, rfl, hread⟩ hrest
      · exact hne

theorem begins_prettyElems {depth : Nat} {vs : List JsValue} : ∀ t ∈ prettyElems depth vs, Begins t := by
  induction vs with
  | nil => exact List.forall_mem_nil _
  | cons v vs ih =>
    intro t ht
    rw [prettyElems] at ht
    rcases List.mem_cons.mp ht with rfl | ht
    · refine ⟨_, _, rfl, blank_newline depth, ?_⟩
      cases hs : pretty depth v with
      | some t => exact pretty_opens hs
      | none => exact opens_of_start (by simp) _
    · exact ih t ht

/-- A value on lines is read back as its copy. -/
theorem reads_pretty (v : JsValue) : ∀ depth t, pretty depth v = some t → Reads t (jsonCopy v) := by
  induction v with
  | arr vs ih =>
    intro depth t h
    cases vs with
    | nil =>
      cases h
      exact reads_arr (List.forall_mem_nil _) .nil (List.forall_mem_nil _)
    | cons v vs =>
      rw [pretty] at h
      cases h
      exact reads_arr (blank_newline depth) (reads_prettyElems fun v hv => ih v hv (depth + 1)) begins_prettyElems
  | obj ps ih =>
    intro depth t h
    have hprops := reads_prettyProps fun p hp => ih p hp (depth + 1)
    rw [pretty] at h
    split at h
    · rename_i hnil
      cases h
      rw [hnil] at hprops
      exact reads_obj (List.forall_mem_nil _) hprops
    · rename_i hcons
      cases h
      rw [hcons] at hprops
      exact reads_obj (blank_newline depth) hprops
  | _ => exact fun _ t h => reads_stringify _ t h

/-- **`JSON.parse(JSON.stringify(v, null, 2))` is the copy.** -/
theorem parse_pretty {v : JsValue} {t : List Char} (h : pretty 0 v = some t) : parse t = some (jsonCopy v) :=
  (reads_pretty v 0 t h).parse

example : pretty 0 (.arr [.obj [(js "a", .str (js "b"))], .arr []]) =
    some "[\n  \x7b\n    \"a\": \"b\"\n  \x7d,\n  []\n]".toList := by decide

end Js
