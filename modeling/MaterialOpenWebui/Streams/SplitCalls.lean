import MaterialOpenWebui.Lib.Extent
import MaterialOpenWebui.Py.JsonRoundTrip
import Mathlib.Data.List.DropRight

/-!
# `Streams.SplitCalls` — tool calls with several arguments at once (`backend/open_webui/utils/middleware.py`)

Some models send one call with several JSON values one after the other as its arguments. `_split_tool_calls` decodes the text
value by value, and makes a call for each. Where the text is not made of values, the call is passed on as it is; but the
decoder also breaks off, and the function with it, at an integer or a nesting that is too long for the interpreter
(`split_tool_calls_iff`).
-/

namespace MaterialOpenWebui
namespace SplitCalls
open Py Extent

/-! ## The decoder of `json` -/

/-- The longest integer that `int` reads, and the deepest nesting before a `RecursionError`. -/
structure Limits where
  digits : Nat
  depth : Nat

/-- What is left of `null`, `true`, `false`, `NaN` or `Infinity`. -/
structure Letters where
  rest : Str
  letters : ∀ c ∈ rest, c.isSpace = false

/-- Where a numeral is: after its sign, a leading zero, a digit, the point, and so on. -/
inductive Part where
  | minus | zero | int | point | fraction | mark | sign | exponent
deriving DecidableEq

/-- A numeral can end there. -/
def Part.complete : Part → Bool
  | .zero | .int | .fraction | .exponent => true
  | .minus | .point | .mark | .sign => false

/-- What is read next. A string is a key or a value; a numeral has its digits before the point, and whether it has more. -/
inductive Mode where
  | value | elements | members | key | colon | after
  | string (isKey : Bool)
  | escape (isKey : Bool)
  | hex (isKey : Bool) (left : Nat)
  | word (w : Letters)
  | number (part : Part) (digits : Nat) (float : Bool)

/-- With the containers that are open, an object being `true`; `none` where the decoder breaks off. -/
abbrev State := Option (Mode × List Bool)

def isMark (c : CodePoint) : Bool := c = ofChar 'e' || c = ofChar 'E'

def isSign (c : CodePoint) : Bool := c = ofChar '-' || c = ofChar '+'

/-- `NUMBER_RE`, one character more. -/
def numberNext : Part → CodePoint → Option Part
  | .minus, c => if c = ofChar '0' then some .zero else if c.isDigit then some .int else none
  | .zero, c => if c = ofChar '.' then some .point else if isMark c then some .mark else none
  | .int, c => if c.isDigit then some .int else if c = ofChar '.' then some .point else if isMark c then some .mark else none
  | .point, c => if c.isDigit then some .fraction else none
  | .fraction, c => if c.isDigit then some .fraction else if isMark c then some .mark else none
  | .mark, c => if isSign c then some .sign else if c.isDigit then some .exponent else none
  | .sign, c => if c.isDigit then some .exponent else none
  | .exponent, c => if c.isDigit then some .exponent else none

/-- What becomes of a numeral that does not go on. What it has of a fraction or an exponent without digits is not its own; only
    an integer goes through `int`. -/
def numberFinal (limits : Limits) (part : Part) (digits : Nat) (float : Bool) : Reading :=
  if float = false ∧ part ≠ .exponent ∧ limits.digits < digits then .raised
  else if part.complete then .took 0
  else .refused

def ending (isKey : Bool) : Mode := if isKey then .colon else .after

/-- A value that begins. -/
def begin_ (limits : Limits) (c : CodePoint) (stack : List Bool) : Option State :=
  let word (t : Letters) := some (some (.word t, stack))
  let opened (isObject : Bool) (mode : Mode) :=
    some (if limits.depth ≤ stack.length then none else some (mode, isObject :: stack))
  if c = ofChar '\x22' then some (some (.string false, stack))
  else if c = ofChar '[' then opened false .elements
  else if c = ofChar '\x7b' then opened true .members
  else if c = ofChar 'n' then word ⟨py "ull", by decide⟩
  else if c = ofChar 't' then word ⟨py "rue", by decide⟩
  else if c = ofChar 'f' then word ⟨py "alse", by decide⟩
  else if c = ofChar 'N' then word ⟨py "aN", by decide⟩
  else if c = ofChar 'I' then word ⟨py "nfinity", by decide⟩
  else if c = ofChar '-' then some (some (.number .minus 0 false, stack))
  else (numberNext .minus c).map fun part => some (.number part 1 false, stack)

/-- In a container behind one of its values. -/
def afterNext (c : CodePoint) : List Bool → Option State
  | [] => none
  | isObject :: stack =>
    if isWs c then some (some (.after, isObject :: stack))
    else if c = ofChar ',' then some (some (if isObject then .key else .value, isObject :: stack))
    else if c = ofChar (if isObject then '\x7d' else ']') then some (some (.after, stack))
    else none

/-- One character. -/
def next (limits : Limits) : State → CodePoint → Option State
  | none, _ => none
  | some (.value, stack), c =>
    if isWs c ∧ stack ≠ [] then some (some (.value, stack)) else begin_ limits c stack
  | some (.elements, stack), c =>
    if isWs c then some (some (.elements, stack))
    else if c = ofChar ']' then some (some (.after, stack.tail)) else begin_ limits c stack
  | some (.members, stack), c =>
    if isWs c then some (some (.members, stack))
    else if c = ofChar '\x7d' then some (some (.after, stack.tail))
    else if c = ofChar '\x22' then some (some (.string true, stack)) else none
  | some (.key, stack), c =>
    if isWs c then some (some (.key, stack))
    else if c = ofChar '\x22' then some (some (.string true, stack)) else none
  | some (.colon, stack), c =>
    if isWs c then some (some (.colon, stack)) else if c = ofChar ':' then some (some (.value, stack)) else none
  | some (.after, stack), c => afterNext c stack
  | some (.string isKey, stack), c =>
    if c = ofChar '\x22' then some (some (ending isKey, stack))
    else if c = ofChar '\x5c' then some (some (.escape isKey, stack))
    else if c.toNat < 0x20 then none else some (some (.string isKey, stack))
  | some (.escape isKey, stack), c =>
    if c = ofChar 'u' then some (some (.hex isKey 3, stack))
    else (letterEscape? c).map fun _ => some (.string isKey, stack)
  | some (.hex isKey left, stack), c =>
    (hexValue c).map fun _ => some (if left = 0 then .string isKey else .hex isKey (left - 1), stack)
  | some (.word ⟨[], _⟩, _), _ => none
  | some (.word ⟨d :: rest, letters⟩, stack), c =>
    if c = d then
      some (some (if rest = [] then .after else .word ⟨rest, fun e he => letters e (List.mem_cons_of_mem d he)⟩, stack))
    else none
  | some (.number part digits float, stack), c =>
    match numberNext part c with
    | some part' =>
      some (some (.number part' (if part' = .int then digits + 1 else digits) (float || part' = .fraction), stack))
    | none =>
      match numberFinal limits part digits float with
      | .took _ => afterNext c stack
      | .refused =>
        if part = .minus ∧ c = ofChar 'I' then some (some (.word ⟨py "nfinity", by decide⟩, stack)) else none
      | .raised => some none

def final (limits : Limits) : State → Reading
  | none => .raised
  | some (.after, []) => .took 0
  | some (.number part digits float, []) => numberFinal limits part digits float
  | some (.number part digits float, _ :: _) =>
    if numberFinal limits part digits float = .raised then .raised else .refused
  | _ => .refused

def raw_decode (limits : Limits) : Str → Reading := read (next limits) (final limits) (some (.value, []))

/-! ## Splitting -/

/-- The results of the loop; `some none` where the decoder refuses, `none` where it breaks off. -/
def split_loop (limits : Limits) : Nat → Str → Option (Option (List Str))
  | 0, _ => some (some [])
  | n + 1, raw =>
    let s := raw.dropWhile CodePoint.isSpace
    if s = [] then some (some [])
    else
      match raw_decode limits s with
      | .took stop => (split_loop limits n (s.drop stop)).map (Option.map (strip (s.take stop) :: ·))
      | .refused => some none
      | .raised => none

def split_json_objects (limits : Limits) (raw : Str) : Option (List Str) :=
  (split_loop limits raw.length raw).map fun results =>
    match results with
    | some (r :: rs) => r :: rs
    | _ => [raw]

structure ToolCall where
  id : Val
  function : Option Obj
  others : Obj

def kArguments : Str := py "arguments"

/-- The arguments of a function as a text, and the function with them. -/
def argumentsOf (fl : Floats) (function : Obj) : Str × Obj :=
  match function.get? kArguments with
  | some (.str arguments) => (arguments, function)
  | some .none | none => ([], function.set kArguments (.str []))
  | some v => (dumps fl v, function.set kArguments (.str (dumps fl v)))

/-- The calls made of one; `uuid` is what the next ids are. -/
def expand (fl : Floats) (limits : Limits) (uuid : Nat → Str) (tool_call : ToolCall) : Option (List ToolCall) :=
  let settled := argumentsOf fl (tool_call.function.getD .empty)
  (split_json_objects limits settled.1).map fun split_arguments =>
    if split_arguments.length ≤ 1 then [{ tool_call with function := some settled.2 }]
    else split_arguments.mapIdx fun i argument =>
      { tool_call with id := .str (uuid i), function := some (settled.2.set kArguments (.str argument)) }

/-- `_split_tool_calls`; `uuid` has the ids that each of the calls gets. -/
def _split_tool_calls (fl : Floats) (limits : Limits) : (Nat → Nat → Str) → List ToolCall → Option (List ToolCall)
  | _, [] => some []
  | uuid, tool_call :: tool_calls =>
    (expand fl limits (uuid 0) tool_call).bind fun made =>
      (_split_tool_calls fl limits (fun n => uuid (n + 1)) tool_calls).map (made ++ ·)

/-! ## What is decoded -/

/-- The decoder can stop behind a value, and behind a numeral. -/
theorem final_took {limits : Limits} {q : State} {n : Nat} (h : final limits q = .took n) : n = 0 ∧
    (q = some (.after, []) ∨ ∃ part digits float, q = some (.number part digits float, []) ∧ part.complete = true) := by
  unfold final at h
  split at h
  · cases h
  · cases h
    exact ⟨rfl, .inl rfl⟩
  · next part digits float =>
      unfold numberFinal at h
      split at h
      · cases h
      · split at h
        · cases h
          exact ⟨rfl, .inr ⟨part, digits, float, rfl, ‹_›⟩⟩
        · cases h
  · split at h <;> cases h
  · cases h

section Space
variable {c : CodePoint} (hc : c.isSpace = true)
include hc

theorem ne_of_isSpace {d : CodePoint} (hd : d.isSpace = false) : c ≠ d := by
  rintro rfl
  rw [hc] at hd
  cases hd

theorem not_isDigit_of_isSpace : c.isDigit = false := by
  apply Bool.eq_false_iff.2
  intro h
  simp [CodePoint.isDigit, CodePoint.isSpace, UInt32.le_iff_toNat_le, ← UInt32.toNat_inj] at h hc
  omega

theorem numberNext_space (part : Part) : numberNext part c = none := by
  cases part <;> simp (disch := decide) [numberNext, isMark, isSign, not_isDigit_of_isSpace hc, ne_of_isSpace hc]

theorem begin_space (limits : Limits) (stack : List Bool) : begin_ limits c stack = none := by
  simp (disch := decide) [begin_, numberNext_space hc, ne_of_isSpace hc]

theorem afterNext_space {stack : List Bool} {q : State} (h : afterNext c stack = some q) :
    ∃ o s, q = some (.after, o :: s) := by
  cases stack with
  | nil => cases h
  | cons isObject stack =>
    cases isObject <;> simp (disch := decide) [afterNext, ne_of_isSpace hc] at h
    all_goals exact ⟨_, _, h.2.symm⟩

/-- No value ends with white space. -/
theorem next_space {limits : Limits} {q q' : State} (h : next limits q c = some q') (n : Nat) :
    final limits q' ≠ .took n := by
  have hne {d : CodePoint} (hd : d.isSpace = false) : c ≠ d := ne_of_isSpace hc hd
  intro hfinal
  obtain ⟨-, hq⟩ := final_took hfinal
  obtain _ | ⟨mode, stack⟩ := q
  · cases h
  · cases mode with
    | word w =>
      obtain ⟨_ | ⟨d, rest⟩, letters⟩ := w
      · cases h
      · simp [next, hne (letters d (List.mem_cons_self ..))] at h
    | number part digits float =>
      simp (disch := decide) only [next, numberNext_space hc, hne] at h
      -- it ends a numeral only within a container
      split at h
      · obtain ⟨o, s, rfl⟩ := afterNext_space hc h
        simp at hq
      · simp at h
      · cases h
        simp at hq
    | after =>
      obtain ⟨o, s, rfl⟩ := afterNext_space hc h
      simp at hq
    | hex isKey left =>
      simp only [next, Option.map_eq_some_iff] at h
      obtain ⟨_, -, rfl⟩ := h
      split at hq <;> simp at hq
    | escape isKey =>
      simp (disch := decide) [next, letterEscape?, hne] at h
    | _ =>
      simp (disch := decide) [next, begin_space hc, hne] at h
      obtain ⟨-, rfl⟩ := h
      simp at hq

end Space

/-- One value from its first character to its last. -/
def Complete (limits : Limits) (s : Str) : Prop := s ≠ [] ∧ raw_decode limits s = .took s.length ∧ strip s = s

/-- The decoder takes a complete value, whatever follows. -/
theorem complete_of_took {limits : Limits} {s : Str} {n : Nat} (hs : s.dropWhile CodePoint.isSpace = s)
    (h : raw_decode limits s = .took n) : n ≤ s.length ∧ 0 < n ∧ Complete limits (s.take n) := by
  obtain ⟨hle, hcut⟩ := read_take (fun q m hq => (final_took hq).1) h
  have hlength : (s.take n).length = n := by simp [hle]
  have hstops : ∀ q c q' m, next limits q c = some q' → final limits q' = .took m → c.isSpace = false :=
    fun q c q' m hq hm => Bool.eq_false_iff.2 fun hc => next_space hc hq m hm
  have hlast := read_last hstops (fun q m hq => (final_took hq).1) h
  rcases hlast with hfinal | ⟨m, c, rfl, hc, hstop⟩
  · cases hfinal
  · refine ⟨hle, m.succ_pos, ?_, ?_, ?_⟩
    · exact List.ne_nil_of_length_pos (by omega)
    · rw [raw_decode, hcut (m + 1) (Nat.le_refl _), hlength]
    · -- neither its first character nor its last is white space
      have hfirst : (s.take (m + 1)).dropWhile CodePoint.isSpace = s.take (m + 1) := by
        cases s with
        | nil => rfl
        | cons d s =>
          have hd : d.isSpace = false := by
            apply Bool.eq_false_iff.2
            intro hd
            have := congrArg List.length hs
            rw [List.dropWhile_cons_of_pos hd] at this
            have := (List.dropWhile_sublist CodePoint.isSpace (l := s)).length_le
            simp_all
          rw [List.take_succ_cons, List.dropWhile_cons_of_neg (by simp [hd])]
      rw [strip, hfirst, List.take_add_one, hc]
      simp [hstop]

/-- The pieces one after the other, with nothing but white space around them. -/
inductive Spaced : List Str → Str → Prop
  | nil {w : Str} (hw : ∀ c ∈ w, c.isSpace = true) : Spaced [] w
  | cons {w p s : Str} {ps : List Str} (hw : ∀ c ∈ w, c.isSpace = true) (hs : Spaced ps s) :
    Spaced (p :: ps) (w ++ (p ++ s))

/-- Among the values that the text is read as, there is an integer with more digits than `int` reads, or containers nested
    more deeply than the interpreter goes. -/
inductive Overlong (limits : Limits) : Str → Prop
  | here {raw : Str} (h : raw_decode limits (raw.dropWhile CodePoint.isSpace) = .raised) : Overlong limits raw
  | later {raw : Str} {k : Nat} (h : raw_decode limits (raw.dropWhile CodePoint.isSpace) = .took k)
      (hrest : Overlong limits ((raw.dropWhile CodePoint.isSpace).drop k)) : Overlong limits raw

theorem not_overlong_space {limits : Limits} {raw : Str} (h : raw.dropWhile CodePoint.isSpace = []) :
    ¬ Overlong limits raw := by
  rintro (h' | ⟨h', -⟩) <;> rw [h] at h' <;> cases h'

/-- Every turn of the loop takes something, so that the length of the text is fuel enough. -/
theorem split_loop_spec (limits : Limits) {n : Nat} {raw : Str} (hn : raw.length ≤ n) :
    (split_loop limits n raw = none ↔ Overlong limits raw) ∧
      ∀ results, split_loop limits n raw = some (some results) →
        Spaced results raw ∧ ∀ p ∈ results, Complete limits p := by
  induction n generalizing raw with
  | zero =>
    obtain rfl := List.eq_nil_of_length_eq_zero (Nat.le_zero.1 hn)
    refine ⟨iff_of_false nofun (not_overlong_space rfl), ?_⟩
    rintro results ⟨⟩
    exact ⟨.nil nofun, nofun⟩
  | succ n ih =>
    have hsplit := List.takeWhile_append_dropWhile (p := CodePoint.isSpace) (l := raw)
    have hspace : ∀ c ∈ raw.takeWhile CodePoint.isSpace, c.isSpace = true := fun c hc => List.mem_takeWhile_imp hc
    have hstart := List.dropWhile_idempotent (p := CodePoint.isSpace) (l := raw)
    have hlength := (List.dropWhile_sublist CodePoint.isSpace (l := raw)).length_le
    have hoverlong := @Overlong.later limits raw
    unfold split_loop
    generalize hs : raw.dropWhile CodePoint.isSpace = s at *
    by_cases hnil : s = []
    · -- nothing but white space is left
      subst hnil
      simp only [if_true]
      refine ⟨iff_of_false nofun (not_overlong_space hs), ?_⟩
      rintro results ⟨⟩
      rw [List.append_nil] at hsplit
      exact ⟨hsplit ▸ .nil hspace, nofun⟩
    · simp only [if_neg hnil]
      cases hread : raw_decode limits s with
      | refused =>
        refine ⟨iff_of_false nofun ?_, nofun⟩
        rintro (h | ⟨h, -⟩) <;> rw [hs, hread] at h <;> cases h
      | raised => exact ⟨iff_of_true rfl (.here (hs ▸ hread)), nofun⟩
      | took stop =>
        obtain ⟨hle, hpos, hcomplete⟩ := complete_of_took hstart hread
        have hrest : (s.drop stop).length ≤ n := by
          rw [List.length_drop]
          omega
        obtain ⟨hraised, hresults⟩ := ih hrest
        refine ⟨?_, ?_⟩
        · rw [Option.map_eq_none_iff, hraised]
          refine ⟨hoverlong hread, ?_⟩
          rintro (h | ⟨h, hrest⟩) <;> rw [hs, hread] at h <;> cases h
          rwa [hs] at hrest
        · intro results h
          simp only [Option.map_eq_some_iff] at h
          obtain ⟨_, hloop, rest, rfl, rfl⟩ := h
          obtain ⟨hspaced, hall⟩ := hresults rest hloop
          rw [hcomplete.2.2]
          refine ⟨?_, List.forall_mem_cons.2 ⟨hcomplete, hall⟩⟩
          rw [← hsplit]
          have := Spaced.cons (p := s.take stop) hspace hspaced
          rwa [List.take_append_drop] at this

theorem split_json_objects_spec (limits : Limits) (raw : Str) :
    (split_json_objects limits raw = none ↔ Overlong limits raw) ∧
      ∀ pieces, split_json_objects limits raw = some pieces → 2 ≤ pieces.length →
        Spaced pieces raw ∧ ∀ p ∈ pieces, Complete limits p := by
  obtain ⟨hraised, hresults⟩ := split_loop_spec limits (Nat.le_refl raw.length)
  refine ⟨Option.map_eq_none_iff.trans hraised, ?_⟩
  intro pieces h hlength
  obtain ⟨results, hloop, rfl⟩ := Option.map_eq_some_iff.1 h
  rcases results with _ | _ | ⟨r, rs⟩
  · simp at hlength
  · simp at hlength
  · exact hresults _ hloop

theorem split_complete {limits : Limits} {p : Str} (h : Complete limits p) : split_json_objects limits p = some [p] := by
  obtain ⟨hne, hread, hstrip⟩ := h
  have hstart : p.dropWhile CodePoint.isSpace = p := by
    have hlength := congrArg List.length hstrip
    have hle := (List.dropWhile_sublist CodePoint.isSpace (l := p)).length_le
    have hle' := (List.dropWhile_sublist CodePoint.isSpace (l := (p.dropWhile CodePoint.isSpace).reverse)).length_le
    simp only [strip, List.length_reverse] at hlength hle'
    exact (List.dropWhile_sublist _).eq_of_length (by omega)
  obtain ⟨n, hn⟩ := Nat.exists_eq_add_one_of_ne_zero (List.length_pos_iff.2 hne).ne'
  have hrest : split_loop limits n [] = some (some []) := by cases n <;> rfl
  have hloop : split_loop limits p.length p = some (some [p]) := by
    rw [hn]
    simp only [split_loop, hstart, if_neg hne, hread, List.take_length, List.drop_length, hrest, hstrip]
    rfl
  rw [split_json_objects, hloop]
  rfl

example : split_json_objects ⟨4300, 1000⟩ (py "[1] \x7b\x7d-0.5e") = some [py "[1] \x7b\x7d-0.5e"] := by decide +kernel

example : split_json_objects ⟨4300, 1000⟩ (py "[1] \x7b\x7d-0.5") =
  some [py "[1]", py "\x7b\x7d", py "-0.5"] := by decide +kernel

/-! ## The calls -/

/-- The call with its arguments as a text. -/
def settled (fl : Floats) (call : ToolCall) : ToolCall :=
  { call with function := some (argumentsOf fl (call.function.getD .empty)).2 }

/-- The arguments that are split. -/
def ToolCall.arguments (fl : Floats) (call : ToolCall) : Str := (argumentsOf fl (call.function.getD .empty)).1

/-- One of the calls that take the place of another: all but its id and its arguments is as it was. -/
structure Clone (call : ToolCall) (argument : Str) (made : ToolCall) : Prop where
  others : made.others = call.others
  arguments : (made.function.getD .empty).get? kArguments = some (.str argument)
  function : ∀ key ≠ kArguments, (made.function.getD .empty).get? key = (call.function.getD .empty).get? key

/-- What takes the place of a call. A call whose arguments are a text passes as it is. -/
inductive Replaced (fl : Floats) (limits : Limits) (call : ToolCall) : List ToolCall → Prop
  | kept (h : ∀ function a, call.function = some function → function.get? kArguments =
    some (.str a) → settled fl call = call) :
    Replaced fl limits call [settled fl call]
  | split {pieces : List Str} {made : List ToolCall} (hlength : 2 ≤ pieces.length)
      (hcomplete : ∀ p ∈ pieces, Complete limits p) (hspaced : Spaced pieces (call.arguments fl))
      (hmade : List.Forall₂ (Clone call) pieces made) : Replaced fl limits call made

theorem argumentsOf_spec (fl : Floats) (function : Obj) :
    (argumentsOf fl function).2 = function.set kArguments (.str (argumentsOf fl function).1) := by
  unfold argumentsOf
  split
  · next h => exact (Dict.set_self h).symm
  · rfl
  · rfl
  · rfl

theorem argumentsOf_set (fl : Floats) (function : Obj) (a : Str) :
    argumentsOf fl (function.set kArguments (.str a)) = (a, function.set kArguments (.str a)) := by
  simp only [argumentsOf, Dict.get?_set_self]

/-- One call where its arguments are not overlong: what takes its place, and that this stays as it is. -/
theorem expand_spec (fl : Floats) (limits : Limits) (uuid : Nat → Str) (call : ToolCall) :
    (expand fl limits uuid call = none ↔ Overlong limits (call.arguments fl)) ∧
      ∀ made, expand fl limits uuid call = some made →
        Replaced fl limits call made ∧ ∀ m ∈ made, ∀ uuid', expand fl limits uuid' m = some [m] := by
  obtain ⟨hraised, hpieces⟩ := split_json_objects_spec limits (call.arguments fl)
  refine ⟨Option.map_eq_none_iff.trans hraised, ?_⟩
  intro made h
  rw [expand] at h
  obtain ⟨pieces, hsplit, rfl⟩ := Option.map_eq_some_iff.1 h
  by_cases hlength : pieces.length ≤ 1
  · simp only [if_pos hlength]
    refine ⟨.kept ?_, ?_⟩
    · rintro function a hfunction harguments
      obtain ⟨id, _, others⟩ := call
      cases hfunction
      simp [settled, argumentsOf, harguments]
    · rintro m hm uuid'
      obtain rfl := List.mem_singleton.1 hm
      have hsettled : argumentsOf fl (argumentsOf fl (call.function.getD .empty)).2 =
        argumentsOf fl (call.function.getD .empty) := by
        rw [argumentsOf_spec, argumentsOf_set, ← argumentsOf_spec]
      simp only [expand, Option.getD_some, hsettled, hsplit, Option.map_some, if_pos hlength]
  · simp only [if_neg hlength]
    obtain ⟨hspaced, hcomplete⟩ := hpieces pieces hsplit (by omega)
    refine ⟨.split (by omega) hcomplete hspaced ?_, ?_⟩
    · apply List.forall₂_iff_get.2
      refine ⟨by simp, fun i hi hi' => ?_⟩
      simp only [List.get_eq_getElem, List.getElem_mapIdx]
      refine ⟨rfl, Dict.get?_set_self .., fun key hkey => ?_⟩
      simp only [Option.getD_some, argumentsOf_spec, Dict.set_set]
      exact Dict.get?_set_of_ne _ _ hkey
    · intro m hm uuid'
      obtain ⟨i, hi, rfl⟩ := List.mem_mapIdx.1 hm
      simp only [expand, Option.getD_some, argumentsOf_set, split_complete (hcomplete _ (List.getElem_mem hi))]
      simp

/-- What `_split_tool_calls` is for: each call is kept or replaced in its place, and splitting again changes nothing. -/
def Splits (fl : Floats) (limits : Limits) (uuid : Nat → Nat → Str) (calls : List ToolCall) : Prop :=
  ∃ groups, _split_tool_calls fl limits uuid calls = some groups.flatten ∧ List.Forall₂ (Replaced fl limits) calls groups ∧
    ∀ uuid', _split_tool_calls fl limits uuid' groups.flatten = some groups.flatten

theorem split_again {fl : Floats} {limits : Limits} {made : List ToolCall}
    (h : ∀ m ∈ made, ∀ uuid, expand fl limits uuid m = some [m]) (uuid : Nat → Nat → Str) :
    _split_tool_calls fl limits uuid made = some made := by
  induction made generalizing uuid with
  | nil => rfl
  | cons m made ih =>
    obtain ⟨hm, hmade⟩ := List.forall_mem_cons.1 h
    simp only [_split_tool_calls, hm, ih hmade]
    rfl

/-- The calls are split as they are meant to be exactly where no arguments are overlong; elsewhere the decoder takes the whole
    list with it. -/
theorem split_tool_calls_iff (fl : Floats) (limits : Limits) (uuid : Nat → Nat → Str) (calls : List ToolCall) :
    Splits fl limits uuid calls ↔ ∀ call ∈ calls, ¬ Overlong limits (call.arguments fl) := by
  have hspec : ((∃ out, _split_tool_calls fl limits uuid calls = some out) → ∀ call ∈
    calls, ¬ Overlong limits (call.arguments fl)) ∧
      ((∀ call ∈ calls, ¬ Overlong limits (call.arguments fl)) → ∃ groups : List (List ToolCall),
        _split_tool_calls fl limits uuid calls = some groups.flatten ∧ List.Forall₂ (Replaced fl limits) calls groups ∧
          ∀ m ∈ groups.flatten, ∀ uuid', expand fl limits uuid' m = some [m]) := by
    induction calls generalizing uuid with
    | nil => exact ⟨fun _ => nofun, fun _ => ⟨[], rfl, .nil, nofun⟩⟩
    | cons call calls ih =>
      obtain ⟨hraised, hmade⟩ := expand_spec fl limits (uuid 0) call
      obtain ⟨ihout, ihgroups⟩ := ih fun n => uuid (n + 1)
      cases hexpand : expand fl limits (uuid 0) call with
      | none =>
        have hover := hraised.1 hexpand
        refine ⟨?_, fun h => absurd hover (h call (List.mem_cons_self ..))⟩
        rintro ⟨out, hout⟩
        simp only [_split_tool_calls, hexpand] at hout
        cases hout
      | some made =>
        have hshort : ¬ Overlong limits (call.arguments fl) := fun h => by rw [hraised.2 h] at hexpand; cases hexpand
        obtain ⟨hreplaced, hagain⟩ := hmade made hexpand
        simp only [_split_tool_calls, hexpand, Option.bind_some, List.forall_mem_cons]
        refine ⟨?_, ?_⟩
        · rintro ⟨out, hout⟩
          obtain ⟨rest, hrest, -⟩ := Option.map_eq_some_iff.1 hout
          exact ⟨hshort, ihout ⟨rest, hrest⟩⟩
        · rintro ⟨-, h⟩
          obtain ⟨groups, hgroups, hforall, hall⟩ := ihgroups h
          refine ⟨made :: groups, by rw [hgroups]; rfl, .cons hreplaced hforall, ?_⟩
          intro m hm
          rw [List.flatten_cons, List.mem_append] at hm
          exact hm.elim (hagain m) (hall m)
  refine ⟨?_, ?_⟩
  · rintro ⟨groups, hout, -⟩
    exact hspec.1 ⟨_, hout⟩
  · intro h
    obtain ⟨groups, hout, hforall, hall⟩ := hspec.2 h
    exact ⟨groups, hout, hforall, split_again hall⟩

/-- An integer with more digits than `int` reads, from its second digit on. -/
theorem read_digits {limits : Limits} {k : Nat} (n : Nat) (h : limits.digits < k + n) :
    Extent.read (next limits) (final limits) (some (.number .int k false, [])) (List.replicate n (ofChar '1')) = .raised := by
  induction n generalizing k with
  | zero =>
    rw [Nat.add_zero] at h
    simp [Extent.read, final, numberFinal, h]
  | succ n ih =>
    have hnext : next limits (some (.number .int k false, [])) (ofChar '1') =
      some (some (.number .int (k + 1) false, [])) := rfl
    rw [List.replicate_succ, Extent.read, hnext]
    simp only [ih (k := k + 1) (by omega)]

theorem overlong_digits {limits : Limits} {n : Nat} (h : limits.digits < n + 1) :
    Overlong limits (List.replicate (n + 1) (ofChar '1')) := by
  apply Overlong.here
  have hnext : next limits (some (.value, [])) (ofChar '1') = some (some (.number .int 1 false, [])) := rfl
  have hrun := read_digits (k := 1) n (by rwa [Nat.add_comm])
  rw [List.replicate_succ, List.dropWhile_cons_of_neg (by decide), raw_decode, Extent.read, hnext]
  simp only [hrun]

/-- Arguments that are one integer of 4301 digits, though they are JSON, and all of the calls are lost with them. -/
theorem long_integer_lost : ¬ Splits wholeFloats ⟨4300, 1000⟩ (fun _ _ => [])
    [⟨.str (py "call"), some (Dict.empty.set kArguments (.str (List.replicate (4300 + 1) (ofChar '1')))), .empty⟩] := by
  have hover : Overlong ⟨4300, 1000⟩ _ := overlong_digits (n := 4300) (by decide)
  generalize List.replicate (4300 + 1) (ofChar '1') = raw at hover ⊢
  rintro ⟨groups, hout, -⟩
  rw [_split_tool_calls, (expand_spec wholeFloats ⟨4300, 1000⟩ (fun _ => []) _).1.2] at hout
  · cases hout
  · simpa only [ToolCall.arguments, Option.getD_some, argumentsOf_set] using hover

end SplitCalls
end MaterialOpenWebui
