import MaterialOpenWebui.Lib.Pieces

/-!
# `Streams.Oversize` — lines that are too long (`stream_chunks_handler` in `backend/open_webui/utils/misc.py`)

The bytes of a stream arrive in chunks and are passed on line by line; a line that is longer than the limit is to be
replaced by an empty event. What the handler does with a line depends on the pieces that it arrived in: it forgets what
it holds of a line as soon as that is longer than the limit, and after a line that was too long it passes the first
short one on without its newline.
-/

namespace MaterialOpenWebui
namespace Streams
open Pieces

/-! ## The handler -/

abbrev Bytes := List UInt8

def newline : UInt8 := 10

/-- `b'data: {}\n'`. -/
def emptyEvent : Bytes := [100, 97, 116, 97, 58, 32, 123, 125, newline]

structure State where
  buffer : Bytes
  skip_mode : Bool

section
variable (max_buffer_size : Nat)

/-- A complete line: whether the handler skips afterwards, and what it yields. -/
def handleLine (skip_mode : Bool) (line : Bytes) : Bool × Bytes :=
  if skip_mode then
    if line.length ≤ max_buffer_size then (false, line) else (true, emptyEvent)
  else if max_buffer_size < line.length then (true, emptyEvent)
  else (false, line ++ [newline])

def handleLines (skip_mode : Bool) : List Bytes → Bool × Bytes
  | [] => (skip_mode, [])
  | line :: lines =>
    let handled := handleLine max_buffer_size skip_mode line
    let rest := handleLines handled.1 lines
    (rest.1, handled.2 ++ rest.2)

/-- What is kept of the last line, which is not complete. -/
def keepFragment (skip_mode : Bool) (buffer : Bytes) : State :=
  if !skip_mode && decide (max_buffer_size < buffer.length) then ⟨[], true⟩ else ⟨buffer, skip_mode⟩

/-- One turn of the loop, with what it yields. -/
def handleChunk (s : State) (data : Bytes) : State × Bytes :=
  if data = [] then (s, [])
  else
    let buffer := if s.skip_mode && decide (max_buffer_size < s.buffer.length) then [] else s.buffer
    let lines := (buffer ++ data).splitOn newline
    let handled := handleLines max_buffer_size s.skip_mode lines.dropLast
    (keepFragment max_buffer_size handled.1 (lines.getLastD []), handled.2)

/-- The rest of the loop, and what is yielded after it. -/
def handleChunks (s : State) : List Bytes → Bytes
  | [] => if s.buffer ≠ [] && !s.skip_mode then s.buffer ++ [newline] else []
  | data :: chunks =>
    let handled := handleChunk max_buffer_size s data
    handled.2 ++ handleChunks handled.1 chunks

/-- All that is yielded, for a limit that is positive. -/
def stream_chunks_handler (chunks : List Bytes) : Bytes := handleChunks max_buffer_size ⟨[], false⟩ chunks

/-! ## What it should do -/

/-- The lines of a stream; the last need not have a newline. -/
def streamLines (stream : Bytes) : List Bytes :=
  let lines := stream.splitOn newline
  if lines.getLastD [] = [] then lines.dropLast else lines

/-- A line with its newline, or an empty event in its place. -/
def filteredLine (line : Bytes) : Bytes := if line.length ≤ max_buffer_size then line ++ [newline] else emptyEvent

def filtered (stream : Bytes) : Bytes := (streamLines stream).flatMap (filteredLine max_buffer_size)

/-! ## Pieces of lines -/

/-- A line that is complete, from the pieces that it arrived in: what is held of it is forgotten when it is too long. -/
def passLine (skip_mode : Bool) (held : Bytes) : List Bytes → Bool × Bytes
  | [] => handleLine max_buffer_size skip_mode held
  | [piece] => handleLine max_buffer_size skip_mode (held ++ piece)
  | piece :: pieces =>
    if max_buffer_size < (held ++ piece).length then passLine true [] pieces
    else passLine skip_mode (held ++ piece) pieces

/-- A line that is not complete when the stream ends. -/
def passRest (skip_mode : Bool) (held : Bytes) : List Bytes → Bytes
  | [] => if held ≠ [] && !skip_mode then held ++ [newline] else []
  | piece :: pieces =>
    if max_buffer_size < (held ++ piece).length then passRest true [] pieces
    else passRest skip_mode (held ++ piece) pieces

def passLines (skip_mode : Bool) (held : Bytes) : List (List Bytes) → Bytes
  | [] => []
  | [rest] => passRest max_buffer_size skip_mode held rest
  | line :: lines =>
    let passed := passLine max_buffer_size skip_mode held line
    passed.2 ++ passLines passed.1 [] lines

/-! ## The condition -/

/-- A complete line is seen to be too long: it is longer than the limit also from where it was last forgotten. -/
def caught (held : Nat) : List Bytes → Bool
  | [] => max_buffer_size < held
  | [piece] => max_buffer_size < held + piece.length
  | piece :: pieces =>
    if max_buffer_size < held + piece.length then caught 0 pieces else caught (held + piece.length) pieces

/-- Every line is seen to be too long, and after the last there is nothing. -/
def AllCaught : List (List Bytes) → Prop
  | [] => True
  | [rest] => rest.flatten = []
  | line :: lines => caught max_buffer_size 0 line ∧ AllCaught lines

/-- After the first line that is too long, it and all that follow are seen to be too long. -/
def Filterable : List (List Bytes) → Prop
  | [] => True
  | [rest] => rest.flatten.length ≤ max_buffer_size
  | line :: lines => line.flatten.length ≤ max_buffer_size ∧ Filterable lines ∨ AllCaught max_buffer_size (line :: lines)

end

variable {max_buffer_size : Nat}

/-! ## Line by line -/

/-- What is held of the line in progress. -/
def State.held (max_buffer_size : Nat) (s : State) : Bytes :=
  if s.skip_mode && decide (max_buffer_size < s.buffer.length) then [] else s.buffer

/-- The buffer is part of one line, and is not too long unless it is to be skipped. -/
structure State.Wf (max_buffer_size : Nat) (s : State) : Prop where
  newline : newline ∉ s.buffer
  short : s.skip_mode = false → s.buffer.length ≤ max_buffer_size

theorem State.Wf.length_held {s : State} (h : s.Wf max_buffer_size) :
    (s.held max_buffer_size).length ≤ max_buffer_size := by
  rw [State.held]
  split
  · exact Nat.zero_le _
  · rename_i hheld
    cases hskip : s.skip_mode with
    | false => exact h.short hskip
    | true => simpa [hskip] using hheld

theorem splitOn_append_of_not_mem {held data : Bytes} (h : newline ∉ held) :
    (held ++ data).splitOn newline = (data.splitOn newline).modifyHead (held ++ ·) := by
  induction held with
  | nil =>
    have hdata : data.splitOn newline ≠ [] := splitOn_ne_nil data
    obtain ⟨field, fields, hfields⟩ := List.exists_cons_of_ne_nil hdata
    rw [List.nil_append, hfields]
    rfl
  | cons b held ih =>
    rw [List.mem_cons, not_or] at h
    rw [List.cons_append, splitOn_cons, if_neg (fun heq => h.1 heq.symm), ih h.2, List.modifyHead_modifyHead]
    rfl

theorem passLine_piece (skip_mode : Bool) (held piece next : Bytes) (rest : List Bytes) :
    passLine max_buffer_size skip_mode held (piece :: next :: rest) =
      if max_buffer_size < (held ++ piece).length then passLine max_buffer_size true [] (next :: rest)
      else passLine max_buffer_size skip_mode (held ++ piece) (next :: rest) :=
  rfl

/-- After a piece of a line. -/
theorem passLines_piece (skip_mode : Bool) (held field : Bytes) {first : List Bytes} {others : List (List Bytes)}
    (hfirst : others ≠ [] → first ≠ []) : passLines max_buffer_size skip_mode held ((field :: first) :: others) =
      if max_buffer_size < (held ++ field).length then passLines max_buffer_size true [] (first :: others)
      else passLines max_buffer_size skip_mode (held ++ field) (first :: others) := by
  cases others with
  | nil => rfl
  | cons second others =>
    obtain ⟨piece, pieces, rfl⟩ := List.exists_cons_of_ne_nil (hfirst (List.cons_ne_nil _ _))
    show (passLine max_buffer_size skip_mode held (field :: piece :: pieces)).2 ++ _ = _
    rw [passLine_piece]
    split <;> rfl

/-- After the last piece of a line. -/
theorem passLines_line (skip_mode : Bool) (held : Bytes) (line : List Bytes) {lines : List (List Bytes)}
    (hlines : lines ≠ []) : passLines max_buffer_size skip_mode held (line :: lines) =
      (passLine max_buffer_size skip_mode held line).2 ++
        passLines max_buffer_size (passLine max_buffer_size skip_mode held line).1 [] lines := by
  obtain ⟨next, lines, rfl⟩ := List.exists_cons_of_ne_nil hlines
  rfl

/-- What is kept is held: a fragment that is too long is forgotten now or with the next chunk. -/
theorem passLines_keepFragment (skip_mode : Bool) (buffer : Bytes) (lines : List (List Bytes)) :
    let s := keepFragment max_buffer_size skip_mode buffer
    passLines max_buffer_size s.skip_mode (s.held max_buffer_size) lines =
      if max_buffer_size < buffer.length then passLines max_buffer_size true [] lines
      else passLines max_buffer_size skip_mode buffer lines := by
  intro s
  by_cases hlong : max_buffer_size < buffer.length
  · rw [if_pos hlong]
    cases skip_mode <;> simp [s, keepFragment, State.held, hlong]
  · rw [if_neg hlong]
    cases skip_mode <;> simp [s, keepFragment, State.held, hlong]

theorem wf_keepFragment (skip_mode : Bool) {buffer : Bytes} (h : newline ∉ buffer) :
    (keepFragment max_buffer_size skip_mode buffer).Wf max_buffer_size := by
  rw [keepFragment]
  split
  · exact ⟨List.not_mem_nil, fun hskip => absurd hskip (by decide)⟩
  · rename_i hkeep
    refine ⟨h, ?_⟩
    rintro rfl
    simpa using hkeep

/-- A chunk gives to each of its lines a piece. -/
theorem handleLines_eq {rest : List (List Bytes)} (hrest : rest ≠ [])
    (hpieces : ∀ first others, rest = first :: others → others ≠ [] → first ≠ []) (skip_mode : Bool) (held : Bytes)
    (field : Bytes) (fields : List Bytes) :
    let lines := (held ++ field) :: fields
    let handled := handleLines max_buffer_size skip_mode lines.dropLast
    let s := keepFragment max_buffer_size handled.1 (lines.getLastD [])
    handled.2 ++ passLines max_buffer_size s.skip_mode (s.held max_buffer_size) rest =
      passLines max_buffer_size skip_mode held (hang (field :: fields) rest) := by
  induction fields generalizing skip_mode held field with
  | nil =>
    obtain ⟨first, others, rfl⟩ := List.exists_cons_of_ne_nil hrest
    intro lines handled s
    -- the chunk ends in the line, which goes on
    show passLines max_buffer_size s.skip_mode (s.held max_buffer_size) (first :: others) =
      passLines max_buffer_size skip_mode held ((field :: first) :: others)
    rw [passLines_piece skip_mode held field (hpieces first others rfl)]
    exact passLines_keepFragment skip_mode (held ++ field) (first :: others)
  | cons next fields ih =>
    intro lines handled s
    -- the line ends, and nothing is held of the next
    have hnext := ih (handleLine max_buffer_size skip_mode (held ++ field)).1 [] next
    have hhang : hang (next :: fields) rest ≠ [] := by
      cases fields with
      | nil =>
        obtain ⟨first, others, rfl⟩ := List.exists_cons_of_ne_nil hrest
        exact List.cons_ne_nil _ _
      | cons third fields => exact List.cons_ne_nil _ _
    show (handleLine max_buffer_size skip_mode (held ++ field)).2 ++ _ ++ _ =
      passLines max_buffer_size skip_mode held ([field] :: hang (next :: fields) rest)
    rw [passLines_line skip_mode held [field] hhang, List.append_assoc]
    exact congrArg _ hnext

theorem handleChunk_eq (s : State) {data : Bytes} (h : data ≠ []) :
    handleChunk max_buffer_size s data =
      let lines := (s.held max_buffer_size ++ data).splitOn newline
      let handled := handleLines max_buffer_size s.skip_mode lines.dropLast
      (keepFragment max_buffer_size handled.1 (lines.getLastD []), handled.2) := by
  rw [handleChunk, if_neg h]
  rfl

/-- **The handler passes on line by line**, each from the pieces that it arrives in. -/
theorem handler_eq {s : State} (h : s.Wf max_buffer_size) (chunks : List Bytes) :
    handleChunks max_buffer_size s chunks =
      passLines max_buffer_size s.skip_mode (s.held max_buffer_size) (pieces newline chunks) := by
  induction chunks generalizing s with
  | nil =>
    obtain ⟨buffer, skip_mode⟩ := s
    cases skip_mode with
    | false => rfl
    | true => simp [handleChunks, pieces, passLines, passRest]
  | cons data chunks ih =>
    have hrest : pieces newline chunks ≠ [] := pieces_ne_nil chunks
    have hpieces : ∀ first others, pieces newline chunks = first :: others → others ≠ [] → first ≠ [] :=
      fun first others hfirst => ne_nil_of_pieces hfirst
    by_cases hdata : data = []
    · -- an empty chunk is passed over
      obtain ⟨first, others, hfirst⟩ := List.exists_cons_of_ne_nil hrest
      rw [handleChunks, handleChunk, if_pos hdata, List.nil_append, ih h, hdata, pieces, hfirst]
      show _ = passLines max_buffer_size s.skip_mode (s.held max_buffer_size) (([] :: first) :: others)
      rw [passLines_piece _ _ _ (hpieces first others hfirst), List.append_nil, if_neg (Nat.not_lt.mpr h.length_held)]
    · obtain ⟨field, fields, hfields⟩ : ∃ field fields, data.splitOn newline = field :: fields :=
        List.exists_cons_of_ne_nil (splitOn_ne_nil data)
      have hheld : newline ∉ s.held max_buffer_size := by
        rw [State.held]
        split
        · exact List.not_mem_nil
        · exact h.newline
      have hlines : (s.held max_buffer_size ++ data).splitOn newline = (s.held max_buffer_size ++ field) :: fields := by
        rw [splitOn_append_of_not_mem hheld, hfields, List.modifyHead_cons]
      have hlast : newline ∉ ((s.held max_buffer_size ++ field) :: fields).getLastD [] := by
        apply not_mem_of_mem_splitOn
        rw [hlines, List.getLastD_cons]
        exact List.getLastD_mem_cons
      rw [handleChunks, handleChunk_eq s hdata, hlines]
      show _ ++ handleChunks max_buffer_size
        (keepFragment _ _ (((s.held max_buffer_size ++ field) :: fields).getLastD [])) _ = _
      rw [ih (wf_keepFragment _ hlast), pieces, hfields]
      exact handleLines_eq hrest hpieces s.skip_mode (s.held max_buffer_size) field fields

/-! ## One line -/

theorem length_of_caught {held : Nat} {line : List Bytes} (h : caught max_buffer_size held line) :
    max_buffer_size < held + line.flatten.length := by
  induction held, line using caught.induct max_buffer_size with
  | case1 held => simpa [caught] using h
  | case2 held piece => simpa [caught] using h
  | case3 held piece pieces hpieces hlong ih => 
      rw [List.flatten_cons, List.length_append]
      omega
  | case4 held piece pieces hpieces hshort ih =>
    rw [List.flatten_cons, List.length_append, ← Nat.add_assoc]
    rw [caught, if_neg hshort] at h
    exact ih h
    exact hpieces

theorem handleLine_of_fits {line : Bytes} (h : line.length ≤ max_buffer_size) :
    handleLine max_buffer_size false line = (false, line ++ [newline]) := if_neg (Nat.not_lt.mpr h)

theorem handleLine_of_long (skip_mode : Bool) {line : Bytes} (h : max_buffer_size < line.length) :
    handleLine max_buffer_size skip_mode line = (true, emptyEvent) := by
  cases skip_mode with
  | false => exact if_pos h
  | true => exact if_neg (Nat.not_le.mpr h)

/-- A line that fits is passed on. -/
theorem passLine_of_fits {held : Bytes} {line : List Bytes} (h : (held ++ line.flatten).length ≤ max_buffer_size) :
    passLine max_buffer_size false held line = (false, held ++ line.flatten ++ [newline]) := by
  induction line generalizing held with
  | nil =>
    rw [List.flatten_nil, List.append_nil] at h ⊢
    exact handleLine_of_fits h
  | cons piece line ih =>
    rw [List.flatten_cons, ← List.append_assoc] at h ⊢
    cases line with
    | nil =>
      rw [List.flatten_nil, List.append_nil] at h ⊢
      exact handleLine_of_fits h
    | cons next rest =>
      have hpiece : ¬ max_buffer_size < (held ++ piece).length := by
        rw [List.length_append] at h
        omega
      rw [passLine_piece, if_neg hpiece]
      exact ih h

/-- A line that is seen to be too long is replaced by an empty event. -/
theorem passLine_of_caught (skip_mode : Bool) {held : Bytes} {line : List Bytes}
    (h : caught max_buffer_size held.length line) :
    passLine max_buffer_size skip_mode held line = (true, emptyEvent) := by
  induction line generalizing skip_mode held with
  | nil => exact handleLine_of_long skip_mode (of_decide_eq_true h)
  | cons piece line ih =>
    cases line with
    | nil =>
      apply handleLine_of_long skip_mode
      rw [List.length_append]
      exact of_decide_eq_true h
    | cons next rest =>
      rw [passLine_piece]
      rw [caught, ← List.length_append] at h
      · split at h
        · rename_i hlong
          rw [if_pos hlong]
          exact ih true h
        · rename_i hshort
          rw [if_neg hshort]
          exact ih skip_mode h
      · exact List.cons_ne_nil _ _

theorem handleLine_of_lost (skip_mode : Bool) {line : Bytes} (hnewline : newline ∉ line)
    (hfits : line.length ≤ max_buffer_size) (hskip : skip_mode = false → max_buffer_size < line.length) :
    (handleLine max_buffer_size skip_mode line).1 = false ∧
      newline ∉ (handleLine max_buffer_size skip_mode line).2 := by
  cases skip_mode with
  | false => exact absurd (hskip rfl) (Nat.not_lt.mpr hfits)
  | true =>
    rw [handleLine, if_pos rfl, if_pos hfits]
    exact ⟨rfl, hnewline⟩

/-- After a line that was too long, one that is not is passed on without its newline; and so is the end of one that was
forgotten and goes on with less. -/
theorem passLine_of_lost (skip_mode : Bool) {held : Bytes} {line : List Bytes}
    (hnewline : newline ∉ held ++ line.flatten) (hcaught : caught max_buffer_size held.length line = false)
    (hskip : skip_mode = false → max_buffer_size < (held ++ line.flatten).length) :
    (passLine max_buffer_size skip_mode held line).1 = false ∧
      newline ∉ (passLine max_buffer_size skip_mode held line).2 := by
  induction line generalizing skip_mode held with
  | nil =>
    rw [List.flatten_nil, List.append_nil] at hnewline hskip
    exact handleLine_of_lost skip_mode hnewline (Nat.not_lt.mp (of_decide_eq_false hcaught)) hskip
  | cons piece line ih =>
    rw [List.flatten_cons, ← List.append_assoc] at hnewline hskip
    cases line with
    | nil =>
      rw [List.flatten_nil, List.append_nil] at hnewline hskip
      apply handleLine_of_lost skip_mode hnewline _ hskip
      rw [List.length_append]
      exact Nat.not_lt.mp (of_decide_eq_false hcaught)
    | cons next rest =>
      rw [passLine_piece]
      rw [caught, ← List.length_append] at hcaught
      · split at hcaught
        · rename_i hlong
          rw [if_pos hlong]
          -- the beginning is forgotten
          have hrest : newline ∉ [] ++ (next :: rest).flatten := fun hmem => hnewline (List.mem_append_right _ hmem)
          apply ih true hrest hcaught
          exact fun hfalse => absurd hfalse Bool.noConfusion
        · rename_i hshort
          rw [if_neg hshort]
          exact ih skip_mode hnewline hcaught hskip
      · exact List.cons_ne_nil _ _

/-! ## The line that is not complete -/

theorem passRest_skip (held : Bytes) (rest : List Bytes) : passRest max_buffer_size true held rest = [] := by
  induction rest generalizing held with
  | nil =>
    show (if held ≠ [] && false then held ++ [newline] else []) = []
    rw [Bool.and_false]
    rfl
  | cons piece rest ih =>
    rw [passRest, ih, ih, ite_self]

theorem passRest_of_fits {held : Bytes} {rest : List Bytes} (h : (held ++ rest.flatten).length ≤ max_buffer_size) :
    passRest max_buffer_size false held rest =
      if held ++ rest.flatten = [] then [] else held ++ rest.flatten ++ [newline] := by
  induction rest generalizing held with
  | nil =>
    rw [List.flatten_nil, List.append_nil]
    cases held <;> rfl
  | cons piece rest ih =>
    rw [List.flatten_cons, ← List.append_assoc] at h ⊢
    have hpiece : ¬ max_buffer_size < (held ++ piece).length := by
      rw [List.length_append] at h
      omega
    rw [passRest, if_neg hpiece]
    exact ih h

/-- It is not passed on at all when it is too long. -/
theorem passRest_of_long {held : Bytes} {rest : List Bytes} (hheld : held.length ≤ max_buffer_size)
    (h : max_buffer_size < (held ++ rest.flatten).length) : passRest max_buffer_size false held rest = [] := by
  induction rest generalizing held with
  | nil =>
    rw [List.flatten_nil, List.append_nil] at h
    exact absurd h (Nat.not_lt.mpr hheld)
  | cons piece rest ih =>
    rw [List.flatten_cons, ← List.append_assoc] at h
    rw [passRest]
    split
    · exact passRest_skip [] rest
    · rename_i hpiece
      exact ih (Nat.not_lt.mp hpiece) h

/-! ## When the lines come out right -/

/-- The lines, without those that do not follow a newline and are empty. -/
def filteredLines (max_buffer_size : Nat) : List Bytes → Bytes
  | [] => []
  | [rest] => if rest = [] then [] else filteredLine max_buffer_size rest
  | line :: lines => filteredLine max_buffer_size line ++ filteredLines max_buffer_size lines

theorem filteredLines_cons (line : Bytes) {lines : List Bytes} (h : lines ≠ []) :
    filteredLines max_buffer_size (line :: lines) =
      filteredLine max_buffer_size line ++ filteredLines max_buffer_size lines := by
  obtain ⟨next, lines, rfl⟩ := List.exists_cons_of_ne_nil h
  rfl

theorem filteredLines_eq (lines : List Bytes) : filteredLines max_buffer_size lines =
    (if lines.getLastD [] = [] then lines.dropLast else lines).flatMap (filteredLine max_buffer_size) := by
  induction lines with
  | nil => rfl
  | cons line lines ih =>
    cases lines with
    | nil =>
      rw [filteredLines, List.getLastD_cons]
      show _ = (if line = [] then [] else [line]).flatMap _
      split
      · rfl
      · exact (List.flatMap_singleton _ _).symm
    | cons next lines =>
      rw [filteredLines_cons line (List.cons_ne_nil _ _), ih, List.getLastD_cons, List.getLastD_cons,
        List.getLastD_cons, List.dropLast_cons_of_ne_nil (List.cons_ne_nil _ _)]
      split <;> rfl

theorem filtered_eq (stream : Bytes) :
    filtered max_buffer_size stream = filteredLines max_buffer_size (stream.splitOn newline) :=
  (filteredLines_eq _).symm

theorem count_filteredLine (max_buffer_size : Nat) {line : Bytes} (h : newline ∉ line) :
    (filteredLine max_buffer_size line).count newline = 1 := by
  rw [filteredLine]
  split
  · rw [List.count_append, List.count_eq_zero.mpr h]
    rfl
  · rfl

theorem filteredLine_of_caught {line : List Bytes} (h : caught max_buffer_size 0 line) :
    filteredLine max_buffer_size line.flatten = emptyEvent := by
  have hlong := length_of_caught h
  rw [Nat.zero_add] at hlong
  exact if_neg (Nat.not_le.mpr hlong)

/-- A line comes out right, or without a newline. -/
theorem passLine_right_iff (max_buffer_size : Nat) {line : List Bytes} (h : newline ∉ line.flatten) (skip_mode : Bool) :
    let passed := passLine max_buffer_size skip_mode [] line
    if caught max_buffer_size 0 line then passed = (true, filteredLine max_buffer_size line.flatten)
    else if skip_mode = false ∧ line.flatten.length ≤ max_buffer_size then
      passed = (false, filteredLine max_buffer_size line.flatten)
    else newline ∉ passed.2 := by
  intro passed
  split
  · rename_i hcaught
    rw [filteredLine_of_caught hcaught]
    exact passLine_of_caught skip_mode hcaught
  · rename_i hcaught
    split
    · rename_i hfits
      obtain ⟨rfl, hfits⟩ := hfits
      rw [filteredLine, if_pos hfits]
      exact passLine_of_fits hfits
    · rename_i hlost
      have hskip : skip_mode = false → max_buffer_size < ([] ++ line.flatten).length :=
        fun hskip => Nat.not_le.mp (fun hle => hlost ⟨hskip, hle⟩)
      exact (passLine_of_lost skip_mode h (Bool.eq_false_iff.mpr hcaught) hskip).2

theorem passLine_right_or (skip_mode : Bool) {line : List Bytes} (h : newline ∉ line.flatten) :
    (passLine max_buffer_size skip_mode [] line).2 = filteredLine max_buffer_size line.flatten ∨
      newline ∉ (passLine max_buffer_size skip_mode [] line).2 := by
  have hpass := passLine_right_iff max_buffer_size h skip_mode
  split at hpass
  · exact Or.inl (congrArg Prod.snd hpass)
  · split at hpass
    · exact Or.inl (congrArg Prod.snd hpass)
    · exact Or.inr hpass

theorem count_passLine_le {line : List Bytes} (h : newline ∉ line.flatten) (skip_mode : Bool) :
    (passLine max_buffer_size skip_mode [] line).2.count newline ≤ 1 := by
  rcases passLine_right_or skip_mode h with hright | hlost
  · rw [hright]
    exact Nat.le_of_eq (count_filteredLine max_buffer_size h)
  · rw [List.count_eq_zero.mpr hlost]
    exact Nat.zero_le 1

theorem passRest_of_short {rest : List Bytes} (h : rest.flatten.length ≤ max_buffer_size) :
    passRest max_buffer_size false [] rest = filteredLines max_buffer_size [rest.flatten] := by
  have hpass : passRest max_buffer_size false [] rest = if rest.flatten = [] then [] else rest.flatten ++ [newline] :=
    passRest_of_fits h
  rw [hpass, filteredLines, filteredLine, if_pos h]

theorem count_passRest_le (rest : List Bytes) (skip_mode : Bool) :
    (passRest max_buffer_size skip_mode [] rest).count newline ≤
      (filteredLines max_buffer_size [rest.flatten]).count newline := by
  cases skip_mode with
  | true =>
    rw [passRest_skip]
    exact Nat.zero_le _
  | false =>
    by_cases hfits : rest.flatten.length ≤ max_buffer_size
    · exact Nat.le_of_eq (congrArg (List.count newline) (passRest_of_short hfits))
    · have hpass : passRest max_buffer_size false [] rest = [] :=
        passRest_of_long (Nat.zero_le _) (Nat.not_le.mp hfits)
      rw [hpass]
      exact Nat.zero_le _

/-- A line never gives more than one newline, and the lines that come out right give one each. -/
theorem count_passLines_le (max_buffer_size : Nat) {lines : List (List Bytes)} (h : ∀ line ∈ lines, newline ∉ line.flatten)
    (skip_mode : Bool) : (passLines max_buffer_size skip_mode [] lines).count newline ≤
      (filteredLines max_buffer_size (lines.map List.flatten)).count newline := by
  induction lines generalizing skip_mode with
  | nil => exact Nat.zero_le _
  | cons line lines ih =>
    have hline := h line List.mem_cons_self
    cases lines with
    | nil => exact count_passRest_le line skip_mode
    | cons next lines =>
      rw [passLines_line skip_mode [] line (List.cons_ne_nil _ _)]
      show _ ≤ (filteredLine max_buffer_size line.flatten ++
        filteredLines max_buffer_size ((next :: lines).map List.flatten)).count newline
      rw [List.count_append, List.count_append, count_filteredLine max_buffer_size hline]
      apply Nat.add_le_add (count_passLine_le hline skip_mode)
      exact ih (fun line hmem => h line (List.mem_cons_of_mem _ hmem)) _

theorem ne_filteredLine {line passed : Bytes} (h : newline ∉ line) (hlost : newline ∉ passed) :
    passed ≠ filteredLine max_buffer_size line := by
  rintro rfl
  have hcount := count_filteredLine max_buffer_size h
  rw [List.count_eq_zero.mpr hlost] at hcount
  exact absurd hcount Nat.zero_ne_one

/-- The lines come out right from a line on when it does and those that follow do. -/
theorem passLines_line_iff {line : List Bytes} {lines : List (List Bytes)} (hlines : lines ≠ [])
    (h : ∀ other ∈ line :: lines, newline ∉ other.flatten) (skip_mode : Bool) :
    passLines max_buffer_size skip_mode [] (line :: lines) =
        filteredLines max_buffer_size ((line :: lines).map List.flatten) ↔
      (passLine max_buffer_size skip_mode [] line).2 = filteredLine max_buffer_size line.flatten ∧
        passLines max_buffer_size (passLine max_buffer_size skip_mode [] line).1 [] lines =
          filteredLines max_buffer_size (lines.map List.flatten) := by
  have hmap : lines.map List.flatten ≠ [] := fun hnil => hlines (List.map_eq_nil_iff.mp hnil)
  have hline := h line List.mem_cons_self
  rw [passLines_line skip_mode [] line hlines, List.map_cons, filteredLines_cons _ hmap]
  rcases passLine_right_or skip_mode hline with hright | hlost
  · rw [hright, List.append_right_inj]
    exact (and_iff_right rfl).symm
  · -- a newline is missing, and no line that follows makes up for it
    apply iff_of_false
    · intro heq
      have hnewlines := congrArg (List.count newline) heq
      have hle := count_passLines_le max_buffer_size (fun other hmem => h other (List.mem_cons_of_mem _ hmem))
        (passLine max_buffer_size skip_mode [] line).1
      rw [List.count_append, List.count_append, count_filteredLine max_buffer_size hline,
        List.count_eq_zero.mpr hlost, Nat.zero_add] at hnewlines
      rw [hnewlines] at hle
      omega
    · rintro ⟨hright, -⟩
      exact ne_filteredLine hline hlost hright

/-- After a line that was too long. -/
theorem passLines_skip_iff {lines : List (List Bytes)} (h : ∀ line ∈ lines, newline ∉ line.flatten) :
    passLines max_buffer_size true [] lines = filteredLines max_buffer_size (lines.map List.flatten) ↔
      AllCaught max_buffer_size lines := by
  induction lines with
  | nil => exact iff_of_true rfl trivial
  | cons line lines ih =>
    cases lines with
    | nil =>
      show passRest max_buffer_size true [] line = filteredLines max_buffer_size [line.flatten] ↔ line.flatten = []
      rw [passRest_skip, filteredLines]
      split
      · rename_i hempty
        exact iff_of_true rfl hempty
      · rename_i hline
        exact iff_of_false (ne_filteredLine (h line List.mem_cons_self) List.not_mem_nil) hline
    | cons next lines =>
      have hline := h line List.mem_cons_self
      have hpass := passLine_right_iff max_buffer_size hline true
      rw [passLines_line_iff (List.cons_ne_nil _ _) h true]
      show _ ↔ caught max_buffer_size 0 line ∧ AllCaught max_buffer_size (next :: lines)
      rw [← ih (fun other hmem => h other (List.mem_cons_of_mem _ hmem))]
      split at hpass
      · rename_i hcaught
        rw [hpass]
        exact and_congr (iff_of_true rfl hcaught) Iff.rfl
      · rename_i hcaught
        rw [if_neg (fun hfits => absurd hfits.1 Bool.noConfusion)] at hpass
        apply iff_of_false
        · exact fun hright => ne_filteredLine hline hpass hright.1
        · exact fun hall => hcaught hall.1

/-- As long as no line was too long. -/
theorem passLines_iff {lines : List (List Bytes)} (h : ∀ line ∈ lines, newline ∉ line.flatten) :
    passLines max_buffer_size false [] lines = filteredLines max_buffer_size (lines.map List.flatten) ↔
      Filterable max_buffer_size lines := by
  induction lines with
  | nil => exact iff_of_true rfl trivial
  | cons line lines ih =>
    have hline := h line List.mem_cons_self
    cases lines with
    | nil =>
      show passRest max_buffer_size false [] line = filteredLines max_buffer_size [line.flatten] ↔
        line.flatten.length ≤ max_buffer_size
      by_cases hfits : line.flatten.length ≤ max_buffer_size
      · exact iff_of_true (passRest_of_short hfits) hfits
      · apply iff_of_false _ hfits
        have hpass : passRest max_buffer_size false [] line = [] :=
          passRest_of_long (Nat.zero_le _) (Nat.not_le.mp hfits)
        have hsome : line.flatten ≠ [] := by
          intro hempty
          rw [hempty] at hfits
          exact hfits (Nat.zero_le _)
        rw [hpass, filteredLines, if_neg hsome]
        exact ne_filteredLine hline List.not_mem_nil
    | cons next lines =>
      have hrest : ∀ other ∈ next :: lines, newline ∉ other.flatten :=
        fun other hmem => h other (List.mem_cons_of_mem _ hmem)
      have hpass := passLine_right_iff max_buffer_size hline false
      rw [passLines_line_iff (List.cons_ne_nil _ _) h false]
      show _ ↔ line.flatten.length ≤ max_buffer_size ∧ Filterable max_buffer_size (next :: lines) ∨
        caught max_buffer_size 0 line ∧ AllCaught max_buffer_size (next :: lines)
      rw [← ih hrest, ← passLines_skip_iff hrest]
      split at hpass
      · -- from here on the handler skips
        rename_i hcaught
        have hlong := length_of_caught hcaught
        rw [hpass]
        constructor
        · exact fun hright => Or.inr ⟨hcaught, hright.2⟩
        · rintro (⟨hfits, -⟩ | ⟨-, hskipped⟩)
          · omega
          · exact ⟨rfl, hskipped⟩
      · rename_i hcaught
        split at hpass
        · rename_i hfits
          rw [hpass]
          constructor
          · exact fun hright => Or.inl ⟨hfits.2, hright.2⟩
          · rintro (⟨-, hpassed⟩ | ⟨hall, -⟩)
            · exact ⟨rfl, hpassed⟩
            · exact absurd hall hcaught
        · rename_i hlost
          apply iff_of_false
          · exact fun hright => ne_filteredLine hline hpass hright.1
          · rintro (⟨hfits, -⟩ | ⟨hall, -⟩)
            · exact hlost ⟨rfl, hfits⟩
            · exact hcaught hall

/-- **The lines come out right when every line fits, and when from the first that does not on all are seen to be too
long.** -/
theorem filtered_iff (max_buffer_size : Nat) (chunks : List Bytes) :
    stream_chunks_handler max_buffer_size chunks = filtered max_buffer_size chunks.flatten ↔
      Filterable max_buffer_size (pieces newline chunks) := by
  have hwf : State.Wf max_buffer_size ⟨[], false⟩ := ⟨List.not_mem_nil, fun _ => Nat.zero_le _⟩
  have hlines : ∀ line ∈ pieces newline chunks, newline ∉ line.flatten := by
    intro line hline
    apply not_mem_of_mem_splitOn
    rw [← flatten_pieces chunks]
    exact List.mem_map_of_mem hline
  rw [stream_chunks_handler, handler_eq hwf, filtered_eq, ← flatten_pieces]
  exact passLines_iff hlines

/-- A line that fits, after one that does not: it loses its newline, and the next is joined to it. -/
theorem short_line_joined : ¬ ∀ (max_buffer_size : Nat) (chunks : List Bytes), 0 < max_buffer_size →
    stream_chunks_handler max_buffer_size chunks = filtered max_buffer_size chunks.flatten := by
  intro h
  exact absurd (h 3 ["aaaa\nb\nc\n".toUTF8.data.toList] (by decide)) (by decide)

end Streams
end MaterialOpenWebui
