import MaterialOpenWebui.Logo.Headers

/-!
# `Logo.Jpeg` — the walk over the markers of a JPEG (`readDimensions` in `app/js/core/logo.js`)

A JPEG is a sequence of markers, each a byte `0xff` and a code, of which some are followed by their length and what it counts. Before a
marker any number of bytes `0xff` may stand, to fill up. The walk takes the first of these for the marker, and the code for a length.
-/

namespace MaterialOpenWebui
namespace Logo
open Js Guarded

/-! ## Streams -/

/-- Two bytes, the high one first. -/
def wordBytes (n : Nat) : List UInt8 := [UInt8.ofNat (n / 256), UInt8.ofNat (n % 256)]

/-- The codes that a length follows: not the standalone ones, `EOI`, the frames and what is no marker. -/
def HasLength (code : UInt8) : Prop :=
  isStandalone code.toNat = false ∧ isFrame code.toNat = false ∧ code ≠ 0x00 ∧ code ≠ 0xd9 ∧ code ≠ 0xff

instance (code : UInt8) : Decidable (HasLength code) := inferInstanceAs (Decidable (_ ∧ _))

/-- What may come before the first frame: the code of a marker and what follows it. -/
inductive IsPart : UInt8 → List UInt8 → Prop where
  | standalone {code : UInt8} (h : isStandalone code.toNat = true) : IsPart code []
  | segment {code : UInt8} (h : HasLength code) {payload : List UInt8} (hlength : payload.length + 2 < 2 ^ 16) :
      IsPart code (wordBytes (payload.length + 2) ++ payload)

def markerBytes (fill : Nat) (code : UInt8) (body : List UInt8) : List UInt8 :=
    List.replicate fill 0xff ++ 0xff :: code :: body

structure Element where
  fill : Nat
  code : UInt8
  body : List UInt8
  part : IsPart code body

def Element.bytes (e : Element) : List UInt8 := markerBytes e.fill e.code e.body

/-- The header of a frame, whole: precision, height, width, and the components. -/
structure Frame where
  fill : Nat
  code : UInt8
  precision : UInt8
  height : Nat
  width : Nat
  components : List UInt8
  frame : isFrame code.toNat = true
  height_lt : height < 2 ^ 16
  width_lt : width < 2 ^ 16
  nonempty : components ≠ []
  length_lt : 7 + components.length < 2 ^ 16

def Frame.body (f : Frame) : List UInt8 :=
  wordBytes (7 + f.components.length) ++ f.precision :: (wordBytes f.height ++ wordBytes f.width ++ f.components)

def Frame.bytes (f : Frame) : List UInt8 := markerBytes f.fill f.code f.body

/-- A JPEG as far as its first frame header, and whatever follows. -/
structure Stream where
  elements : List Element
  frame : Frame
  rest : List UInt8

def Stream.bytes (s : Stream) : List UInt8 := 0xff :: 0xd8 :: (s.elements.flatMap Element.bytes ++ (s.frame.bytes ++ s.rest))

/-- The size in the first frame header. -/
def Stream.dimensions (s : Stream) : Dimensions := ⟨s.frame.width, s.frame.height, 1, .jpeg⟩

/-- No marker is filled up. -/
def Stream.Unfilled (s : Stream) : Prop := (∀ e ∈ s.elements, e.fill = 0) ∧ s.frame.fill = 0

/-- The first marker that is filled up stands at `pos`, and has the code. -/
def Stream.FilledAt (s : Stream) (pos : Nat) (code : UInt8) : Prop :=
  (∃ before e after, s.elements = before ++ e :: after ∧ (∀ x ∈ before, x.fill = 0) ∧ e.fill ≠ 0 ∧ code = e.code ∧
      pos = 2 + (before.flatMap Element.bytes).length) ∨
    (∀ x ∈ s.elements, x.fill = 0) ∧ s.frame.fill ≠ 0 ∧ code = s.frame.code ∧
      pos = 2 + (s.elements.flatMap Element.bytes).length

/-! ## One turn -/

section
variable {u8 : List UInt8}

theorem byte_append (front back : List UInt8) (k : Nat) : byte (front ++ back) (front.length + k) = byte back k := by
  unfold byte
  rw [List.getElem?_append_right (Nat.le_add_right _ _), Nat.add_sub_cancel_left]

/-- What a turn does, by the bytes it looks at. -/
theorem result_jpegTurn (i : Nat) : (jpegTurn u8 i).result = .ok (
    if byte u8 i ≠ 0xff then .next (i + 1)
    else if isStandalone (byte u8 (i + 1)) then .next (i + 2)
    else if isFrame (byte u8 (i + 1)) then .frame
    else if byte u8 (i + 2) <<< 8 ||| byte u8 (i + 3) < 2 then .stop
    else .next (i + (2 + (byte u8 (i + 2) <<< 8 ||| byte u8 (i + 3))))) := by
  rw [jpegTurn, result_of_ok (result_byteAt i)]
  by_cases hff : byte u8 i ≠ 0xff
  · rw [if_pos hff, if_pos hff]
    rfl
  rw [if_neg hff, if_neg hff, result_of_ok (result_byteAt (i + 1))]
  by_cases hstandalone : isStandalone (byte u8 (i + 1)) = true
  · rw [if_pos hstandalone, if_pos hstandalone]
    rfl
  · rw [if_neg hstandalone, if_neg hstandalone, result_of_ok (result_be16 (i + 2))]
    rfl

theorem word_value {n : Nat} (h : n < 2 ^ 16) : (UInt8.ofNat (n / 256)).toNat <<< 8 |||
    (UInt8.ofNat (n % 256)).toNat = n := by
  rw [UInt8.toNat_ofNat_of_lt' (by show _ < 256; omega), UInt8.toNat_ofNat_of_lt' (by show _ < 256; omega),
    ← Nat.shiftLeft_add_eq_or_of_lt (by omega), Nat.shiftLeft_eq]
  omega

/-- A part of the stream is stepped over as a whole. -/
theorem jpegTurn_part {code : UInt8} {body front back : List UInt8} (hpart : IsPart code body)
    (hu8 : u8 = front ++ (markerBytes 0 code body ++ back)) :
    (jpegTurn u8 front.length).result = .ok (.next (front.length + (markerBytes 0 code body).length)) := by
  have hbyte : ∀ k, byte u8 (front.length + k) = byte (markerBytes 0 code body ++ back) k := by
    rw [hu8]
    exact byte_append front _
  have hmarker : byte u8 front.length = 0xff := hbyte 0
  have hcode : byte u8 (front.length + 1) = code.toNat := hbyte 1
  rw [result_jpegTurn, hmarker, if_neg (not_not.mpr rfl), hcode]
  cases hpart with
  | standalone h =>
    rw [if_pos h]
    rfl
  | segment h hlength =>
    rename_i payload
    have hvalue : byte u8 (front.length + 2) <<< 8 ||| byte u8 (front.length + 3) = payload.length + 2 := by
      rw [hbyte 2, hbyte 3]
      exact word_value hlength
    rw [if_neg (Bool.not_eq_true _ ▸ h.1), if_neg (Bool.not_eq_true _ ▸ h.2.1), hvalue, if_neg (by omega)]
    congr 3
    show 2 + (payload.length + 2) = (payload.length + 1 + 1) + 1 + 1
    omega

/-! ## The walk ends -/

/-- Each turn goes further. -/
theorem readJpeg_finished {turns i : Nat} (hturns : 0 < turns) (h : u8.length ≤ i + turns) :
    (readJpeg u8 turns i).result ≠ .error .unfinished := by
  induction turns generalizing i with
  | zero => exact absurd hturns (Nat.lt_irrefl 0)
  | succ turns ih =>
    rw [readJpeg]
    by_cases hlen : i + 9 < u8.length
    · rw [if_pos hlen, result_of_ok (result_jpegTurn i)]
      split_ifs
      · exact ih (by omega) (by omega)
      · exact ih (by omega) (by omega)
      · exact fun h => by cases h
      · exact fun h => by cases h
      · exact ih (by omega) (by omega)
    · rw [if_neg hlen]
      exact fun h => by cases h

/-- It comes to an end in the turns it is given. -/
def Finishes {α : Type} (x : Reading α) : Prop := x.result ≠ .error .unfinished

theorem finishes_pure {α : Type} (a : α) : Finishes (pure a : Reading α) := fun h => by cases h

theorem finishes_fail {α : Type} (message : String) : Finishes (fail message : Reading α) := fun h => by cases h

theorem Finishes.bind {α β : Type} {x : Reading α} {f : α → Reading β} (hx : Finishes x)
    (hf : ∀ a, Finishes (f a)) : Finishes (x >>= f) := by
  unfold Finishes at hx ⊢
  rw [Traced.result_bind]
  cases hresult : x.result with
  | ok a => exact hf a
  | error e =>
    rw [hresult] at hx
    exact fun h => hx (congrArg Except.error (Except.error.inj h))

theorem finishes_of_ok {α : Type} {x : Reading α} {a : α} (h : x.result = .ok a) : Finishes x := by
  unfold Finishes
  rw [h]
  exact fun h => by cases h

theorem finishes_apngFrames (turns i : Nat) : Finishes (apngFrames u8 turns i) := by
  induction turns generalizing i with
  | zero => exact finishes_pure 1
  | succ turns ih =>
    refine (finishes_of_ok (result_has i acTL)).bind fun found => ?_
    split_ifs
    · exact (finishes_of_ok rfl).bind fun frames => finishes_pure _
    · exact ih (i + 1)

/-- **The size is read or refused**, of every file. -/
theorem readDimensions_finished (u8 : List UInt8) : (readDimensions u8).result ≠ .error .unfinished := by
  rw [readDimensions_same.1]
  show Finishes (readKind u8 (kindOf u8))
  cases kindOf u8 with
  | png =>
    unfold readKind readPng
    split_ifs
    · exact finishes_fail _
    refine (finishes_of_ok (result_has _ _)).bind fun found => ?_
    split_ifs
    · exact (finishes_apngFrames _ _).bind fun frames => (finishes_of_ok rfl).bind
        fun width => (finishes_of_ok rfl).bind fun height =>
        finishes_pure _
    · exact finishes_fail _
  | gif =>
    obtain ⟨frames, hframes⟩ := exists_gifFrames u8 (u8.length - 13) 13
    exact (finishes_of_ok hframes).bind fun frames => finishes_of_ok rfl
  | bmp =>
    unfold readKind readBmp
    split_ifs
    · exact finishes_fail _
    · exact finishes_of_ok rfl
  | vp8x => exact finishes_of_ok rfl
  | vp8 => exact finishes_of_ok rfl
  | vp8l => exact finishes_of_ok rfl
  | otherWebp => exact finishes_fail _
  | jpeg => exact readJpeg_finished (Nat.succ_pos _) (by omega)
  | none => exact finishes_fail _

/-! ## The walk arrives -/

/-- **The walk passes** what is not filled up, while ten bytes are left. -/
theorem readJpeg_before {before : List Element} (hbefore : ∀ e ∈ before, e.fill = 0) {front back : List UInt8}
    (hu8 : u8 = front ++ (before.flatMap Element.bytes ++ back)) (hback : 10 ≤ back.length) (turns : Nat) :
    (readJpeg u8 (before.length + turns) front.length).result =
      (readJpeg u8 turns (front.length + (before.flatMap Element.bytes).length)).result := by
  induction before generalizing front with
  | nil => rw [List.length_nil, Nat.zero_add, List.flatMap_nil, List.length_nil, Nat.add_zero]
  | cons e before ih =>
    have hfill := hbefore e List.mem_cons_self
    have hbytes : e.bytes = markerBytes 0 e.code e.body := by rw [Element.bytes, hfill]
    rw [List.flatMap_cons, List.append_assoc] at hu8
    have hroom : front.length + 9 < u8.length := by
      rw [hu8, List.length_append, List.length_append, List.length_append]
      omega
    have hturn := jpegTurn_part e.part (hbytes ▸ hu8)
    have hu8' : u8 = front ++ e.bytes ++ (before.flatMap Element.bytes ++ back) := by rw [hu8, List.append_assoc]
    have hrest := ih (fun x hx => hbefore x (List.mem_cons_of_mem _ hx)) hu8'
    rw [List.length_cons, Nat.add_right_comm, readJpeg, if_pos hroom, result_of_ok hturn, ← hbytes]
    rw [List.length_append] at hrest
    show (readJpeg u8 (before.length + turns) (front.length + e.bytes.length)).result = _
    rw [hrest, List.flatMap_cons, List.length_append, Nat.add_assoc]

/-- At a frame header the walk has arrived. -/
theorem readJpeg_frame {f : Frame} (hfill : f.fill = 0) {front rest : List UInt8}
    (hu8 : u8 = front ++ (f.bytes ++ rest)) (turns : Nat) :
    (readJpeg u8 (turns + 1) front.length).result = .ok ⟨f.width, f.height, 1, .jpeg⟩ := by
  have hbytes : f.bytes = markerBytes 0 f.code f.body := by rw [Frame.bytes, hfill]
  have hbyte : ∀ k, byte u8 (front.length + k) = byte (markerBytes 0 f.code f.body ++ rest) k := by
    rw [hu8, hbytes]
    exact byte_append front _
  have hcomponents := List.length_pos_of_ne_nil f.nonempty
  have hlength : (markerBytes 0 f.code f.body).length = 9 + f.components.length := by
    show (f.components.length + 1 + 1 + 1 + 1 + 1 + 1 + 1) + 1 + 1 = _
    omega
  have hroom : front.length + 9 < u8.length := by
    rw [hu8, hbytes, List.length_append, List.length_append, hlength]
    omega
  have hmarker : byte u8 front.length = 0xff := hbyte 0
  have hcode : byte u8 (front.length + 1) = f.code.toNat := hbyte 1
  have hstandalone : ¬ isStandalone f.code.toNat = true := by
    have hframe := f.frame
    simp only [isFrame, isStandalone, decide_eq_true_eq] at hframe ⊢
    omega
  have hturn : (jpegTurn u8 front.length).result = .ok .frame := by
    rw [result_jpegTurn, hmarker, if_neg (not_not.mpr rfl), hcode, if_neg hstandalone, if_pos f.frame]
  have hwidth : byte u8 (front.length + 7) <<< 8 ||| byte u8 (front.length + 8) = f.width := by
    rw [hbyte 7, hbyte 8]
    exact word_value f.width_lt
  have hheight : byte u8 (front.length + 5) <<< 8 ||| byte u8 (front.length + 6) = f.height := by
    rw [hbyte 5, hbyte 6]
    exact word_value f.height_lt
  rw [readJpeg, if_pos hroom, result_of_ok hturn]
  show Except.ok (Dimensions.mk (_ <<< 8 ||| _) (_ <<< 8 ||| _) 1 .jpeg) = _
  rw [hwidth, hheight]

/-- At a marker that is filled up the walk takes a code for a length, and goes beyond the end of a file that is short enough. -/
theorem readJpeg_filled {fill : Nat} {code : UInt8} {body front rest : List UInt8} (hfill : fill ≠ 0)
    (hu8 : u8 = front ++ (markerBytes fill code body ++ rest)) (hshort : u8.length ≤ front.length + 256 * code.toNat + 11)
    (turns : Nat) (d : Dimensions) : (readJpeg u8 turns front.length).result ≠ .ok d := by
  have hbyte : ∀ k, byte u8 (front.length + k) = byte (markerBytes fill code body ++ rest) k := by
    rw [hu8]
    exact byte_append front _
  have hfirst : byte u8 front.length = 0xff ∧ byte u8 (front.length + 1) = 0xff ∧
      code.toNat ≤ byte u8 (front.length + 2) := by
    have hcode : code.toNat ≤ 0xff := Nat.le_of_lt_succ code.toNat_lt
    rw [← Nat.add_zero front.length, hbyte 0, Nat.add_zero, hbyte 1, hbyte 2]
    rcases fill with _ | _ | _ | fill
    · exact absurd rfl hfill
    · exact ⟨rfl, rfl, Nat.le_refl _⟩
    · exact ⟨rfl, rfl, hcode⟩
    · exact ⟨rfl, rfl, hcode⟩
  obtain ⟨hmarker, hsecond, hcode⟩ := hfirst
  have hjump : 256 * code.toNat ≤ byte u8 (front.length + 2) <<< 8 ||| byte u8 (front.length + 3) := by
    have hle := Nat.left_le_or (n := byte u8 (front.length + 2) <<< 8) (m := byte u8 (front.length + 3))
    rw [Nat.shiftLeft_eq] at hle ⊢
    omega
  have hstandalone : ¬ isStandalone 0xff = true := by decide
  have hframe : ¬ isFrame 0xff = true := by decide
  have hbeyond : ∀ turns j, u8.length ≤ j + 9 → (readJpeg u8 turns j).result ≠ .ok d := by
    intro turns j hj h
    cases turns with
    | zero => cases h
    | succ turns =>
      rw [readJpeg, if_neg (Nat.not_lt_of_le hj)] at h
      cases h
  cases turns with
  | zero => exact fun h => by cases h
  | succ turns =>
    rw [readJpeg]
    by_cases hroom : front.length + 9 < u8.length
    · rw [if_pos hroom, result_of_ok (result_jpegTurn _), hmarker, if_neg (not_not.mpr rfl), hsecond,
        if_neg hstandalone, if_neg hframe]
      split_ifs
      · exact fun h => by cases h
      · exact hbeyond turns _ (by omega)
    · rw [if_neg hroom]
      exact fun h => by cases h

end

theorem markerBytes_cons (fill : Nat) (code : UInt8) (body : List UInt8) :
    ∃ more, markerBytes fill code body = 0xff :: more := by
  cases fill with
  | zero => exact ⟨_, rfl⟩
  | succ fill => exact ⟨_, rfl⟩

/-- A stream begins as a JPEG. -/
theorem kindOf_stream (s : Stream) : kindOf s.bytes = .jpeg := by
  obtain ⟨more, hmore⟩ : ∃ more, s.bytes = 0xff :: 0xd8 :: 0xff :: more := by
    unfold Stream.bytes
    cases s.elements with
    | nil =>
      obtain ⟨more, hframe⟩ := markerBytes_cons s.frame.fill s.frame.code s.frame.body
      exact ⟨more ++ s.rest, by rw [List.flatMap_nil, List.nil_append, Frame.bytes, hframe]; rfl⟩
    | cons e elements =>
      obtain ⟨more, helement⟩ := markerBytes_cons e.fill e.code e.body
      exact ⟨more ++ (elements.flatMap Element.bytes ++ (s.frame.bytes ++ s.rest)), by
        rw [List.flatMap_cons, List.append_assoc, Element.bytes, helement]; rfl⟩
  have hbyte : byte s.bytes 0 = 0xff := by
    rw [hmore]
    rfl
  have hother : ∀ {b : Nat} {bytes : List Nat}, b ≠ 0xff → ¬ starts s.bytes 0 (b :: bytes) = true := by
    intro b bytes hb
    rw [Bool.not_eq_true]
    exact starts_eq_false hbyte hb
  have hjpeg : starts s.bytes 0 jpegStart = true := by
    rw [hmore]
    refine decide_eq_true ⟨?_, rfl⟩
    show 3 ≤ more.length + 1 + 1 + 1
    omega
  have hriff : ¬ (starts s.bytes 0 riff = true ∧ starts s.bytes 8 webp = true) := fun h => hother (by decide) h.1
  have hpng : ¬ starts s.bytes 0 pngSignature = true := hother (by decide)
  have hgif : ¬ starts s.bytes 0 gif8 = true := hother (by decide)
  have hbm : ¬ starts s.bytes 0 bm = true := hother (by decide)
  rw [kindOf, if_neg hpng, if_neg hgif, if_neg hbm, if_neg hriff, if_pos hjpeg]

theorem length_elements (elements : List Element) : elements.length ≤ (elements.flatMap Element.bytes).length := by
  induction elements with
  | nil => exact Nat.le_refl 0
  | cons e elements ih =>
    obtain ⟨more, helement⟩ := markerBytes_cons e.fill e.code e.body
    rw [List.flatMap_cons, List.length_append, List.length_cons, Element.bytes, helement, List.length_cons]
    omega

theorem length_frame (f : Frame) : 10 ≤ f.bytes.length := by
  have hcomponents := List.length_pos_of_ne_nil f.nonempty
  have hbody : f.body.length = 7 + f.components.length := by
    show f.components.length + 1 + 1 + 1 + 1 + 1 + 1 + 1 = _
    omega
  rw [Frame.bytes, markerBytes, List.length_append, List.length_cons, List.length_cons, hbody]
  omega

/-- The walk comes to the first marker that is filled up, and goes astray there. -/
theorem readJpeg_astray {u8 : List UInt8} {before : List Element} (hunfilled : ∀ e ∈ before, e.fill = 0)
    {fill : Nat} (hfill : fill ≠ 0)
    {code : UInt8} {body rest : List UInt8} (hu8 : u8 = [0xff, 0xd8] ++
      (before.flatMap Element.bytes ++ (markerBytes fill code body ++ rest)))
    (hback : 10 ≤ (markerBytes fill code body ++ rest).length)
    (hshort : u8.length ≤ 2 + (before.flatMap Element.bytes).length + 256 * code.toNat + 11) (d : Dimensions) :
    (readJpeg u8 (u8.length + 1) 2).result ≠ .ok d := by
  have hcount := length_elements before
  have hlength : u8.length = 2 + ((before.flatMap Element.bytes).length + (markerBytes fill code body ++ rest).length) := by
    rw [hu8, List.length_append, List.length_append]
    rfl
  obtain ⟨turns, hturns⟩ : ∃ turns, u8.length + 1 = before.length + turns := ⟨u8.length + 1 - before.length, by omega⟩
  have hbefore := readJpeg_before hunfilled hu8 hback turns
  have hfront : u8 = [0xff, 0xd8] ++ before.flatMap Element.bytes ++
    (markerBytes fill code body ++ rest) := by rw [hu8, List.append_assoc]
  have hend : u8.length ≤ ([0xff, 0xd8] ++ before.flatMap Element.bytes).length + 256 * code.toNat + 11 := by
    rw [List.length_append]
    exact hshort
  have hfilled := readJpeg_filled hfill hfront hend turns d
  rw [List.length_append] at hfilled
  rw [hturns]
  exact fun h => hfilled (hbefore.symm.trans h)

/-- **The size is that of the first frame** where no marker before it is filled up. Where one is, it is not, if what follows is short
    enough; and every file is refused or read in the end. -/
theorem readDimensions_stream (s : Stream) :
    (s.Unfilled → (readDimensions s.bytes).result = .ok s.dimensions) ∧
      (∀ pos code, s.FilledAt pos code → s.bytes.length ≤ pos + 256 * code.toNat + 11 →
        (readDimensions s.bytes).result ≠ .ok s.dimensions) ∧
      ∀ u8, (readDimensions u8).result ≠ .error .unfinished := by
  have hread : (readDimensions s.bytes).result = (readJpeg s.bytes (s.bytes.length + 1) 2).result := by
    rw [readDimensions_same.1, kindOf_stream]
    rfl
  have hlength : s.bytes.length = 2 + ((s.elements.flatMap Element.bytes).length + (s.frame.bytes ++ s.rest).length) := by
    rw [Stream.bytes, List.length_cons, List.length_cons, List.length_append]
    omega
  have hframe : 10 ≤ (s.frame.bytes ++ s.rest).length := by
    rw [List.length_append]
    exact Nat.le_add_right_of_le (length_frame s.frame)
  have hcount := length_elements s.elements
  refine ⟨fun h => ?_, ?_, readDimensions_finished⟩
  · obtain ⟨turns, hturns⟩ : ∃ turns, s.bytes.length + 1 = s.elements.length + (turns + 1) :=
      ⟨s.bytes.length - s.elements.length, by omega⟩
    have hbytes : s.bytes = [0xff, 0xd8] ++ (s.elements.flatMap Element.bytes ++ (s.frame.bytes ++ s.rest)) := rfl
    have hfront : s.bytes = [0xff, 0xd8] ++ s.elements.flatMap Element.bytes ++ (s.frame.bytes ++ s.rest) := by
      rw [hbytes, List.append_assoc]
    have hbefore := readJpeg_before h.1 hbytes hframe (turns + 1)
    have harrive := readJpeg_frame h.2 hfront turns
    rw [List.length_append] at harrive
    rw [hread, hturns]
    exact hbefore.trans harrive
  · rintro pos code (⟨before, e, after, helements, hunfilled, hfill, rfl, rfl⟩ | ⟨hunfilled, hfill, rfl, rfl⟩) hshort
    · have hbytes : s.bytes = [0xff, 0xd8] ++ (before.flatMap Element.bytes ++
          (markerBytes e.fill e.code e.body ++ (after.flatMap Element.bytes ++ (s.frame.bytes ++ s.rest)))) := by
        rw [Stream.bytes, helements, List.flatMap_append, List.flatMap_cons, List.append_assoc, List.append_assoc]
        rfl
      rw [hread]
      refine readJpeg_astray hunfilled hfill hbytes ?_ hshort _
      rw [List.length_append, List.length_append]
      omega
    · have hbytes : s.bytes = [0xff, 0xd8] ++ (s.elements.flatMap Element.bytes ++
          (markerBytes s.frame.fill s.frame.code s.frame.body ++ s.rest)) := rfl
      rw [hread]
      exact readJpeg_astray hunfilled hfill hbytes hframe hshort _

/-- A frame of 32 by 16, with one component. -/
def smallFrame : Frame where
  fill := 0
  code := 0xc0
  precision := 8
  height := 16
  width := 32
  components := [1, 1, 0x11, 0]
  frame := rfl
  height_lt := Nat.le_of_ble_eq_true rfl
  width_lt := Nat.le_of_ble_eq_true rfl
  nonempty := List.cons_ne_nil _ _
  length_lt := Nat.le_of_ble_eq_true rfl

theorem appSegment_part : IsPart 0xe0 (wordBytes 4 ++ [0x4a, 0x46]) := by
  have hcode : HasLength 0xe0 := by decide
  have hlength : ([0x4a, 0x46] : List UInt8).length + 2 < 2 ^ 16 := by decide
  exact .segment hcode hlength

def smallStream : Stream := ⟨[⟨0, 0xe0, wordBytes 4 ++ [0x4a, 0x46], appSegment_part⟩], smallFrame, []⟩

theorem readDimensions_small : (readDimensions smallStream.bytes).result = .ok ⟨32, 16, 1, .jpeg⟩ := by
  have hunfilled : smallStream.Unfilled := ⟨fun e he => by rw [List.mem_singleton.mp he], rfl⟩
  exact (readDimensions_stream smallStream).1 hunfilled

/-- The same, with one byte before the frame to fill up. -/
def filledStream : Stream := { smallStream with frame := { smallFrame with fill := 1 } }

/-- Its size is not read. -/
theorem filledStream_refused : filledStream.dimensions = ⟨32, 16, 1, .jpeg⟩ ∧ (readDimensions filledStream.bytes).result =
    .error (.thrown (js "The JPEG carries no start-of-frame marker, so its size cannot be read.")) := ⟨rfl, by decide⟩

end Logo
end MaterialOpenWebui
