import MaterialOpenWebui.Zip.Listing

/-!
# `Zip.Safety` — no archive leads the listing astray

Every offset and every length comes from the file, so each access rests on the checks before it. The rules of a checked
computation carry them along: what a check passed is known after it, and the ends of the buffers follow from that. No failure is
left but the code's own, the loops end, and three bounded ranges of the file are all that is read.
-/

namespace MaterialOpenWebui
namespace Zip
open Js Guarded

/-! ## Accesses -/

/-- The errors that the code has words for. -/
def Own : Failure → Prop
  | .invalid _ => True
  | .outside => False

theorem deny_safe {cond : Prop} [Decidable cond] (reason : String) :
    Meets Own (fun _ => ¬ cond) (deny cond reason) := meets_refuse trivial

theorem getUint16_safe {bytes : List UInt8} {pos : Nat} (h : pos + 2 ≤ bytes.length) :
    Meets Own (fun n => n < 2 ^ 16) (getUint16 bytes pos) := by
  obtain ⟨n, hn, hread⟩ := LittleEndian.exists_read h
  rw [getUint16, hread]
  exact hn

theorem getUint32_safe {bytes : List UInt8} {pos : Nat} (h : pos + 4 ≤ bytes.length) :
    Meets Own (fun n => n < 2 ^ 32) (getUint32 bytes pos) := by
  obtain ⟨n, hn, hread⟩ := LittleEndian.exists_read h
  rw [getUint32, hread]
  exact hn

theorem byteAt_safe {bytes : List UInt8} {pos : Nat} (h : pos < bytes.length) :
    Meets Own (fun _ => True) (byteAt bytes pos) := by
  rw [byteAt, List.getElem?_eq_getElem h]
  trivial

theorem subarray_safe {bytes : List UInt8} {start stop : Nat} (h : start ≤ stop) (hstop : stop ≤ bytes.length) :
    Meets Own (fun part => part.length = stop - start) (subarray bytes start stop) := by
  rw [subarray, if_pos ⟨h, hstop⟩]
  show ((bytes.drop start).take (stop - start)).length = stop - start
  rw [List.length_take, List.length_drop]
  omega

/-- A range inside the file is read as a whole. -/
theorem readRange_safe {file : List UInt8} {start stop : Nat} (hstop : stop ≤ file.length) :
    Meets Own (fun bytes => bytes.length = stop - start) (readRange file start stop).result := by
  refine (deny_safe _).bind fun _ _ => ?_
  show ((file.drop start).take (stop - start)).length = stop - start
  rw [List.length_take, List.length_drop]
  omega

/-- So many ranges inside the file at most, and so many bytes in all. -/
structure Reads (file : List UInt8) (most total : Nat) (trace : List (Nat × Nat)) : Prop where
  count : trace.length ≤ most
  inside : ∀ range ∈ trace, range.1 ≤ range.2 ∧ range.2 ≤ file.length
  bytes : (trace.map fun range => range.2 - range.1).sum ≤ total

theorem Reads.none {file : List UInt8} : Reads file 0 0 [] :=
    ⟨Nat.le_refl 0, fun _ h => absurd h List.not_mem_nil, Nat.le_refl 0⟩

theorem Reads.one {file : List UInt8} {start stop : Nat} (h : start ≤ stop) (hstop : stop ≤ file.length) :
    Reads file 1 (stop - start) [(start, stop)] :=
  ⟨Nat.le_refl 1, fun range hrange => by rw [List.mem_singleton.mp hrange]; exact ⟨h, hstop⟩, Nat.le_refl _⟩

theorem Reads.mono {file : List UInt8} {m n total total' : Nat} {trace : List (Nat × Nat)}
    (h : Reads file m total trace) (hm : m ≤ n)
    (htotal : total ≤ total') : Reads file n total' trace := ⟨Nat.le_trans h.count hm, h.inside, Nat.le_trans h.bytes htotal⟩

/-- The reads of a bind are those of both parts, the second one run on what the first one yields. -/
theorem reads_bind {file : List UInt8} {α β : Type} {x : Reading α} {f : α → Reading β}
    {P : α → Prop} {m n total total' : Nat}
    (hx : Meets Own P x.result) (h : Reads file m total x.trace) (hf : ∀ a, P a → Reads file n total' (f a).trace) :
    Reads file (m + n) (total + total') (x >>= f).trace := by
  refine Traced.trace_bind hx (h.mono (Nat.le_add_right _ _) (Nat.le_add_right _ _)) fun a ha => ?_
  have hrest := hf a ha
  refine ⟨?_, fun range hrange => ?_, ?_⟩
  · rw [List.length_append]
    exact Nat.add_le_add h.count hrest.count
  · exact (List.mem_append.mp hrange).elim (h.inside range) (hrest.inside range)
  · rw [List.map_append, List.sum_append]
    exact Nat.add_le_add h.bytes hrest.bytes

/-! ## Names -/

theorem decodeUtf8_safe (bytes : List UInt8) : Meets Own (fun _ => True) (decodeUtf8 bytes) := by
  rw [decodeUtf8]
  split <;> trivial

theorem unicodePath_safe (bytes : List UInt8) {extra : List UInt8} {pos size : Nat} (h : pos + size ≤ extra.length)
    (unicodeName : Option JsString) : Meets Own (fun _ => True) (unicodePath bytes extra pos size unicodeName) := by
  refine (deny_safe _).bind fun _ _ => (deny_safe _).bind fun _ hsize => ?_
  refine (byteAt_safe (by omega)).bind fun version _ => (deny_safe _).bind fun _ _ => (deny_safe _).bind fun _ _ => ?_
  refine (getUint32_safe (by omega)).bind fun checksum _ => (deny_safe _).bind fun _ _ => ?_
  exact (subarray_safe (by omega) h).bind fun path _ => (decodeUtf8_safe path).bind fun name _ => trivial

theorem fieldName_safe (bytes : List UInt8) {extra : List UInt8} (id : Nat) {pos size : Nat} (h : pos + size ≤ extra.length)
    (unicodeName : Option JsString) : Meets Own (fun _ => True) (fieldName bytes extra id pos size unicodeName) := by
  rw [fieldName]
  split
  · exact unicodePath_safe bytes h unicodeName
  · trivial

/-- A field leads to a later position, and not over the end. -/
theorem extraField_safe (bytes extra : List UInt8) (pos : Nat) (unicodeName : Option JsString) :
    Meets Own (fun next => pos < next.1 ∧ next.1 ≤ extra.length) (extraField bytes extra pos unicodeName) := by
  refine (deny_safe _).bind fun _ hheader => (getUint16_safe (by omega)).bind fun id
    _ => (getUint16_safe (by omega)).bind fun size _ => ?_
  refine (deny_safe _).bind fun _ hfield => (deny_safe _).bind fun _ _ => (deny_safe _).bind fun _ _ => ?_
  refine (fieldName_safe bytes id (by omega) unicodeName).bind fun _ _ => ?_
  show pos < pos + 4 + size ∧ pos + 4 + size ≤ extra.length
  omega

/-- As many turns as there are bytes are enough. -/
theorem extraFields_safe (bytes extra : List UInt8) {turns pos : Nat} (h : extra.length ≤ pos + turns)
    (unicodeName : Option JsString) :
    Meets Own (fun _ => True) (extraFields bytes extra turns pos unicodeName) := by
  induction turns generalizing pos unicodeName with
  | zero =>
    rw [extraFields, if_neg (by omega)]
    trivial
  | succ turns ih =>
    rw [extraFields]
    split
    · exact (extraField_safe bytes extra pos unicodeName).bind fun next hnext => ih (by omega) next.2
    · trivial

theorem nameText_safe (bytes : List UInt8) (flags : Nat) (unicodeName : Option JsString) :
    Meets Own (fun _ => True) (nameText bytes flags unicodeName) := by
  rw [nameText]
  split
  · exact decodeUtf8_safe bytes
  · trivial

theorem filename_safe (bytes : List UInt8) (flags : Nat) (extra : List UInt8) :
    Meets Own (fun _ => True) (filename bytes flags extra) := by
  refine (extraFields_safe bytes extra (by omega) none).bind fun unicodeName
    _ => (nameText_safe bytes flags unicodeName).bind fun name _ => ?_
  exact (deny_safe _).bind fun _ _ => (deny_safe _).bind fun _ _ => trivial

/-! ## The end record -/

theorem isEnd_safe {tail : List UInt8} {pos : Nat} (h : pos + EOCD_BYTES ≤ tail.length) :
    Meets Own (fun _ => True) (isEnd tail pos) := by
  have hsize : EOCD_BYTES = 22 := rfl
  refine (getUint32_safe (by omega)).bind fun signature _ => ?_
  split
  · exact (getUint16_safe (by omega)).bind fun comment _ => trivial
  · trivial

theorem findEnd_safe {tail : List UInt8} {pos : Nat} (h : pos + EOCD_BYTES ≤ tail.length) :
    Meets Own (fun found => ∀ stop ∈ found, stop ≤ pos) (findEnd tail pos) := by
  induction pos with
  | zero =>
    refine (isEnd_safe h).bind fun found _ => ?_
    show ∀ stop ∈ (if found = true then some 0 else none), stop ≤ 0
    intro stop hstop
    split at hstop
    · exact Nat.le_of_eq (Option.some.inj hstop).symm
    · exact absurd hstop (Option.not_mem_none _)
  | succ pos ih =>
    refine (isEnd_safe h).bind fun found _ => ?_
    split
    · show ∀ stop ∈ some (pos + 1), stop ≤ pos + 1
      intro stop hstop
      exact Nat.le_of_eq (Option.some.inj hstop).symm
    · exact (ih (by omega)).mono fun found hfound stop hstop => Nat.le_succ_of_le (hfound stop hstop)

theorem locatorBefore_safe {tail : List UInt8} {stop : Nat} (h : stop ≤ tail.length) :
    Meets Own (fun _ => True) (locatorBefore tail stop) := by
  rw [locatorBefore]
  split
  · exact (getUint32_safe (by omega)).mono fun _ _ => trivial
  · trivial

/-- The directory ends where the record begins. -/
theorem endRecord_safe {tail : List UInt8} (tailStart : Nat) {stop : Nat} (h : stop + EOCD_BYTES ≤ tail.length) :
    Meets Own (fun found => found.directoryOffset + found.directorySize = tailStart + stop ∧
      found.directorySize ≤ ZIP_LIMITS.directoryBytes) (endRecord tail tailStart stop) := by
  have hsize : EOCD_BYTES = 22 := rfl
  refine (getUint16_safe (by omega)).bind fun disk _ => (getUint16_safe (by omega)).bind fun directoryDisk _ => ?_
  refine (getUint16_safe (by omega)).bind fun diskEntries _ => (getUint16_safe (by omega)).bind fun entries _ => ?_
  refine (getUint32_safe (by omega)).bind fun directorySize _ => (getUint32_safe (by omega)).bind fun directoryOffset _ => ?_
  refine (deny_safe _).bind fun _ _ => (locatorBefore_safe (by omega)).bind fun locator _ => (deny_safe _).bind fun _
    _ => (deny_safe _).bind fun _ _ => ?_
  refine (deny_safe _).bind fun _ _ => (deny_safe _).bind fun _ hlimit => (deny_safe _).bind fun _ hbounds => ?_
  refine (deny_safe _).bind fun _ _ => ?_
  show directoryOffset + directorySize = tailStart + stop ∧ directorySize ≤ ZIP_LIMITS.directoryBytes
  omega

theorem sizeCheck_safe (size : Nat) : Meets Own
    (fun _ => size ≤ ZIP_LIMITS.archiveBytes ∧ EOCD_BYTES ≤ size) (sizeCheck size) := by
  refine (deny_safe _).bind fun _ _ => (deny_safe _).bind fun _ hlimit => (deny_safe _).mono fun _ hsize => ?_
  omega

theorem headCheck_safe {head : List UInt8} (h : head.length = 4) : Meets Own (fun _ => True) (headCheck head) :=
  (getUint32_safe (by omega)).bind fun _ _ => (deny_safe _).mono fun _ _ => trivial

theorem locateIn_safe {tail : List UInt8} (tailStart : Nat) (h : EOCD_BYTES ≤ tail.length) :
    Meets Own (fun found => found.directoryOffset + found.directorySize ≤ tailStart + tail.length ∧
      found.directorySize ≤ ZIP_LIMITS.directoryBytes) (locateIn tail tailStart) := by
  refine (findEnd_safe (by omega)).bind fun found hfound => ?_
  cases found with
  | none => trivial
  | some stop =>
    have hstop := hfound stop rfl
    exact (endRecord_safe tailStart (by omega)).mono fun found hfound => by omega

theorem tailStart_le (size : Nat) : tailStart size ≤ size ∧ size ≤ tailStart size + 65557 := by
  unfold tailStart EOCD_BYTES MAX_COMMENT_BYTES
  omega

/-- What is read from there can hold a record. -/
theorem le_sub_tailStart {size : Nat} (h : EOCD_BYTES ≤ size) : EOCD_BYTES ≤ size - tailStart size := by
  unfold tailStart EOCD_BYTES MAX_COMMENT_BYTES
  unfold EOCD_BYTES at h
  omega

theorem locate_safe (file : List UInt8) : Meets Own (fun found => found.directoryOffset + found.directorySize ≤ file.length ∧
    found.directorySize ≤ ZIP_LIMITS.directoryBytes) (locate file).result := by
  have hstart := (tailStart_le file.length).1
  rw [locate, Traced.result_bind]
  refine (sizeCheck_safe file.length).bind fun _ ⟨_, hsize⟩ => ?_
  have hrecord : EOCD_BYTES = 22 := rfl
  rw [Traced.result_bind]
  refine (readRange_safe (by omega)).bind fun head hhead => ?_
  rw [Traced.result_bind]
  refine (headCheck_safe hhead).bind fun _ _ => ?_
  rw [Traced.result_bind]
  refine (readRange_safe (Nat.le_refl _)).bind fun tail htail => ?_
  exact (locateIn_safe (tailStart file.length) (htail ▸ le_sub_tailStart hsize)).mono fun found hfound => by omega

theorem locate_reads (file : List UInt8) : Reads file 2 (4 + 65557) (locate file).trace := by
  have htail := tailStart_le file.length
  have hrecord : EOCD_BYTES = 22 := rfl
  refine (reads_bind (sizeCheck_safe file.length) .none fun _ ⟨_, hsize⟩ => ?_).mono (m :=
    0 + 2) (Nat.le_refl _) (Nat.le_of_eq (Nat.zero_add _))
  refine (reads_bind (readRange_safe (by omega)) (.one (Nat.zero_le 4) (by omega)) fun head hhead => ?_).mono
    (m := 1 + 1) (Nat.le_refl _)
    (Nat.le_refl _)
  refine (reads_bind (headCheck_safe hhead) .none fun _ _ => ?_).mono (m :=
    0 + 1) (Nat.le_refl _) (Nat.le_of_eq (Nat.zero_add _))
  refine (reads_bind (readRange_safe (Nat.le_refl _)) (.one htail.1 (Nat.le_refl _)) fun _ _ => .none).mono (m :=
    1 + 0) (Nat.le_refl _) ?_
  omega

/-! ## The directory -/

/-- An entry leads to a position inside the directory. -/
theorem entry_safe (directory : List UInt8) (directoryOffset index pos : Nat) :
    Meets Own (fun e => e.2 ≤ directory.length) (entry directory directoryOffset index pos) := by
  have hcentral : CENTRAL_BYTES = 46 := rfl
  refine (deny_safe _).bind fun _ hinside => (getUint32_safe (by omega)).bind fun signature
    _ => (deny_safe _).bind fun _ _ => ?_
  refine (getUint16_safe (by omega)).bind fun flags _ => (getUint16_safe (by omega)).bind fun method _ => ?_
  refine (getUint32_safe (by omega)).bind fun compressed _ => (getUint32_safe (by omega)).bind fun uncompressed _ => ?_
  refine (getUint16_safe (by omega)).bind fun nameSize _ => (getUint16_safe (by omega)).bind fun extraSize _ => ?_
  refine (getUint16_safe (by omega)).bind fun commentSize _ => (getUint16_safe (by omega)).bind fun startDisk _ => ?_
  refine (getUint32_safe (by omega)).bind fun localOffset _ => (deny_safe _).bind fun _ _ => (deny_safe _).bind fun _ _ => ?_
  refine (deny_safe _).bind fun _ _ => (deny_safe _).bind fun _ _ => (deny_safe _).bind fun _
    hnext => (deny_safe _).bind fun _ _ => ?_
  refine (subarray_safe (by omega) (by omega)).bind fun nameBytes
    _ => (subarray_safe (by omega) (by omega)).bind fun extraBytes _ => ?_
  refine (filename_safe nameBytes flags extraBytes).bind fun name _ => (getUint32_safe (by omega)).bind fun attributes _ => ?_
  refine (byteAt_safe (by omega)).bind fun system _ => (getUint32_safe (by omega)).bind fun checksum _ => ?_
  show pos + CENTRAL_BYTES + nameSize + extraSize + commentSize ≤ directory.length
  omega

theorem encodedLength_append (a b : List Char) : encodedLength (a ++ b) = encodedLength a + encodedLength b := by
  have hlength : ∀ text : List Char, encodedLength text = (text.flatMap String.utf8EncodeChar).length := by
    intro text
    have hbytes := congrArg List.length (utf8_toList (ofChars text))
    rw [scalars_ofChars, Array.length_toList] at hbytes
    rw [encodedLength]
    exact hbytes
  rw [hlength, hlength, hlength, List.flatMap_append, List.length_append]

theorem encodedLength_heading (entries : Nat) :
    encodedLength (joinLines (heading entries)) = 186 + encodedLength (decimal entries) := by
  have htitle : encodedLength
      "ZIP central-directory listing (metadata only; payloads, local headers and CRC32 are not verified).".toList = 98 := by
    decide +kernel
  have hentries : encodedLength "Entries: ".toList = 9 := by decide +kernel
  have hcolumns : encodedLength
      "kind\tcompressed-bytes\tuncompressed-bytes\tmethod-id\tclaimed-crc32\tquoted-name".toList = 76 := by decide +kernel
  have hline : encodedLength ['\n'] = 1 := by decide +kernel
  rw [heading, joinLines_eq (List.cons_ne_nil _ _), List.flatMap_cons, List.flatMap_cons, List.flatMap_singleton]
  simp only [encodedLength_append, htitle, hentries, hcolumns, hline]
  omega

/-- The bytes are counted as the lines are collected. -/
def Counted (s : Progress) : Prop := s.lines ≠ [] ∧ s.outputBytes = encodedLength (joinLines s.lines)

theorem turn_safe (directory : List UInt8) (directoryOffset index : Nat) {s : Progress} (h : Counted s) :
    Meets Own (fun s' => Counted s' ∧ s'.outputBytes ≤ ZIP_LIMITS.outputBytes) (turn directory directoryOffset index s) := by
  refine (entry_safe directory directoryOffset index s.pos).bind fun e _ => (deny_safe _).bind fun _ hlimit => ?_
  refine ⟨⟨List.append_ne_nil_of_right_ne_nil _ (List.cons_ne_nil _ _), ?_⟩, Nat.le_of_not_lt hlimit⟩
  show s.outputBytes + encodedLength (e.1.line ++ ['\n']) = encodedLength (joinLines (s.lines ++ [e.1.line]))
  rw [joinLines_append h.1, List.flatMap_singleton, encodedLength_append (joinLines s.lines), h.2]

theorem walk_safe (directory : List UInt8) (directoryOffset left index : Nat) {s : Progress} (h : Counted s) :
    Meets Own (fun s' => Counted s' ∧ (s'.outputBytes ≤ ZIP_LIMITS.outputBytes ∨ left = 0 ∧ s' = s))
      (walk directory directoryOffset left index s) := by
  induction left generalizing index s with
  | zero => exact ⟨h, .inr ⟨rfl, rfl⟩⟩
  | succ left ih =>
    refine (turn_safe directory directoryOffset index h).bind fun s' ⟨hcounted, hlimit⟩ => ?_
    refine (ih (index + 1) hcounted).mono fun s'' ⟨hcounted', hend⟩ => ⟨hcounted', .inl ?_⟩
    rcases hend with hend | ⟨-, rfl⟩
    · exact hend
    · exact hlimit

theorem list_safe (directory : List UInt8) (found : Located) :
    Meets Own (fun text => encodedLength text ≤ ZIP_LIMITS.outputBytes) (list directory found) := by
  have hcounted : Counted ⟨0, heading found.entries, encodedLength (joinLines (heading found.entries))⟩ :=
    ⟨List.cons_ne_nil _ _, rfl⟩
  refine (walk_safe directory found.directoryOffset found.entries 0 hcounted).bind fun s ⟨⟨_, hbytes⟩, hend⟩ => ?_
  refine (deny_safe _).bind fun _ _ => ?_
  show encodedLength (joinLines s.lines) ≤ ZIP_LIMITS.outputBytes
  rw [← hbytes]
  rcases hend with hend | ⟨hnone, rfl⟩
  · exact hend
  · -- without entries there is only the heading
    show encodedLength (joinLines (heading found.entries)) ≤ ZIP_LIMITS.outputBytes
    rw [hnone, encodedLength_heading]
    decide +kernel

theorem zipListing_result (file : List UInt8) :
    Meets Own (fun text => encodedLength text ≤ ZIP_LIMITS.outputBytes) (zipListing file).result := by
  rw [zipListing, Traced.result_bind]
  refine (locate_safe file).bind fun found ⟨hinside, _⟩ => ?_
  rw [Traced.result_bind]
  exact (readRange_safe hinside).bind fun directory _ => list_safe directory found

theorem zipListing_reads (file : List UInt8) : Reads file 3 (4 + 65557 + ZIP_LIMITS.directoryBytes)
    (zipListing file).trace := by
  refine reads_bind (m := 2) (n := 1) (locate_safe file) (locate_reads file) fun found ⟨hinside, hlimit⟩ => ?_
  refine (reads_bind (readRange_safe hinside) (.one (Nat.le_add_right _ _) hinside) fun _ _ => .none).mono (m :=
    1 + 0) (Nat.le_refl _) ?_
  omega

/-- **Whatever the file is**: a listing within its limit or an error of the code's own, after at most three reads inside the file. -/
theorem zipListing_safe (file : List UInt8) :
    (∀ e, (zipListing file).result = .error e → ∃ reason, e = .invalid reason) ∧
      (zipListing file).trace.length ≤ 3 ∧ (∀ range ∈ (zipListing file).trace, range.1 ≤ range.2 ∧ range.2 ≤ file.length) ∧
      ((zipListing file).trace.map fun range => range.2 - range.1).sum ≤ 4 + 65557 + ZIP_LIMITS.directoryBytes ∧
      ∀ text, (zipListing file).result = .ok text → encodedLength text ≤ ZIP_LIMITS.outputBytes := by
  have hresult := zipListing_result file
  have hreads := zipListing_reads file
  refine ⟨fun e he => ?_, hreads.count, hreads.inside, hreads.bytes, fun text htext => hresult.of_ok htext⟩
  rw [he] at hresult
  cases e with
  | invalid reason => exact ⟨reason, rfl⟩
  | outside => exact hresult.elim

end Zip
end MaterialOpenWebui
