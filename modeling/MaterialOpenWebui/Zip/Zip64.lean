import MaterialOpenWebui.Zip.Archive

/-!
# `Zip.Zip64` — larger archives, and that they are refused

A file of the larger format has one of its marks: a value in the record at the end or in that of a member that stands for one
elsewhere, a field for such values, or a locator of another end record just before the end record. The reader looks for each of
them. It has read no more of the end than an end record can need, though, so a longer comment takes the locator out of sight.
-/

namespace MaterialOpenWebui
namespace Zip
open Js Guarded LittleEndian

/-! ## Marks -/

/-- The end record of a file: no later one ends with it too. -/
structure LastEnd (file : List UInt8) (pos comment : Nat) : Prop where
  signature : read 4 file pos = some 0x06054b50
  length : read 2 file (pos + 20) = some comment
  ends : pos + EOCD_BYTES + comment = file.length
  last : ∀ p, pos < p → ¬ EndsAt file p

/-- A value in the end record that stands for one elsewhere. -/
def EndSentinel (file : List UInt8) (pos : Nat) : Prop :=
  read 2 file (pos + 4) = some 0xffff ∨ read 2 file (pos + 6) = some 0xffff ∨ read 2 file (pos + 8) = some 0xffff ∨
    read 2 file (pos + 10) = some 0xffff ∨ read 4 file (pos + 12) = some 0xffffffff ∨ read 4 file (pos + 16) = some 0xffffffff

def HasLocator (file : List UInt8) (pos : Nat) : Prop := ∃ p, p + 20 = pos ∧ read 4 file p = some 0x07064b50

/-- Counted from the record at a position, the record with an index. -/
inductive EntryAt (file : List UInt8) : Nat → Nat → Nat → Prop
  | here (pos : Nat) : EntryAt file pos 0 pos
  | next {pos index p nameSize extraSize commentSize : Nat} (hname : read 2 file (pos + 28) = some nameSize)
      (hextra : read 2 file (pos + 30) = some extraSize) (hcomment : read 2 file (pos + 32) = some commentSize)
      (rest : EntryAt file (pos + CENTRAL_BYTES + nameSize + extraSize + commentSize) index p) :
        EntryAt file pos (index + 1) p

/-- A value in the record of a member that stands for one elsewhere. -/
def EntrySentinel (file : List UInt8) (pos : Nat) : Prop :=
  read 4 file (pos + 20) = some 0xffffffff ∨ read 4 file (pos + 24) = some 0xffffffff ∨
    read 4 file (pos + 42) = some 0xffffffff ∨
    read 2 file (pos + 34) = some 0xffff

/-- From the field at a position, the position of a field. -/
inductive FieldAt (bytes : List UInt8) : Nat → Nat → Prop
  | here (pos : Nat) : FieldAt bytes pos pos
  | next {pos p size : Nat} (hsize : read 2 bytes (pos + 2) = some size)
    (rest : FieldAt bytes (pos + 4 + size) p) : FieldAt bytes pos p

/-- A field for larger values in the extra area of a record. -/
def HasField (file : List UInt8) (pos : Nat) : Prop :=
  ∃ nameSize extraSize, read 2 file (pos + 28) = some nameSize ∧ read 2 file (pos + 30) = some extraSize ∧
    ∃ p, FieldAt file (pos + CENTRAL_BYTES + nameSize) p ∧ p + 4 ≤ pos + CENTRAL_BYTES + nameSize + extraSize ∧
      read 2 file p = some 0x0001

/-- A record of the directory that has a mark. -/
def EntryMarked (file : List UInt8) (pos : Nat) : Prop :=
  ∃ entries offset index p, read 2 file (pos + 10) = some entries ∧ read 4 file (pos + 16) = some offset ∧ index < entries ∧
    EntryAt file offset index p ∧ (EntrySentinel file p ∨ HasField file p)

/-- The file whose end record is there has a mark. -/
def Marked (file : List UInt8) (pos : Nat) : Prop := EndSentinel file pos ∨ HasLocator file pos ∨ EntryMarked file pos

/-! ## Accesses -/

theorem getUint16_eq_ok {bytes : List UInt8} {pos n : Nat} : getUint16 bytes pos = .ok n ↔ read 2 bytes pos = some n := by
  unfold getUint16
  cases read 2 bytes pos <;> simp [orOutside]

theorem getUint32_eq_ok {bytes : List UInt8} {pos n : Nat} : getUint32 bytes pos = .ok n ↔ read 4 bytes pos = some n := by
  unfold getUint32
  cases read 4 bytes pos <;> simp [orOutside]

theorem deny_eq_ok {cond : Prop} [Decidable cond] {reason : String} {u : Unit} :
    deny cond reason = .ok u ↔ ¬ cond := refuse_eq_ok

/-- What is read of a part is read of the whole. -/
theorem read_part {k start size pos n : Nat} (hk : 0 < k) {bytes : List UInt8}
    (h : read k ((bytes.drop start).take size) pos = some n) :
    read k bytes (start + pos) = some n := by
  rw [LittleEndian.read] at h
  split at h
  · rename_i hle
    rw [List.length_take, List.length_drop] at hle
    have hpart : (((bytes.drop start).take size).drop pos).take k = (bytes.drop (start + pos)).take k := by
      rw [List.drop_take, List.drop_drop, List.take_take, Nat.min_eq_left (by omega)]
    rw [← h, LittleEndian.read, if_pos (by omega), hpart]
  · cases h

/-- Inside a part, both are the same. -/
theorem read_part_eq {k start size pos : Nat} (hk : 0 < k) {bytes : List UInt8} (hinside : pos + k ≤ size)
    (hlength : start + size ≤ bytes.length) : read k ((bytes.drop start).take size) pos = read k bytes (start + pos) := by
  have hlong : pos + k ≤ ((bytes.drop start).take size).length := by
    rw [List.length_take, List.length_drop]
    omega
  obtain ⟨n, -, hn⟩ := exists_read hlong
  rw [hn, read_part hk hn]

/-! ## What was checked -/

theorem endRecord_ok {tail : List UInt8} {tailStart stop : Nat} {found : Located}
    (h : endRecord tail tailStart stop = .ok found) :
    ¬ EndSentinel tail stop ∧ read 2 tail (stop + 10) = some found.entries ∧ read 4 tail (stop + 16) =
      some found.directoryOffset ∧
      ∃ locator, locatorBefore tail stop = .ok locator ∧ locator ≠ 0x07064b50 := by
  obtain ⟨disk, hdisk, h⟩ := bind_eq_ok.mp h
  obtain ⟨directoryDisk, hdirectoryDisk, h⟩ := bind_eq_ok.mp h
  obtain ⟨diskEntries, hdiskEntries, h⟩ := bind_eq_ok.mp h
  obtain ⟨entries, hentries, h⟩ := bind_eq_ok.mp h
  obtain ⟨size, hsize, h⟩ := bind_eq_ok.mp h
  obtain ⟨offset, hoffset, h⟩ := bind_eq_ok.mp h
  obtain ⟨_, hsentinel, h⟩ := bind_eq_ok.mp h
  obtain ⟨locator, hlocator, h⟩ := bind_eq_ok.mp h
  obtain ⟨_, hno, h⟩ := bind_eq_ok.mp h
  obtain ⟨_, -, h⟩ := bind_eq_ok.mp h
  obtain ⟨_, -, h⟩ := bind_eq_ok.mp h
  obtain ⟨_, -, h⟩ := bind_eq_ok.mp h
  obtain ⟨_, -, h⟩ := bind_eq_ok.mp h
  obtain ⟨_, -, h⟩ := bind_eq_ok.mp h
  cases h
  rw [deny_eq_ok] at hsentinel hno
  rw [getUint16_eq_ok] at hdisk hdirectoryDisk hdiskEntries hentries
  rw [getUint32_eq_ok] at hsize hoffset
  refine ⟨?_, hentries, hoffset, locator, hlocator, hno⟩
  rw [EndSentinel, hdisk, hdirectoryDisk, hdiskEntries, hentries, hsize, hoffset]
  simpa only [Option.some.injEq] using hsentinel

theorem le_of_fieldAt {bytes : List UInt8} {pos p : Nat} (h : FieldAt bytes pos p) : pos ≤ p := by
  induction h with
  | here => exact Nat.le_refl _
  | next _ _ ih => omega

/-- An area of fields that is accepted has none for larger values. -/
theorem extraFields_ok {bytes extra : List UInt8} {turns pos : Nat} {unicodeName result : Option JsString}
    (h : extraFields bytes extra turns pos unicodeName = .ok result) {p : Nat} (hp : FieldAt extra pos p)
      (hinside : p + 4 ≤ extra.length) :
    read 2 extra p ≠ some 0x0001 := by
  induction turns generalizing pos unicodeName with
  | zero =>
    have hle := le_of_fieldAt hp
    rw [extraFields, if_pos (by omega)] at h
    cases h
  | succ turns ih =>
    have hle := le_of_fieldAt hp
    rw [extraFields, if_pos (by omega)] at h
    obtain ⟨next, hnext, h⟩ := bind_eq_ok.mp h
    obtain ⟨_, -, hnext⟩ := bind_eq_ok.mp hnext
    obtain ⟨id, hid, hnext⟩ := bind_eq_ok.mp hnext
    obtain ⟨size, hsize, hnext⟩ := bind_eq_ok.mp hnext
    obtain ⟨_, -, hnext⟩ := bind_eq_ok.mp hnext
    obtain ⟨_, hzip64, hnext⟩ := bind_eq_ok.mp hnext
    obtain ⟨_, -, hnext⟩ := bind_eq_ok.mp hnext
    obtain ⟨name, -, hnext⟩ := bind_eq_ok.mp hnext
    cases hnext
    rw [getUint16_eq_ok] at hid hsize
    rw [deny_eq_ok] at hzip64
    cases hp with
    | here =>
      rw [hid]
      exact fun heq => hzip64 (Option.some.inj heq)
    | next hsize' rest =>
      rw [hsize] at hsize'
      cases hsize'
      exact ih h rest

/-- A record of the directory that is accepted has no mark, and the next one is where its sizes say. -/
theorem entry_ok {directory : List UInt8} {directoryOffset index pos next : Nat} {e : Entry}
    (h : entry directory directoryOffset index pos = .ok (e, next)) : ∃ nameSize extraSize commentSize,
      read 2 directory (pos + 28) = some nameSize ∧ read 2 directory (pos + 30) = some extraSize ∧
      read 2 directory (pos + 32) = some commentSize ∧ next = pos + CENTRAL_BYTES + nameSize + extraSize + commentSize ∧
      ¬ EntrySentinel directory pos ∧ next ≤ directory.length ∧
      ∃ name unicodeName extra, subarray directory (pos + CENTRAL_BYTES + nameSize) (pos + CENTRAL_BYTES +
        nameSize + extraSize) = .ok extra ∧
        extraFields name extra extra.length 0 none = .ok unicodeName := by
  obtain ⟨_, -, h⟩ := bind_eq_ok.mp h
  obtain ⟨_, -, h⟩ := bind_eq_ok.mp h
  obtain ⟨_, -, h⟩ := bind_eq_ok.mp h
  obtain ⟨flags, -, h⟩ := bind_eq_ok.mp h
  obtain ⟨method, -, h⟩ := bind_eq_ok.mp h
  obtain ⟨compressed, hcompressed, h⟩ := bind_eq_ok.mp h
  obtain ⟨uncompressed, huncompressed, h⟩ := bind_eq_ok.mp h
  obtain ⟨nameSize, hname, h⟩ := bind_eq_ok.mp h
  obtain ⟨extraSize, hextra, h⟩ := bind_eq_ok.mp h
  obtain ⟨commentSize, hcomment, h⟩ := bind_eq_ok.mp h
  obtain ⟨startDisk, hdisk, h⟩ := bind_eq_ok.mp h
  obtain ⟨localOffset, hlocal, h⟩ := bind_eq_ok.mp h
  obtain ⟨_, hsentinel, h⟩ := bind_eq_ok.mp h
  obtain ⟨_, -, h⟩ := bind_eq_ok.mp h
  obtain ⟨_, -, h⟩ := bind_eq_ok.mp h
  obtain ⟨_, -, h⟩ := bind_eq_ok.mp h
  obtain ⟨_, hinside, h⟩ := bind_eq_ok.mp h
  obtain ⟨_, -, h⟩ := bind_eq_ok.mp h
  obtain ⟨nameBytes, -, h⟩ := bind_eq_ok.mp h
  obtain ⟨extraBytes, hextraBytes, h⟩ := bind_eq_ok.mp h
  obtain ⟨name, hfilename, h⟩ := bind_eq_ok.mp h
  obtain ⟨attributes, -, h⟩ := bind_eq_ok.mp h
  obtain ⟨system, -, h⟩ := bind_eq_ok.mp h
  obtain ⟨checksum, -, h⟩ := bind_eq_ok.mp h
  cases h
  rw [deny_eq_ok] at hsentinel hinside
  rw [getUint16_eq_ok] at hname hextra hcomment hdisk
  rw [getUint32_eq_ok] at hcompressed huncompressed hlocal
  obtain ⟨unicodeName, hfields, -⟩ := bind_eq_ok.mp hfilename
  refine ⟨nameSize, extraSize, commentSize, hname, hextra, hcomment, rfl, ?_, Nat.le_of_not_lt hinside,
    nameBytes, unicodeName, extraBytes,
    hextraBytes, hfields⟩
  rw [EntrySentinel, hcompressed, huncompressed, hlocal, hdisk]
  simpa only [Option.some.injEq] using hsentinel


/-- A part of the fields, as they are in the file. -/
theorem fieldAt_part {bytes : List UInt8} {start size : Nat} {pos p : Nat} (h : FieldAt bytes (start + pos) p)
    (hinside : p + 4 ≤ start + size) (hlength : start + size ≤ bytes.length) :
    ∃ q, p = start + q ∧ FieldAt ((bytes.drop start).take size) pos q := by
  generalize hfrom : start + pos = first at h
  induction h generalizing pos with
  | here => exact ⟨pos, hfrom.symm, .here pos⟩
  | @next first p fieldSize hsize rest ih =>
    have hnext : start + (pos + 4 + fieldSize) = first + 4 + fieldSize := by omega
    obtain ⟨q, hq, hrest⟩ := ih hinside hnext
    have hle := le_of_fieldAt rest
    refine ⟨q, hq, .next ?_ hrest⟩
    rw [read_part_eq (by decide) (by omega) hlength, ← hsize]
    congr 1
    omega

theorem not_hasField_of_entry {directory : List UInt8} {directoryOffset index pos next : Nat} {e : Entry}
    (h : entry directory directoryOffset index pos = .ok (e, next)) : ¬ HasField directory pos := by
  obtain ⟨nameSize, extraSize, commentSize, hname, hextra, -, hnext, -, hlength, name, unicodeName, extra,
    hpart, hfields⟩ := entry_ok h
  rintro ⟨n, m, hn, hm, p, hp, hinside, hid⟩
  rw [hname] at hn
  rw [hextra] at hm
  cases hn
  cases hm
  rw [subarray, if_pos (by omega), Nat.add_sub_cancel_left] at hpart
  have hfirst : FieldAt directory (pos + CENTRAL_BYTES + nameSize + 0) p := hp
  obtain ⟨q, rfl, hq⟩ := fieldAt_part hfirst hinside (by omega)
  cases hpart
  have hlengthExtra : ((directory.drop (pos + CENTRAL_BYTES + nameSize)).take extraSize).length = extraSize := by
    rw [List.length_take, List.length_drop]
    omega
  refine extraFields_ok hfields hq (by omega) ?_
  rw [read_part_eq (by decide) (by omega) (by omega), hid]

/-! ## The directory in the file -/

section
variable {file : List UInt8} {start size : Nat} (hlength : start + size ≤ file.length)
include hlength

theorem entrySentinel_part {pos : Nat} (hinside : pos + CENTRAL_BYTES ≤ size) :
    EntrySentinel ((file.drop start).take size) pos ↔ EntrySentinel file (start + pos) := by
  have hcentral : CENTRAL_BYTES = 46 := rfl
  have hread : ∀ k offset, 0 < k → offset + k ≤ CENTRAL_BYTES →
      read k ((file.drop start).take size) (pos + offset) = read k file (start + pos + offset) := by
    intro k offset hk hle
    rw [read_part_eq hk (by omega) hlength, Nat.add_assoc]
  rw [EntrySentinel, EntrySentinel, hread 4 20 (by decide) (by decide), hread 4 24 (by decide) (by decide),
    hread 4 42 (by decide) (by decide), hread 2 34 (by decide) (by decide)]

theorem hasField_part {pos nameSize extraSize : Nat} (hname : read 2 ((file.drop start).take size) (pos + 28) = some nameSize)
    (hextra : read 2 ((file.drop start).take size) (pos + 30) = some extraSize)
    (hinside : pos + CENTRAL_BYTES + nameSize + extraSize ≤ size) (h : HasField file (start + pos)) :
    HasField ((file.drop start).take size) pos := by
  obtain ⟨n, m, hn, hm, p, hp, hle, hid⟩ := h
  have hname' := read_part (by decide) hname
  have hextra' := read_part (by decide) hextra
  rw [← Nat.add_assoc, hn] at hname'
  rw [← Nat.add_assoc, hm] at hextra'
  cases hname'
  cases hextra'
  have hfirst : FieldAt file (start + (pos + CENTRAL_BYTES + nameSize)) p := by
    rw [show start + (pos + CENTRAL_BYTES + nameSize) = start + pos + CENTRAL_BYTES + nameSize by omega]
    exact hp
  obtain ⟨q, rfl, hq⟩ := fieldAt_part hfirst (by omega) hlength
  refine ⟨nameSize, extraSize, hname, hextra, q, hq, by omega, ?_⟩
  rw [read_part_eq (by decide) (by omega) hlength, hid]

omit hlength in
/-- **The loop.** Every record that the end record counts has been accepted. -/
theorem entry_of_walk {directoryOffset left index : Nat} {s s' : Progress}
    (h : walk ((file.drop start).take size) directoryOffset left index s = .ok s') {first i p : Nat}
      (hfirst : first = start + s.pos)
    (hp : EntryAt file first i p) (hi : i < left) :
    ∃ pos index e next, p = start + pos ∧ entry ((file.drop start).take size) directoryOffset index pos = .ok (e, next) := by
  induction left generalizing index s first i with
  | zero => omega
  | succ left ih =>
    obtain ⟨t, ht, h⟩ := bind_eq_ok.mp h
    obtain ⟨⟨e, next⟩, he, ht⟩ := bind_eq_ok.mp ht
    obtain ⟨_, -, ht⟩ := bind_eq_ok.mp ht
    cases ht
    cases hp with
    | here => exact ⟨s.pos, index, e, next, hfirst, he⟩
    | next hname hextra hcomment rest =>
      obtain ⟨n, m, k, hn, hm, hk, hnext, -⟩ := entry_ok he
      have hn' := read_part (by decide) hn
      have hm' := read_part (by decide) hm
      have hk' := read_part (by decide) hk
      rw [← Nat.add_assoc, ← hfirst, hname] at hn'
      rw [← Nat.add_assoc, ← hfirst, hextra] at hm'
      rw [← Nat.add_assoc, ← hfirst, hcomment] at hk'
      cases hn'
      cases hm'
      cases hk'
      refine ih h ?_ rest (Nat.lt_of_succ_lt_succ hi)
      show _ = start + next
      omega

/-- No record of a directory that is accepted has a mark. -/
theorem unmarked_of_walk {directoryOffset left index : Nat} {s s' : Progress}
    (h : walk ((file.drop start).take size) directoryOffset left index s = .ok s') {i p : Nat}
    (hp : EntryAt file (start + s.pos) i p) (hi : i < left) : ¬ (EntrySentinel file p ∨ HasField file p) := by
  obtain ⟨pos, index, e, next, rfl, he⟩ := entry_of_walk h rfl hp hi
  obtain ⟨n, m, k, hn, hm, -, hnext, hsentinel, hinside, -⟩ := entry_ok he
  have hsize : next ≤ size := by
    rw [List.length_take, List.length_drop] at hinside
    omega
  rintro (hmark | hmark)
  · exact hsentinel ((entrySentinel_part hlength (by omega)).mpr hmark)
  · exact not_hasField_of_entry he (hasField_part hlength hn hm (by omega) hmark)

end

/-! ## The law -/

/-- **Files with a mark are refused**, but for a locator that is out of sight. -/
theorem refused_of_marked {file : List UInt8} {pos comment : Nat} (hend : LastEnd file pos comment)
    (hmost : comment ≤ MAX_COMMENT_BYTES)
    (hmarked : EndSentinel file pos ∨ HasLocator file pos ∧ comment + 20 ≤ MAX_COMMENT_BYTES ∨
      EntryMarked file pos) (text : List Char) :
    (zipListing file).result ≠ .ok text := by
  intro h
  have hrecord : EOCD_BYTES = 22 := rfl
  have hcomment : MAX_COMMENT_BYTES = 65535 := rfl
  have hlength := hend.ends
  rw [zipListing, Traced.result_bind] at h
  obtain ⟨found, hfound, h⟩ := bind_eq_ok.mp h
  rw [Traced.result_bind] at h
  obtain ⟨directory, hdirectory, h⟩ := bind_eq_ok.mp h
  obtain ⟨s, hwalk, -⟩ := bind_eq_ok.mp h
  obtain ⟨hinside, -⟩ := (locate_safe file).of_ok hfound
  rw [readRange_ok hinside, Nat.add_sub_cancel_left] at hdirectory
  cases hdirectory
  have hlocate := locate_spec hfound
  have hbefore : tailStart file.length ≤ pos ∧ (tailStart file.length = 0 ∨ tailStart file.length + 65557 = file.length) := by
    unfold tailStart
    omega
  generalize tailStart file.length = start at hlocate hbefore
  rw [List.take_of_length_le (Nat.le_of_eq List.length_drop)] at hlocate
  obtain ⟨stop, rfl⟩ : ∃ stop, pos = start + stop := ⟨pos - start, by omega⟩
  -- what is read of the tail is in the file
  have hfront : (file.take start).length = start := List.length_take_of_le (by omega)
  have hread : ∀ k q, read k (file.drop start) q = read k file (start + q) := by
    intro k q
    have hshift := read_append k (file.take start) (file.drop start) q
    rw [List.take_append_drop, hfront] at hshift
    exact hshift.symm
  have hends : ∀ q, EndsAt (file.drop start) q ↔ EndsAt file (start + q) := by
    intro q
    have hshift : EndsAt (file.take start ++ file.drop start) ((file.take start).length + q) ↔ EndsAt (file.drop start) q :=
      endsAt_append (file.take start)
    rw [List.take_append_drop, hfront] at hshift
    exact hshift.symm
  obtain ⟨stop', hstop, hlocate⟩ := bind_eq_ok.mp hlocate
  have hfind : findEnd (file.drop start) ((file.drop start).length - EOCD_BYTES) = .ok (some stop) := by
    refine findEnd_eq ((hends stop).mpr ⟨hend.signature, comment, hend.length, hend.ends⟩) (fun p hp hp' => ?_) ?_ ?_
    · exact hend.last (start + p) (by omega) ((hends p).mp hp')
    · rw [List.length_drop]
      omega
    · rw [List.length_drop]
      omega
  rw [hfind] at hstop
  cases hstop
  obtain ⟨hsentinel, hentries, hoffset, locator, hlocator, hno⟩ := endRecord_ok hlocate
  rcases hmarked with hmark | ⟨⟨p, hp, hmark⟩, hseen⟩ | ⟨entries, offset, index, p, hentries', hoffset', hindex, hp, hmark⟩
  · refine hsentinel ?_
    rw [EndSentinel]
    simp only [hread, ← Nat.add_assoc]
    exact hmark
  · rw [locatorBefore, if_pos (by omega), getUint32_eq_ok, hread, show start + (stop - 20) = p by omega, hmark] at hlocator
    exact hno (Option.some.inj hlocator).symm
  · rw [hread, ← Nat.add_assoc, hentries'] at hentries
    rw [hread, ← Nat.add_assoc, hoffset'] at hoffset
    cases hentries
    cases hoffset
    exact unmarked_of_walk hinside hwalk hp hindex hmark

/-! ## A locator out of sight -/

theorem length_locatorName : ([0x61] : List UInt8).length ≤ ZIP_LIMITS.nameBytes := by decide

theorem length_locatorComment : (write 4 0x07064b50 ++ List.replicate 16 0).length < 2 ^ 16 := by decide

/-- A member whose comment is a locator. -/
def locatorMember : Member :=
  { plainMember [0x61] length_locatorName with
    comment := write 4 0x07064b50 ++ List.replicate 16 0, commentLength := length_locatorComment }

/-- An archive with that member, and a comment of zeros. -/
def hidden (length : Nat) (h : length ≤ MAX_COMMENT_BYTES) : Archive where
  area := write 4 0x04034b50 ++ List.replicate 26 0
  members := [locatorMember]
  comment := List.replicate length 0
  begins := fun _ => ⟨_, rfl⟩
  bare := fun h => absurd h (List.cons_ne_nil _ _)
  stored := fun m hm => by
    rw [List.mem_singleton.mp hm]
    decide
  commentLength := by rwa [List.length_replicate]
  count := by decide
  directoryLength := by decide
  length := by
    have hmost : MAX_COMMENT_BYTES = 65535 := rfl
    have hdirectory : (directoryBytes [locatorMember]).length = 67 := rfl
    have hlimit : ZIP_LIMITS.archiveBytes = 268435456 := rfl
    have hrecord : EOCD_BYTES = 22 := rfl
    rw [List.length_append, length_write, List.length_replicate, List.length_replicate, hdirectory]
    omega
  output := by decide +kernel

section
variable {length : Nat} (h : length ≤ MAX_COMMENT_BYTES)

theorem endOffset_hidden : (hidden length h).endOffset = 97 := rfl

theorem bytes_hidden : ∃ front, front.length = 97 ∧
    (hidden length h).bytes = front ++ endBytes 1 67 30 (List.replicate length 0) := by
  refine ⟨(hidden length h).area ++ directoryBytes [locatorMember], rfl, ?_⟩
  rw [List.append_assoc]
  rfl

theorem not_endsAt_hidden (hlong : MAX_COMMENT_BYTES < length + 20) {pos : Nat} (hpos : 97 < pos) :
    ¬ EndsAt (hidden length h).bytes pos := by
  rintro ⟨hread, -⟩
  obtain ⟨b, hget, hb⟩ := getElem?_of_read (k := 3) hread
  obtain ⟨front, hfront, hbytes⟩ := bytes_hidden h
  have hmost : MAX_COMMENT_BYTES = 65535 := rfl
  have hdrop : (endBytes 1 67 30 (List.replicate length 0)).drop 1 =
      [0x4b, 5, 6, 0, 0, 0, 0, 1, 0, 1, 0, 67, 0, 0, 0, 30, 0, 0, 0] ++ (write 2 length ++ List.replicate length 0) := by
    unfold endBytes
    rw [List.length_replicate]
    rfl
  have hmem : b ∈ (endBytes 1 67 30 (List.replicate length 0)).drop 1 := by
    refine List.mem_of_getElem? (i := pos - 98) ?_
    rw [List.getElem?_drop, ← hget, hbytes, List.getElem?_append_right (by omega), hfront]
    congr 1
    omega
  rw [hdrop] at hmem
  -- no byte is the first one of the signature
  have hlow : (UInt8.ofNat length).toNat = length % 256 := UInt8.toNat_ofNat'
  have hhigh : (UInt8.ofNat (length / 256)).toNat = length / 256 % 256 := UInt8.toNat_ofNat'
  simp only [List.mem_append, List.mem_cons, List.not_mem_nil, or_false, List.mem_replicate, write] at hmem
  rcases hmem with hmem | (rfl | rfl) | ⟨-, rfl⟩
  · rcases hmem with rfl | rfl | rfl | rfl | rfl | rfl | rfl | rfl | rfl | rfl | rfl | rfl | rfl | rfl |
      rfl | rfl | rfl | rfl | rfl <;>
      exact absurd hb (by decide)
  · omega
  · omega
  · exact absurd hb (by decide)

theorem lastEnd_hidden (hlong : MAX_COMMENT_BYTES < length + 20) : LastEnd (hidden length h).bytes 97 length := by
  obtain ⟨front, hfront, hbytes⟩ := bytes_hidden h
  have hmost : MAX_COMMENT_BYTES = 65535 := rfl
  have hends : EndsAt (endBytes 1 67 30 (List.replicate length 0)) 0 :=
    endsAt_endBytes 1 67 30 (by rwa [List.length_replicate])
  have hread : ∀ k q, read k (hidden length h).bytes (97 + q) = read k (endBytes 1 67 30 (List.replicate length 0)) q := by
    intro k q
    rw [hbytes, ← hfront, read_append]
  have hlength : read 2 (endBytes 1 67 30 (List.replicate length 0)) 20 = some length := by
    have hfield : read 2 (endBytes 1 67 30 (List.replicate length 0)) 20 = some (List.replicate length (0 : UInt8)).length :=
      read_drop (by decide) (by rw [List.length_replicate]; omega) rfl
    rwa [List.length_replicate] at hfield
  refine ⟨(hread 4 0).trans hends.1, (hread 2 20).trans hlength, ?_, fun p hp => not_endsAt_hidden h hlong hp⟩
  rw [hbytes, List.length_append, hfront, length_endBytes, List.length_replicate]
  omega

theorem hasLocator_hidden : HasLocator (hidden length h).bytes 97 := by
  have hbytes : (hidden length h).bytes.drop 77 =
      write 4 0x07064b50 ++ (List.replicate 16 0 ++ endBytes 1 67 30 (List.replicate length 0)) := rfl
  exact ⟨77, rfl, read_drop (by decide) (by decide) hbytes⟩

/-- What is read of the end begins after the locator. -/
theorem zipListing_hidden (hlong : MAX_COMMENT_BYTES < length + 20) :
    (zipListing (hidden length h).bytes).result = .ok (listingOf [locatorMember]) := by
  have hlast := (lastEnd_hidden h hlong).ends
  have hmost : MAX_COMMENT_BYTES = 65535 := rfl
  have hrecord : EOCD_BYTES = 22 := rfl
  refine zipListing_located (a :=
    hidden length h) (fun pos hpos => not_endsAt_hidden h hlong hpos) (fun pos hstart hpos => ?_) ?_
  · rw [endOffset_hidden] at hpos
    unfold tailStart at hstart
    omega
  · show ∀ m ∈ [locatorMember], m.text ≠ []
    decide

end

/-- **The law.** Files whose comment has a length are refused if they have a mark, exactly if a locator before the longest end
record would be seen. -/
theorem refuses_iff {length : Nat} (h : length ≤ MAX_COMMENT_BYTES) :
    (∀ file pos, LastEnd file pos length → Marked file pos → ∀ text, (zipListing file).result ≠ .ok text) ↔
      length + 20 ≤ MAX_COMMENT_BYTES := by
  constructor
  · intro hrefused
    by_contra hlong
    have hlong := Nat.lt_of_not_le hlong
    exact hrefused _ 97 (lastEnd_hidden h hlong) (.inr (.inl (hasLocator_hidden h))) _ (zipListing_hidden h hlong)
  · intro hseen file pos hend hmarked
    refine refused_of_marked hend h (hmarked.imp_right fun hmarked => hmarked.imp_left fun hlocator => ⟨hlocator, hseen⟩)

theorem refuses_without_comment :
    (∀ file pos, LastEnd file pos 0 → Marked file pos → ∀ text, (zipListing file).result ≠ .ok text) ↔
    0 + 20 ≤ MAX_COMMENT_BYTES := refuses_iff (Nat.zero_le _)

/-- The longest comment: a locator stands before the end record, and the file is listed. -/
theorem listed_with_locator : ∃ file pos, LastEnd file pos MAX_COMMENT_BYTES ∧ HasLocator file pos ∧
    (zipListing file).result = .ok (listingOf [locatorMember]) :=
  ⟨_, 97, lastEnd_hidden (Nat.le_refl _) (by decide), hasLocator_hidden _, zipListing_hidden _ (by decide)⟩

end Zip
end MaterialOpenWebui
