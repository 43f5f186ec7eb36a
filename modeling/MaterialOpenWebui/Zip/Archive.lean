import MaterialOpenWebui.Zip.Safety

/-!
# `Zip.Archive` — archives, and that each is listed as it is

An archive is an area of stored data, a directory with a record for each member, and the record at the end with its comment. What
its fields mean is said here without the reader: the name of a member is the text of its bytes in one of three ways, and its row
in the listing follows from its fields. The reader finds the end record from the back, so it lists the archive unless something
later reads as an end record too.
-/

namespace MaterialOpenWebui
namespace Zip
open Js Guarded LittleEndian

/-! ## Archives -/

/-- A field of the extra area, of no kind that is for larger or for encrypted archives. -/
structure Field where
  id : UInt16
  data : List UInt8
  length : data.length < 2 ^ 16
  supported : id ≠ 0x0001 ∧ id ≠ 0x0017 ∧ id ≠ 0x9901

def Field.bytes (f : Field) : List UInt8 := write 2 f.id.toNat ++ (write 2 f.data.length ++ f.data)

/-- What the fields say of a name: at most one of them has a text, and the checksum of the bytes for which it stands. -/
inductive PathName (name : List UInt8) : List Field → Option JsString → Prop
  | nil : PathName name [] none
  | other {f : Field} {fields : List Field} {path : Option JsString} (h : f.id ≠ 0x7075) (rest : PathName name fields path) :
      PathName name (f :: fields) path
  | path {f : Field} {fields : List Field} {bytes : List UInt8} {text : JsString} (h : f.id = 0x7075)
      (hdata : f.data = 1 :: (write 4 (crc32 name).toNat ++ bytes)) (hbytes : bytes.length ≤ ZIP_LIMITS.nameBytes)
      (htext : decodeFatal bytes = some text) (rest : PathName name fields none) : PathName name (f :: fields) (some text)

/-- The text of a name: UTF-8 where a flag says so, else what a field says, else the old code page. -/
def Named (flags : UInt16) (name : List UInt8) (extra : List Field) (text : JsString) : Prop :=
  ∃ path, PathName name extra path ∧
    if flags.toNat &&& 0x0800 ≠ 0 then decodeFatal name = some text ∧ (path = none ∨ path = some text)
    else text = path.getD (name.map cp437)

/-- What the directory says of a member, and the text of its name. -/
structure Member where
  madeBy : UInt16
  needed : UInt16
  flags : UInt16
  method : UInt16
  time : UInt16
  date : UInt16
  checksum : UInt32
  compressed : UInt32
  uncompressed : UInt32
  internal : UInt16
  attributes : UInt32
  localOffset : UInt32
  name : List UInt8
  extra : List Field
  comment : List UInt8
  text : JsString
  named : Named flags name extra text
  nameLength : name.length ≤ ZIP_LIMITS.nameBytes
  extraLength : (extra.flatMap Field.bytes).length < 2 ^ 16
  commentLength : comment.length < 2 ^ 16
  small : uncompressed ≠ 0xffffffff
  plain : flags.toNat &&& 0x2041 = 0 ∧ method ≠ 99

def Member.header (m : Member) : List UInt8 :=
  write 4 0x02014b50 ++ (write 2 m.madeBy.toNat ++
    (write 2 m.needed.toNat ++ (write 2 m.flags.toNat ++ (write 2 m.method.toNat ++
    (write 2 m.time.toNat ++ (write 2 m.date.toNat ++ (write 4 m.checksum.toNat ++ (write 4 m.compressed.toNat ++
    (write 4 m.uncompressed.toNat ++ (write 2 m.name.length ++ (write 2 (m.extra.flatMap Field.bytes).length ++
    (write 2 m.comment.length ++ (write 2 0 ++ (write 2 m.internal.toNat ++ (write 4 m.attributes.toNat ++
    write 4 m.localOffset.toNat)))))))))))))))

def Member.bytes (m : Member) : List UInt8 := m.header ++ (m.name ++ (m.extra.flatMap Field.bytes ++ m.comment))

/-- The file type of a member that was made on Unix. -/
def Member.unixType (m : Member) : Nat := if m.madeBy.toNat / 256 = 3 then m.attributes.toNat / 2 ^ 28 else 0

/-- What the listing is to say of a member. -/
def Member.entry (m : Member) : Entry where
  kind := kindOf m.unixType m.attributes.toNat m.text
  compressed := m.compressed.toNat
  uncompressed := m.uncompressed.toNat
  method := m.method.toNat
  checksum := m.checksum.toNat
  name := m.text

def directoryBytes (members : List Member) : List UInt8 := members.flatMap Member.bytes

def endBytes (count size offset : Nat) (comment : List UInt8) : List UInt8 :=
  write 4 0x06054b50 ++ (write 2 0 ++ (write 2 0 ++ (write 2 count ++ (write 2 count ++ (write 4 size ++ (write 4 offset ++
    (write 2 comment.length ++ comment)))))))

def listingOf (members : List Member) : List Char := joinLines (heading members.length ++ members.map fun m => m.entry.line)

/-- An archive on one disk, within the limits. -/
structure Archive where
  area : List UInt8
  members : List Member
  comment : List UInt8
  begins : members ≠ [] → ∃ rest, area = write 4 0x04034b50 ++ rest
  bare : members = [] → area = []
  stored : ∀ m ∈ members, m.localOffset.toNat + 30 + m.compressed.toNat ≤ area.length
  commentLength : comment.length ≤ MAX_COMMENT_BYTES
  count : members.length ≤ ZIP_LIMITS.entries
  directoryLength : (directoryBytes members).length ≤ ZIP_LIMITS.directoryBytes
  length : area.length + (directoryBytes members).length + EOCD_BYTES + comment.length ≤ ZIP_LIMITS.archiveBytes
  output : encodedLength (listingOf members) ≤ ZIP_LIMITS.outputBytes

def Archive.endOffset (a : Archive) : Nat := a.area.length + (directoryBytes a.members).length

def Archive.bytes (a : Archive) : List UInt8 :=
  a.area ++ (directoryBytes a.members ++ endBytes a.members.length (directoryBytes a.members).length a.area.length a.comment)

/-! ## Fields of a buffer -/

section
variable {front bytes rest : List UInt8} {n : Nat} (offset : Nat)

theorem getUint16_field (h : bytes.drop offset = write 2 n ++ rest) (hn : n < 2 ^ 16) :
    getUint16 (front ++ bytes) (front.length + offset) = .ok n := by
  rw [getUint16, read_append, read_drop (by decide) hn h]
  rfl

theorem getUint32_field (h : bytes.drop offset = write 4 n ++ rest) (hn : n < 2 ^ 32) :
    getUint32 (front ++ bytes) (front.length + offset) = .ok n := by
  rw [getUint32, read_append, read_drop (by decide) hn h]
  rfl

theorem byteAt_field {b : UInt8} (h : bytes.drop offset = b :: rest) :
    byteAt (front ++ bytes) (front.length + offset) = .ok b := by
  have hget := congrArg (fun l : List UInt8 => l[0]?) h
  rw [List.getElem?_drop] at hget
  have hb : bytes[offset]? = some b := hget
  rw [byteAt, List.getElem?_append_right (Nat.le_add_right _ _), Nat.add_sub_cancel_left, hb]
  rfl

end

theorem subarray_part (front part back : List UInt8) :
    subarray (front ++ (part ++ back)) front.length (front.length + part.length) = .ok part := by
  rw [subarray, if_pos ⟨Nat.le_add_right _ _, by rw [List.length_append, List.length_append]; omega⟩, List.drop_left,
    Nat.add_sub_cancel_left, List.take_left]

theorem deny_of_not {cond : Prop} [Decidable cond] (h : ¬ cond) (reason : String) :
    deny cond reason = .ok () := refuse_of_not h _

theorem lt_uint16 (n : UInt16) : n.toNat < 2 ^ 16 := n.toNat_lt

theorem lt_uint32 (n : UInt32) : n.toNat < 2 ^ 32 := n.toNat_lt

/-! ## Members -/

theorem length_fieldBytes (f : Field) : f.bytes.length = 4 + f.data.length := by
  rw [Field.bytes, List.length_append, List.length_append, length_write, length_write]
  omega

/-- A field with a text of the name. -/
theorem unicodePath_field (name front back : List UInt8) {path : List UInt8} {text : JsString}
    (hpath : path.length ≤ ZIP_LIMITS.nameBytes)
    (htext : decodeFatal path = some text) :
    unicodePath name (front ++ ((1 :: (write 4 (crc32 name).toNat ++ path)) ++ back)) front.length (path.length + 5) none =
      .ok (some text) := by
  have hcrc : getUint32 (front ++ ((1 :: (write 4 (crc32 name).toNat ++ path)) ++ back)) (front.length + 1) =
      .ok (crc32 name).toNat :=
    getUint32_field 1 (List.append_assoc _ _ _) (lt_uint32 _)
  have hpart : subarray (front ++ ((1 :: (write 4 (crc32 name).toNat ++ path)) ++ back))
      (front.length + 5) (front.length + (path.length + 5)) = .ok path := by
    have hsub := subarray_part (front ++ (1 :: write 4 (crc32 name).toNat)) path back
    rw [List.length_append, List.length_cons, length_write] at hsub
    have hend : front.length + (path.length + 5) = front.length + 5 + path.length := by omega
    rw [hend, ← hsub]
    simp only [List.append_assoc, List.cons_append]
  refine bind_ok (deny_of_not (fun h => h rfl) _) (bind_ok (deny_of_not (by omega) _) ?_)
  refine bind_ok (byteAt_field 0 rfl) (bind_ok (deny_of_not (fun h => h rfl) _) ?_)
  refine bind_ok (deny_of_not (by omega) _) (bind_ok hcrc (bind_ok (deny_of_not (fun h => h rfl) _) ?_))
  refine bind_ok hpart ?_
  rw [decodeUtf8, htext]
  rfl

theorem toNat_ne_uint16 {n k : UInt16} (h : n ≠ k) : n.toNat ≠ k.toNat := fun heq => h (UInt16.toNat_inj.mp heq)

/-- A field is passed over as a whole, whatever it says. -/
theorem extraField_field {name front back : List UInt8} {f : Field} {u u' : Option JsString}
    (hname : fieldName name (front ++ (f.bytes ++ back)) f.id.toNat (front.length + 4) f.data.length u = .ok u') :
    extraField name (front ++ (f.bytes ++ back)) front.length u = .ok (front.length + f.bytes.length, u') := by
  have hlength := length_fieldBytes f
  have hinside : (front ++ (f.bytes ++ back)).length = front.length + (4 + f.data.length + back.length) := by
    rw [List.length_append, List.length_append, hlength]
  obtain ⟨hzip64, hstrong, haes⟩ := f.supported
  refine bind_ok (deny_of_not (by omega) _) (bind_ok (getUint16_field 0 rfl (lt_uint16 f.id)) ?_)
  refine bind_ok (getUint16_field 2 rfl f.length) (bind_ok (deny_of_not (by omega) _) ?_)
  refine bind_ok (deny_of_not (toNat_ne_uint16 hzip64) _) ?_
  refine bind_ok (deny_of_not (not_or.mpr ⟨toNat_ne_uint16 hstrong, toNat_ne_uint16 haes⟩) _) (bind_ok hname ?_)
  rw [hlength, ← Nat.add_assoc]
  rfl

theorem fieldName_path {name front back path : List UInt8} {f : Field} {text : JsString} (hid : f.id = 0x7075)
    (hdata : f.data = 1 :: (write 4 (crc32 name).toNat ++ path)) (hpath : path.length ≤ ZIP_LIMITS.nameBytes)
    (htext : decodeFatal path = some text) :
    fieldName name (front ++ (f.bytes ++ back)) f.id.toNat (front.length + 4) f.data.length none = .ok (some text) := by
  have hlength : f.data.length = path.length + 5 := by
    rw [hdata, List.length_cons, List.length_append, length_write]
    omega
  have hfield := unicodePath_field name (front ++ (write 2 f.id.toNat ++ write 2 f.data.length)) back hpath htext
  rw [List.length_append, List.length_append, length_write, length_write, ← hdata, ← hlength] at hfield
  have hassoc : front ++ (write 2 f.id.toNat ++ write 2 f.data.length) ++ (f.data ++ back) = front ++ (f.bytes ++ back) := by
    rw [Field.bytes]
    simp only [List.append_assoc]
  rw [hassoc] at hfield
  have hkind : f.id.toNat = 0x7075 := congrArg UInt16.toNat hid
  rw [fieldName, if_pos hkind]
  exact hfield

/-- **The extra area** is read field by field. -/
theorem extraFields_fields {name : List UInt8} {fields : List Field} {path : Option JsString} (h : PathName name fields path)
    (front : List UInt8) {turns : Nat} (u : Option JsString) (hturns : fields.length ≤ turns) (hu : u = none ∨ path = none) :
    extraFields name (front ++ fields.flatMap Field.bytes) turns front.length u = .ok (u.or path) := by
  induction h generalizing front turns u with
  | nil =>
    have hend : ¬ front.length < (front ++ List.flatMap Field.bytes []).length := by simp
    rw [Option.or_none]
    cases turns with
    | zero => exact if_neg hend
    | succ turns => exact if_neg hend
  | @other f fields path hid rest ih =>
    obtain ⟨turns, rfl⟩ : ∃ n, turns = n + 1 := ⟨turns - 1, by rw [List.length_cons] at hturns; omega⟩
    have hlength := length_fieldBytes f
    have hnone : ∀ extra pos, fieldName name extra f.id.toNat pos f.data.length u = .ok u :=
      fun _ _ => if_neg (toNat_ne_uint16 hid)
    have hnext := ih (front ++ f.bytes) u (Nat.le_of_succ_le_succ hturns) hu
    rw [List.length_append, List.append_assoc] at hnext
    rw [List.flatMap_cons, extraFields, if_pos (by rw [List.length_append, List.length_append]; omega)]
    exact bind_ok (extraField_field (hnone _ _)) hnext
  | @path f fields bytes text hid hdata hbytes htext rest ih =>
    obtain rfl : u = none := hu.resolve_right (by simp)
    obtain ⟨turns, rfl⟩ : ∃ n, turns = n + 1 := ⟨turns - 1, by rw [List.length_cons] at hturns; omega⟩
    have hlength := length_fieldBytes f
    have hnext := ih (front ++ f.bytes) (some text) (Nat.le_of_succ_le_succ hturns) (.inr rfl)
    rw [List.length_append, List.append_assoc] at hnext
    rw [List.flatMap_cons, extraFields, if_pos (by rw [List.length_append, List.length_append]; omega)]
    exact bind_ok (extraField_field (fieldName_path hid hdata hbytes htext)) hnext

theorem length_le_flatMap_bytes (fields : List Field) : fields.length ≤ (fields.flatMap Field.bytes).length := by
  induction fields with
  | nil => exact Nat.le_refl 0
  | cons f fields ih =>
    rw [List.flatMap_cons, List.length_append, length_fieldBytes, List.length_cons]
    omega

/-- **The name** of a member is its text. -/
theorem filename_member (m : Member) (hname : m.text ≠ []) :
    filename m.name m.flags.toNat (m.extra.flatMap Field.bytes) = .ok m.text := by
  obtain ⟨path, hpath, htext⟩ := m.named
  have hfields := extraFields_fields hpath [] none (length_le_flatMap_bytes m.extra) (.inl rfl)
  refine bind_ok hfields ?_
  split at htext
  · rename_i hflag
    have hdecode : nameText m.name m.flags.toNat path = .ok m.text := by
      rw [nameText, if_pos hflag, decodeUtf8, htext.1]
    refine bind_ok hdecode (bind_ok (deny_of_not hname _) (bind_ok (deny_of_not ?_ _) rfl))
    rintro ⟨-, hsome, hother⟩
    exact htext.2.elim hsome hother
  · rename_i hflag
    have hdecode : nameText m.name m.flags.toNat path = .ok m.text := by
      rw [nameText, if_neg hflag, htext]
    exact bind_ok hdecode (bind_ok (deny_of_not hname _) (bind_ok (deny_of_not (fun h => hflag h.1) _) rfl))

theorem length_header (m : Member) : m.header.length = CENTRAL_BYTES := by
  simp only [Member.header, List.length_append, length_write]
  rfl

theorem length_bytes (m : Member) :
    m.bytes.length = CENTRAL_BYTES + m.name.length + (m.extra.flatMap Field.bytes).length + m.comment.length := by
  rw [Member.bytes, List.length_append, List.length_append, List.length_append, length_header]
  omega

/-- The file type is in the four highest bits. -/
theorem unixType_eq (m : Member) :
    (if UInt8.ofNat (m.madeBy.toNat / 256) = 3 then (m.attributes.toNat >>> 28) &&& 0xf else 0) = m.unixType := by
  have hmade := lt_uint16 m.madeBy
  have hattributes := lt_uint32 m.attributes
  have hsystem : UInt8.ofNat (m.madeBy.toNat / 256) = 3 ↔ m.madeBy.toNat / 256 = 3 := by
    rw [← UInt8.toNat_inj, UInt8.toNat_ofNat', Nat.mod_eq_of_lt (by omega)]
    rfl
  have hbits : (m.attributes.toNat >>> 28) &&& 0xf = m.attributes.toNat / 2 ^ 28 := by
    rw [Nat.shiftRight_eq_div_pow]
    exact (Nat.and_two_pow_sub_one_eq_mod _ 4).trans (Nat.mod_eq_of_lt (by omega))
  rw [Member.unixType, hbits]
  simp only [hsystem]

/-- **The record of a member** is read as what it says. -/
theorem entry_member (m : Member) (front back : List UInt8) {directoryOffset : Nat} (index : Nat) (hname : m.text ≠ [])
    (hstored : m.localOffset.toNat + 30 + m.compressed.toNat ≤ directoryOffset) (hoffset : directoryOffset < 0xffffffff) :
    entry (front ++ (m.bytes ++ back)) directoryOffset index front.length = .ok (m.entry, front.length + m.bytes.length) := by
  have hbytes := length_bytes m
  have hcentral : CENTRAL_BYTES = 46 := rfl
  have hdirectory : (front ++ (m.bytes ++ back)).length = front.length + (m.bytes.length + back.length) := by
    rw [List.length_append, List.length_append]
  have hnameLength := m.nameLength
  have hlimit : ZIP_LIMITS.nameBytes = 4096 := rfl
  have huncompressed : m.uncompressed.toNat ≠ 0xffffffff := fun heq => m.small (UInt32.toNat_inj.mp heq)
  obtain ⟨hflags, hmethod⟩ := m.plain
  have hmethod : m.method.toNat ≠ 99 := toNat_ne_uint16 hmethod
  -- the parts that follow the header, each from where it begins
  have hnamePart : subarray (front ++ (m.bytes ++ back)) (front.length + CENTRAL_BYTES)
      (front.length + CENTRAL_BYTES + m.name.length) = .ok m.name := by
    have hpart := subarray_part (front ++ m.header) m.name (m.extra.flatMap Field.bytes ++ m.comment ++ back)
    rw [List.length_append, length_header] at hpart
    rw [← hpart, Member.bytes]
    simp only [List.append_assoc]
  have hextraPart : subarray (front ++ (m.bytes ++ back)) (front.length + CENTRAL_BYTES + m.name.length)
      (front.length + CENTRAL_BYTES + m.name.length + (m.extra.flatMap Field.bytes).length) =
        .ok (m.extra.flatMap Field.bytes) := by
    have hpart := subarray_part (front ++ m.header ++ m.name) (m.extra.flatMap Field.bytes) (m.comment ++ back)
    rw [List.length_append, List.length_append, length_header] at hpart
    rw [← hpart, Member.bytes]
    simp only [List.append_assoc]
  refine bind_ok (deny_of_not (by omega) _) (bind_ok (getUint32_field 0 rfl (by decide)) ?_)
  refine bind_ok (deny_of_not (fun h => h rfl) _) (bind_ok (getUint16_field 8 rfl (lt_uint16 m.flags)) ?_)
  refine bind_ok (getUint16_field 10 rfl (lt_uint16 m.method)) ?_
  refine bind_ok (getUint32_field 20 rfl (lt_uint32 m.compressed)) ?_
  refine bind_ok (getUint32_field 24 rfl (lt_uint32 m.uncompressed)) ?_
  refine bind_ok (getUint16_field 28 rfl (by omega : m.name.length < 2 ^ 16)) ?_
  refine bind_ok (getUint16_field 30 rfl m.extraLength) (bind_ok (getUint16_field 32 rfl m.commentLength) ?_)
  refine bind_ok (getUint16_field 34 rfl (by decide : 0 < 2 ^ 16)) ?_
  refine bind_ok (getUint32_field 42 rfl (lt_uint32 m.localOffset)) ?_
  refine bind_ok (deny_of_not (by omega) _) (bind_ok (deny_of_not (fun h => h rfl) _) ?_)
  refine bind_ok (deny_of_not (not_or.mpr ⟨fun h => h hflags, hmethod⟩) _) (bind_ok (deny_of_not (by omega) _) ?_)
  refine bind_ok (deny_of_not (by omega) _) (bind_ok (deny_of_not (by omega) _) ?_)
  refine bind_ok hnamePart (bind_ok hextraPart (bind_ok (filename_member m hname) ?_))
  refine bind_ok (getUint32_field 38 rfl (lt_uint32 m.attributes)) (bind_ok (byteAt_field 5 rfl) ?_)
  refine bind_ok (getUint32_field 16 rfl (lt_uint32 m.checksum)) ?_
  rw [unixType_eq]
  have hnext : front.length + CENTRAL_BYTES + m.name.length + (m.extra.flatMap Field.bytes).length + m.comment.length =
      front.length + m.bytes.length := by omega
  exact congrArg (fun next => Except.ok (m.entry, next)) hnext

theorem length_directoryBytes (members : List Member) : members.length * CENTRAL_BYTES ≤ (directoryBytes members).length := by
  induction members with
  | nil => exact Nat.le_of_eq (Nat.zero_mul _)
  | cons m members ih =>
    have hbytes := length_bytes m
    rw [directoryBytes, List.flatMap_cons, List.length_append, List.length_cons, Nat.succ_mul]
    rw [directoryBytes] at ih
    omega

/-- The rows of the members are added, as long as they are within the limit. -/
theorem walk_members {members : List Member} (hname : ∀ m ∈ members, m.text ≠ []) {directoryOffset : Nat}
    (hstored : ∀ m ∈ members, m.localOffset.toNat + 30 + m.compressed.toNat ≤ directoryOffset)
      (hoffset : directoryOffset < 0xffffffff)
    (front : List UInt8) (index : Nat) {s : Progress} (hpos : s.pos = front.length) (hcounted : Counted s)
    (hlimit : encodedLength (joinLines (s.lines ++ members.map fun m => m.entry.line)) ≤ ZIP_LIMITS.outputBytes) :
    ∃ s', walk (front ++ directoryBytes members) directoryOffset members.length index s = .ok s' ∧
      s'.pos = (front ++ directoryBytes members).length ∧ s'.lines = s.lines ++ members.map fun m => m.entry.line := by
  induction members generalizing front index s with
  | nil => exact ⟨s, rfl, by rw [hpos, directoryBytes, List.flatMap_nil, List.append_nil], (List.append_nil _).symm⟩
  | cons m members ih =>
    obtain ⟨hlines, hbytes⟩ := hcounted
    have hentry := entry_member m front (directoryBytes members) index (hname m List.mem_cons_self)
      (hstored m List.mem_cons_self) hoffset
    rw [← hpos] at hentry
    have hnext : Counted ⟨s.pos + m.bytes.length, s.lines ++ [m.entry.line], s.outputBytes +
      encodedLength (m.entry.line ++ ['\n'])⟩ := by
      refine ⟨List.append_ne_nil_of_right_ne_nil _ (List.cons_ne_nil _ _), ?_⟩
      rw [hbytes, joinLines_append hlines, List.flatMap_singleton, encodedLength_append (joinLines s.lines)]
    have hsum : s.lines ++ (m :: members).map (fun m => m.entry.line) =
        s.lines ++ [m.entry.line] ++ members.map fun m => m.entry.line := by
      rw [List.append_assoc]
      rfl
    rw [hsum] at hlimit
    have hfits : s.outputBytes + encodedLength (m.entry.line ++ ['\n']) ≤ ZIP_LIMITS.outputBytes := by
      rw [joinLines_append hnext.1, encodedLength_append, ← hnext.2] at hlimit
      exact Nat.le_trans (Nat.le_add_right _ _) hlimit
    have hturn : turn (front ++ directoryBytes (m :: members)) directoryOffset index s =
        .ok ⟨s.pos + m.bytes.length, s.lines ++ [m.entry.line], s.outputBytes + encodedLength (m.entry.line ++ ['\n'])⟩ :=
      bind_ok hentry (bind_ok (deny_of_not (Nat.not_lt.mpr hfits) _) rfl)
    obtain ⟨s', hwalk, hend, hlines'⟩ := ih (fun m' hm => hname m' (List.mem_cons_of_mem m hm))
      (fun m' hm => hstored m' (List.mem_cons_of_mem m hm)) (front ++ m.bytes) (index + 1)
      (by rw [List.length_append, ← hpos]) hnext hlimit
    rw [List.append_assoc] at hwalk hend
    exact ⟨s', bind_ok hturn hwalk, hend, hlines'.trans hsum.symm⟩

/-! ## The end -/

/-- An end record at a position, whose comment ends with the file. -/
def EndsAt (bytes : List UInt8) (pos : Nat) : Prop :=
  read 4 bytes pos = some 0x06054b50 ∧ ∃ comment, read 2 bytes (pos + 20) = some comment ∧ pos +
    EOCD_BYTES + comment = bytes.length

theorem EndsAt.le {bytes : List UInt8} {pos : Nat} (h : EndsAt bytes pos) : pos + EOCD_BYTES ≤ bytes.length := by
  obtain ⟨-, comment, -, hlength⟩ := h
  omega

theorem isEnd_eq {tail : List UInt8} {pos : Nat} (h : pos + EOCD_BYTES ≤ tail.length) :
    ∃ found, isEnd tail pos = .ok found ∧ (found = true ↔ EndsAt tail pos) := by
  have hsize : EOCD_BYTES = 22 := rfl
  obtain ⟨signature, -, hsignature⟩ := exists_read (k := 4) (show pos + 4 ≤ tail.length by omega)
  obtain ⟨comment, -, hcomment⟩ := exists_read (k := 2) (show pos + 20 + 2 ≤ tail.length by omega)
  have hread : getUint32 tail pos = .ok signature := by
    rw [getUint32, hsignature]
    rfl
  have hread' : getUint16 tail (pos + 20) = .ok comment := by
    rw [getUint16, hcomment]
    rfl
  rw [EndsAt, hsignature, hcomment]
  by_cases heq : signature = 0x06054b50
  · refine ⟨pos + EOCD_BYTES + comment == tail.length, bind_ok hread ?_, ?_⟩
    · rw [if_pos heq]
      exact bind_ok hread' rfl
    · rw [beq_iff_eq]
      constructor
      · exact fun hlength => ⟨congrArg some heq, comment, rfl, hlength⟩
      · rintro ⟨-, c, hc, hlength⟩
        cases hc
        exact hlength
  · refine ⟨false, bind_ok hread (if_neg heq), fun hfalse => (by cases hfalse), fun hends => ?_⟩
    exact absurd (Option.some.inj hends.1) heq

/-- **The last end record** is found. -/
theorem findEnd_eq {tail : List UInt8} {stop pos : Nat} (hstop : EndsAt tail stop) (hlast : ∀ p, stop < p → ¬ EndsAt tail p)
    (hle : stop ≤ pos) (hpos : pos + EOCD_BYTES ≤ tail.length) : findEnd tail pos = .ok (some stop) := by
  induction pos with
  | zero =>
    obtain rfl : stop = 0 := by omega
    obtain ⟨found, hfound, hiff⟩ := isEnd_eq hpos
    obtain rfl := hiff.mpr hstop
    exact bind_ok hfound rfl
  | succ pos ih =>
    obtain ⟨found, hfound, hiff⟩ := isEnd_eq hpos
    refine bind_ok hfound ?_
    rcases Nat.lt_or_ge pos stop with hlt | hge
    · obtain rfl : stop = pos + 1 := by omega
      rw [if_pos (hiff.mpr hstop)]
      rfl
    · have hnot : ¬ found = true := fun h => hlast (pos + 1) (by omega) (hiff.mp h)
      rw [if_neg hnot]
      exact ih hge (by omega)

theorem endsAt_append (front : List UInt8) {tail : List UInt8} {pos : Nat} :
    EndsAt (front ++ tail) (front.length + pos) ↔ EndsAt tail pos := by
  have hshift : front.length + pos + 20 = front.length + (pos + 20) := Nat.add_assoc _ _ _
  rw [EndsAt, EndsAt, read_append, hshift, read_append, List.length_append]
  refine and_congr_right fun _ => exists_congr fun comment => and_congr_right fun _ => ?_
  omega

/-- **An end record** is read as what it says of the directory. -/
theorem endRecord_bytes {count size offset : Nat} {comment : List UInt8} (front : List UInt8) (tailStart : Nat)
    (hcount : count ≤ ZIP_LIMITS.entries) (hsize : size ≤ ZIP_LIMITS.directoryBytes) (hoffset : offset < 0xffffffff)
    (hbounds : offset + size = tailStart + front.length) (hentries : count * CENTRAL_BYTES ≤ size)
    (hnone : count = 0 → size = 0 ∧ offset = 0)
    (hlocator : ∀ pos, pos + 20 = front.length → read 4 (front ++ endBytes count size offset comment) pos ≠ some 0x07064b50) :
    endRecord (front ++ endBytes count size offset comment) tailStart front.length = .ok ⟨count, size, offset⟩ := by
  have hlimit : ZIP_LIMITS.entries = 10000 := rfl
  have hlimit' : ZIP_LIMITS.directoryBytes = 4194304 := rfl
  have hzero : 0 < 2 ^ 16 := by decide
  have hbefore : ∃ locator, locatorBefore (front ++ endBytes count size offset comment) front.length =
    .ok locator ∧ locator ≠ 0x07064b50 := by
    rw [locatorBefore]
    split
    · rename_i hle
      have hinside : front.length - 20 + 4 ≤ (front ++ endBytes count size offset comment).length := by
        rw [List.length_append]
        omega
      obtain ⟨n, -, hn⟩ := exists_read hinside
      refine ⟨n, ?_, fun heq => hlocator (front.length - 20) (by omega) (by rw [hn, heq])⟩
      rw [getUint32, hn]
      rfl
    · exact ⟨0, rfl, by decide⟩
  obtain ⟨locator, hread, hne⟩ := hbefore
  refine bind_ok (getUint16_field 4 rfl hzero) (bind_ok (getUint16_field 6 rfl hzero) ?_)
  refine bind_ok (getUint16_field 8 rfl (by omega : count < 2 ^ 16))
    (bind_ok (getUint16_field 10 rfl (by omega : count < 2 ^ 16)) ?_)
  refine bind_ok (getUint32_field 12 rfl (by omega : size < 2 ^ 32))
    (bind_ok (getUint32_field 16 rfl (by omega : offset < 2 ^ 32)) ?_)
  refine bind_ok (deny_of_not (by omega) _)
    (bind_ok hread (bind_ok (deny_of_not hne _) (bind_ok (deny_of_not (by omega) _) ?_)))
  refine bind_ok (deny_of_not (by omega) _) (bind_ok (deny_of_not (by omega) _) (bind_ok (deny_of_not (by omega) _) ?_))
  exact bind_ok (deny_of_not (by omega) _) rfl

theorem readRange_ok {file : List UInt8} {start stop : Nat} (hstop : stop ≤ file.length) :
    (readRange file start stop).result = .ok ((file.drop start).take (stop - start)) := by
  refine bind_ok (deny_of_not ?_ _) rfl
  rw [List.length_take, List.length_drop]
  omega

theorem endsAt_endBytes (count size offset : Nat) {comment : List UInt8} (h : comment.length ≤ MAX_COMMENT_BYTES) :
    EndsAt (endBytes count size offset comment) 0 := by
  have hmost : MAX_COMMENT_BYTES = 65535 := rfl
  have hcomment : comment.length < 256 ^ 2 := by omega
  refine ⟨read_drop (by decide) (by decide) rfl, comment.length, read_drop (by decide) hcomment rfl, ?_⟩
  simp only [endBytes, List.length_append, length_write]
  have hsize : EOCD_BYTES = 22 := rfl
  omega

section
variable (a : Archive)

theorem length_endBytes (count size offset : Nat) (comment : List UInt8) :
    (endBytes count size offset comment).length = EOCD_BYTES + comment.length := by
  simp only [endBytes, List.length_append, length_write, EOCD_BYTES]
  omega

theorem length_archive : a.bytes.length = a.endOffset + EOCD_BYTES + a.comment.length := by
  rw [Archive.bytes, List.length_append, List.length_append, length_endBytes, Archive.endOffset]
  omega

/-- It begins with the signature of a member, or of the end record if there is none. -/
theorem headCheck_archive : headCheck ((a.bytes.drop 0).take (4 - 0)) = .ok () := by
  have hhead : ∃ signature rest, a.bytes = write 4 signature ++ rest ∧ (signature = 0x04034b50 ∨ signature = 0x06054b50) := by
    by_cases hmembers : a.members = []
    · refine ⟨0x06054b50, (endBytes 0 0 0 a.comment).drop 4, ?_, .inr rfl⟩
      rw [Archive.bytes, a.bare hmembers, hmembers]
      rfl
    · obtain ⟨rest, harea⟩ := a.begins hmembers
      refine ⟨0x04034b50, rest ++ (directoryBytes a.members ++
        endBytes a.members.length (directoryBytes a.members).length a.area.length a.comment), ?_, .inl rfl⟩
      rw [Archive.bytes, harea, List.append_assoc]
  obtain ⟨signature, rest, hbytes, hsignature⟩ := hhead
  have hlt : signature < 2 ^ 32 := by omega
  have hread : getUint32 ((a.bytes.drop 0).take (4 - 0)) 0 = .ok signature := by
    have htake : (a.bytes.drop 0).take (4 - 0) = [] ++ (write 4 signature ++ []) := by
      rw [hbytes]
      exact (List.take_left' (length_write 4 signature)).trans (List.append_nil _).symm
    rw [htake]
    exact getUint32_field 0 rfl hlt
  exact bind_ok hread (deny_of_not (by omega) _)

variable {a} (hlast : ∀ pos, a.endOffset < pos → ¬ EndsAt a.bytes pos)
include hlast

section
variable (hlocator : ∀ pos, tailStart a.bytes.length ≤ pos → pos + 20 = a.endOffset → read 4 a.bytes pos ≠ some 0x07064b50)
include hlocator

/-- **The directory is located.** A locator matters only in what is read of the end. -/
theorem locate_archive : (locate a.bytes).result =
    .ok ⟨a.members.length, (directoryBytes a.members).length, a.area.length⟩ := by
  have hlength := length_archive a
  have hcomment := a.commentLength
  have harchive := a.length
  have hrecord : EOCD_BYTES = 22 := rfl
  have hmost : MAX_COMMENT_BYTES = 65535 := rfl
  have hlimit : ZIP_LIMITS.archiveBytes = 268435456 := rfl
  have hsafe : MAX_SAFE_INTEGER = 9007199254740991 := rfl
  have hoffset : a.endOffset = a.area.length + (directoryBytes a.members).length := rfl
  obtain ⟨hstart, hstart'⟩ := tailStart_le a.bytes.length
  have hbefore : tailStart a.bytes.length ≤ a.endOffset := by
    unfold tailStart
    omega
  generalize hs : tailStart a.bytes.length = s at *
  -- what is read of the end: the rest of the data and the directory, and the end record
  obtain ⟨front, hfront, htail⟩ : ∃ front, front.length = a.endOffset - s ∧ a.bytes.drop s =
      front ++ endBytes a.members.length (directoryBytes a.members).length a.area.length a.comment := by
    refine ⟨(a.area ++ directoryBytes a.members).drop s, by rw [List.length_drop, List.length_append, hoffset], ?_⟩
    rw [Archive.bytes, ← List.append_assoc, List.drop_append_of_le_length (by rw [List.length_append]; omega)]
  have hsplit : a.bytes = a.bytes.take s ++ (front ++
    endBytes a.members.length (directoryBytes a.members).length a.area.length a.comment) := by
    rw [← htail, List.take_append_drop]
  have htake : (a.bytes.take s).length = s := List.length_take_of_le hstart
  have hfound : findEnd (a.bytes.drop s) ((a.bytes.drop s).length - EOCD_BYTES) = .ok (some front.length) := by
    have hdrop : (a.bytes.drop s).length = a.bytes.length - s := List.length_drop
    refine findEnd_eq ?_ (fun p hp hends => ?_) (by omega) (by omega)
    · rw [htail]
      exact (endsAt_append front).mpr (endsAt_endBytes _ _ _ hcomment)
    · rw [htail] at hends
      have hfile := (endsAt_append (a.bytes.take s)).mpr hends
      rw [← hsplit, htake] at hfile
      exact hlast (s + p) (by omega) hfile
  have hend : endRecord (a.bytes.drop s) s front.length =
    .ok ⟨a.members.length, (directoryBytes a.members).length, a.area.length⟩ := by
    rw [htail]
    refine endRecord_bytes front s a.count a.directoryLength (by omega) (by omega)
      (length_directoryBytes a.members) (fun hnone => ?_) ?_
    · have hmembers := List.eq_nil_of_length_eq_zero hnone
      rw [hmembers, a.bare hmembers]
      exact ⟨rfl, rfl⟩
    · intro pos hpos hread
      refine hlocator (s + pos) (Nat.le_add_right _ _) (by omega) ?_
      have hshift := read_append 4 (a.bytes.take s)
        (front ++ endBytes a.members.length (directoryBytes a.members).length a.area.length a.comment) pos
      rw [← hsplit, htake] at hshift
      exact hshift.trans hread
  have hall : (a.bytes.drop s).take (a.bytes.length - s) = a.bytes.drop s :=
    List.take_of_length_le (Nat.le_of_eq List.length_drop)
  have hsize : sizeCheck a.bytes.length = .ok () :=
    bind_ok (deny_of_not (by omega) _) (bind_ok (deny_of_not (by omega) _) (deny_of_not (by omega) _))
  refine Traced.result_bind_ok (a := ()) hsize (Traced.result_bind_ok (readRange_ok (by omega)) ?_)
  refine Traced.result_bind_ok (a := ()) (headCheck_archive a) (Traced.result_bind_ok (readRange_ok (Nat.le_refl _)) ?_)
  show locateIn ((a.bytes.drop (tailStart a.bytes.length)).take (a.bytes.length - tailStart a.bytes.length))
    (tailStart a.bytes.length) = _
  rw [hs, hall]
  exact bind_ok hfound hend

theorem zipListing_located (hnames : ∀ m ∈ a.members, m.text ≠ []) : (zipListing a.bytes).result = .ok
    (listingOf a.members) := by
  have hlength := length_archive a
  have hoffset : a.endOffset = a.area.length + (directoryBytes a.members).length := rfl
  have hsmall := a.length
  have hlimit : ZIP_LIMITS.archiveBytes = 268435456 := rfl
  have hdirectory : (a.bytes.drop a.area.length).take (a.area.length + (directoryBytes a.members).length - a.area.length) =
      directoryBytes a.members := by
    rw [Archive.bytes, List.drop_left, Nat.add_sub_cancel_left, List.take_left]
  have hcounted : Counted ⟨0, heading a.members.length, encodedLength (joinLines (heading a.members.length))⟩ :=
    ⟨List.cons_ne_nil _ _, rfl⟩
  obtain ⟨s, hwalk, hpos, hlines⟩ := walk_members hnames a.stored (by omega) [] 0 rfl hcounted a.output
  refine Traced.result_bind_ok (locate_archive hlast hlocator) (Traced.result_bind_ok (readRange_ok ?_) ?_)
  · show a.area.length + (directoryBytes a.members).length ≤ a.bytes.length
    omega
  show list ((a.bytes.drop a.area.length).take (a.area.length + (directoryBytes a.members).length - a.area.length)) _ = _
  rw [hdirectory]
  refine bind_ok hwalk (bind_ok (deny_of_not (fun hne => hne hpos) _) ?_)
  rw [hlines]
  rfl

end

variable (hlocator : ∀ pos, pos + 20 = a.endOffset → read 4 a.bytes pos ≠ some 0x07064b50)
include hlocator

/-- **Round trip.** An archive is listed as it is, one row for each member in the order of the directory. -/
theorem zipListing_archive (hnames : ∀ m ∈ a.members, m.text ≠ []) :
    (zipListing a.bytes).result = .ok (listingOf a.members) :=
  zipListing_located hlast (fun pos _ hpos => hlocator pos hpos) hnames

end

/-- Without a comment, nothing reads as a later end record. -/
theorem not_endsAt_of_no_comment {a : Archive} (h : a.comment = []) {pos : Nat}
    (hpos : a.endOffset < pos) : ¬ EndsAt a.bytes pos := by
  intro hends
  have hle := hends.le
  have hlength := length_archive a
  rw [h, List.length_nil] at hlength
  omega

/-- A member without content, whose name is in the old code page. -/
def plainMember (name : List UInt8) (h : name.length ≤ ZIP_LIMITS.nameBytes) : Member where
  madeBy := 20
  needed := 20
  flags := 0
  method := 0
  time := 0
  date := 0
  checksum := 0
  compressed := 0
  uncompressed := 0
  internal := 0
  attributes := 0
  localOffset := 0
  name := name
  extra := []
  comment := []
  text := name.map cp437
  named := ⟨none, .nil, (if_neg (by decide)).mpr rfl⟩
  nameLength := h
  extraLength := by decide
  commentLength := by decide
  small := by decide
  plain := by decide

theorem encodedLength_listingOf_singleton (m : Member) :
    encodedLength (listingOf [m]) = 187 + encodedLength (m.entry.line ++ ['\n']) := by
  have hone : encodedLength (decimal 1) = 1 := by decide +kernel
  have hheading : heading 1 ≠ [] := List.cons_ne_nil _ _
  rw [listingOf, List.length_singleton, joinLines_append hheading, encodedLength_append, encodedLength_heading, hone,
    List.map_singleton, List.flatMap_singleton]

def plainArchive (m : Member) (hstored : m.localOffset.toNat + 30 + m.compressed.toNat ≤ 30)
    (hlength : (directoryBytes [m]).length ≤ 100)
    (houtput : encodedLength (listingOf [m]) ≤ ZIP_LIMITS.outputBytes) : Archive where
  area := write 4 0x04034b50 ++ List.replicate 26 0
  members := [m]
  comment := []
  begins := fun _ => ⟨_, rfl⟩
  bare := fun h => absurd h (List.cons_ne_nil _ _)
  stored := fun m' hm => by rw [List.mem_singleton.mp hm]; exact hstored
  commentLength := by decide
  count := (by decide : 1 ≤ ZIP_LIMITS.entries)
  directoryLength := Nat.le_trans hlength (by decide)
  length := by
    have hlimit : ZIP_LIMITS.archiveBytes = 268435456 := rfl
    have hrecord : EOCD_BYTES = 22 := rfl
    rw [List.length_append, length_write, List.length_replicate, List.length_nil]
    omega
  output := houtput

def archiveOfA : Archive := plainArchive (plainMember [0x61] (by decide)) (by decide) (by decide) (by
  rw [encodedLength_listingOf_singleton]
  decide +kernel)

theorem zipListing_archive_of_a : (zipListing archiveOfA.bytes).result = .ok (listingOf archiveOfA.members) :=
  zipListing_archive (fun pos hpos => not_endsAt_of_no_comment rfl hpos)
    (fun pos hpos => by
      obtain rfl : pos = 57 := by
        have hend : archiveOfA.endOffset = 77 := by decide
        omega
      decide)
    (by decide)

/-! ## Where a second end record is found -/

/-- The comment goes on with what the length before it begins, a signature. -/
def straddlingComment : List UInt8 := 5 :: 6 :: (List.replicate 16 0 ++ (write 2 19260 ++ List.replicate 19260 0))

theorem length_straddlingComment : straddlingComment.length = 19280 := by
  simp only [straddlingComment, List.length_cons, List.length_append, List.length_replicate, length_write]

def straddling : Archive where
  area := []
  members := []
  comment := straddlingComment
  begins := fun h => absurd rfl h
  bare := fun _ => rfl
  stored := List.forall_mem_nil _
  commentLength := by rw [length_straddlingComment]; decide
  count := by decide
  directoryLength := by decide
  length := by rw [length_straddlingComment]; decide
  output := by
    show encodedLength (joinLines (heading 0)) ≤ ZIP_LIMITS.outputBytes
    rw [encodedLength_heading]
    decide +kernel

theorem drop_straddling : straddling.bytes.drop 20 = write 4 0x06054b50 ++
    (List.replicate 16 0 ++ (write 2 19260 ++ List.replicate 19260 0)) := by
  have hdrop : ∀ rest : List UInt8, (write 4 0x06054b50 ++
    (write 2 0 ++ (write 2 0 ++ (write 2 0 ++ (write 2 0 ++ (write 4 0 ++ (write 4 0 ++
      (write 2 19280 ++ 5 :: 6 :: rest)))))))).drop 20 = write 4 0x06054b50 ++ rest := fun _ => rfl
  have hbytes : straddling.bytes = endBytes 0 0 0 straddlingComment := rfl
  rw [hbytes, endBytes, length_straddlingComment]
  exact hdrop _

theorem length_straddling : straddling.bytes.length = 19302 := by
  have hoffset : straddling.endOffset = 0 := rfl
  have hcomment : straddling.comment = straddlingComment := rfl
  rw [length_archive, hoffset, hcomment, length_straddlingComment]
  rfl

theorem endsAt_straddling : EndsAt straddling.bytes 20 := by
  have hlength : straddling.bytes.drop 40 = write 2 19260 ++ List.replicate 19260 0 := by
    have hdrop := congrArg (List.drop 20) drop_straddling
    rw [List.drop_drop] at hdrop
    exact hdrop
  refine ⟨read_drop (by decide) (by decide) drop_straddling, 19260, read_drop (by decide) (by decide) hlength, ?_⟩
  rw [length_straddling]
  rfl

theorem not_endsAt_straddling {pos : Nat} (h : 20 < pos) : ¬ EndsAt straddling.bytes pos := by
  rintro ⟨hread, -⟩
  obtain ⟨b, hget, hb⟩ := getElem?_of_read (k := 3) hread
  have hdrop : straddling.bytes.drop 21 = [0x4b, 0x05, 0x06] ++
    (List.replicate 16 0 ++ ([0x3c, 0x4b] ++ List.replicate 19260 0)) := by
    have htail : ∀ rest : List UInt8, (write 4 0x06054b50 ++ (List.replicate 16 0 ++ (write 2 19260 ++ rest))).drop 1 =
        [0x4b, 0x05, 0x06] ++ (List.replicate 16 0 ++ ([0x3c, 0x4b] ++ rest)) := fun _ => rfl
    rw [← htail, ← drop_straddling, List.drop_drop]
  have hmem : b ∈ straddling.bytes.drop 21 := by
    have hget' : (straddling.bytes.drop 21)[pos - 21]? = some b := by
      rw [List.getElem?_drop, show 21 + (pos - 21) = pos by omega]
      exact hget
    exact List.mem_of_getElem? hget'
  rw [hdrop] at hmem
  simp only [List.mem_append, List.mem_cons, List.not_mem_nil, or_false, List.mem_replicate] at hmem
  rcases hmem with (rfl | rfl | rfl) | ⟨-, rfl⟩ | (rfl | rfl) | ⟨-, rfl⟩ <;> exact absurd hb (by decide)

theorem locate_spec {file : List UInt8} {found : Located} (h : (locate file).result = .ok found) :
    locateIn ((file.drop (tailStart file.length)).take (file.length - tailStart file.length))
      (tailStart file.length) = .ok found := by
  rw [locate, Traced.result_bind] at h
  obtain ⟨_, -, h⟩ := bind_eq_ok.mp h
  rw [Traced.result_bind] at h
  obtain ⟨_, -, h⟩ := bind_eq_ok.mp h
  rw [Traced.result_bind] at h
  obtain ⟨_, -, h⟩ := bind_eq_ok.mp h
  rw [Traced.result_bind] at h
  obtain ⟨tail, htail, h⟩ := bind_eq_ok.mp h
  obtain ⟨_, -, htail⟩ := bind_eq_ok.mp htail
  cases htail
  exact h

/-- The bounds are taken from the record. -/
theorem endRecord_spec {tail : List UInt8} {tailStart stop : Nat} {found : Located}
    (h : endRecord tail tailStart stop = .ok found) :
    getUint32 tail (stop + 12) = .ok found.directorySize ∧ getUint32 tail (stop + 16) = .ok found.directoryOffset := by
  obtain ⟨_, -, h⟩ := bind_eq_ok.mp h
  obtain ⟨_, -, h⟩ := bind_eq_ok.mp h
  obtain ⟨_, -, h⟩ := bind_eq_ok.mp h
  obtain ⟨_, -, h⟩ := bind_eq_ok.mp h
  obtain ⟨size, hsize, h⟩ := bind_eq_ok.mp h
  obtain ⟨offset, hoffset, h⟩ := bind_eq_ok.mp h
  obtain ⟨_, -, h⟩ := bind_eq_ok.mp h
  obtain ⟨_, -, h⟩ := bind_eq_ok.mp h
  obtain ⟨_, -, h⟩ := bind_eq_ok.mp h
  obtain ⟨_, -, h⟩ := bind_eq_ok.mp h
  obtain ⟨_, -, h⟩ := bind_eq_ok.mp h
  obtain ⟨_, -, h⟩ := bind_eq_ok.mp h
  obtain ⟨_, -, h⟩ := bind_eq_ok.mp h
  obtain ⟨_, -, h⟩ := bind_eq_ok.mp h
  cases h
  exact ⟨hsize, hoffset⟩

/-- The later record, which is none, describes an empty directory where there is none. -/
theorem zipListing_straddling (text : List Char) : (zipListing straddling.bytes).result ≠ .ok text := by
  intro h
  rw [zipListing, Traced.result_bind] at h
  obtain ⟨found, hfound, -⟩ := bind_eq_ok.mp h
  have hlocate := locate_spec hfound
  have hlength := length_straddling
  have hstart : tailStart straddling.bytes.length = 0 := by
    rw [hlength]
    rfl
  rw [hstart, List.drop_zero, Nat.sub_zero, List.take_length] at hlocate
  have hrecord : EOCD_BYTES = 22 := rfl
  have hfind : findEnd straddling.bytes (straddling.bytes.length - EOCD_BYTES) = .ok (some 20) :=
    findEnd_eq endsAt_straddling (fun p hp => not_endsAt_straddling hp) (by omega) (by omega)
  obtain ⟨stop, hstop, hlocate⟩ := bind_eq_ok.mp hlocate
  rw [hfind] at hstop
  cases hstop
  have hzero : ∀ k n rest, straddling.bytes.drop 20 = k → (k.drop n = write 4 0 ++ rest) →
    getUint32 straddling.bytes (20 + n) = .ok 0 := by
    rintro k n rest rfl hdrop
    rw [List.drop_drop] at hdrop
    rw [getUint32, read_drop (by decide) (by decide) hdrop]
    rfl
  obtain ⟨hsize, hoffset⟩ := endRecord_spec hlocate
  rw [hzero _ 12 _ drop_straddling rfl] at hsize
  rw [hzero _ 16 _ drop_straddling rfl] at hoffset
  have hsum := ((endRecord_safe 0 (by omega)).of_ok hlocate).1
  rw [← Except.ok.inj hsize, ← Except.ok.inj hoffset] at hsum
  exact absurd hsum (by decide)

/-- A member without a name is refused as well. -/
def nameless : Archive := plainArchive (plainMember [] (by decide)) (by decide) (by decide) (by
  rw [encodedLength_listingOf_singleton]
  decide +kernel)

theorem claimed_listing_fails :
    (¬ ∀ a : Archive, (∀ m ∈ a.members, m.text ≠ []) → (∀ pos, a.endOffset + EOCD_BYTES ≤ pos → ¬ EndsAt a.bytes pos) →
      (∀ pos, pos + 20 = a.endOffset → read 4 a.bytes pos ≠ some 0x07064b50) →
      (zipListing a.bytes).result = .ok (listingOf a.members)) ∧
    ¬ ∀ a : Archive, (∀ pos, a.endOffset < pos → ¬ EndsAt a.bytes pos) →
      (∀ pos, pos + 20 = a.endOffset → read 4 a.bytes pos ≠ some 0x07064b50) →
      (zipListing a.bytes).result = .ok (listingOf a.members) := by
  constructor
  · intro h
    have hoffset : straddling.endOffset = 0 := rfl
    have hrecord : EOCD_BYTES = 22 := rfl
    refine zipListing_straddling _ (h straddling (List.forall_mem_nil _)
      (fun pos hpos => not_endsAt_straddling (by omega)) fun pos hpos => ?_)
    omega
  · intro h
    have hend : nameless.endOffset = 76 := by decide
    have hlocator : ∀ pos, pos + 20 = nameless.endOffset → read 4 nameless.bytes pos ≠ some 0x07064b50 := by
      intro pos hpos
      obtain rfl : pos = 56 := by omega
      decide
    have hlisting := h nameless (fun pos hpos => not_endsAt_of_no_comment rfl hpos) hlocator
    exact absurd hlisting (by decide +kernel)

end Zip
end MaterialOpenWebui
