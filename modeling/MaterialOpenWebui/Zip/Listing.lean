import MaterialOpenWebui.Js.Decoder
import MaterialOpenWebui.Js.Json
import MaterialOpenWebui.Lib.Guarded
import MaterialOpenWebui.Lib.LittleEndian

/-!
# `Zip.Listing` — the file listing of a ZIP archive (`src/app/js/core/zip.js`)

Three ranges of the file are read: its first four bytes, its end, and the directory that the record at the end describes. Each
entry of the directory becomes a row of the listing, with its name in quotes. Whatever is not as it should be is refused.

A view of a buffer throws where an access would reach over its end, and other accesses are cut short there or give `undefined`.
Here all of them are the same failure, `outside`, which the code has no words for.
-/

namespace MaterialOpenWebui
namespace Zip
open Js Guarded

namespace ZIP_LIMITS

def archiveBytes : Nat := 256 * 1024 * 1024
def directoryBytes : Nat := 4 * 1024 * 1024
def entries : Nat := 10000
def nameBytes : Nat := 4096
def outputBytes : Nat := 4 * 1024 * 1024

end ZIP_LIMITS

def EOCD_BYTES : Nat := 22
def MAX_COMMENT_BYTES : Nat := 65535
def CENTRAL_BYTES : Nat := 46
def MAX_SAFE_INTEGER : Nat := 9007199254740991

/-- The characters of the bytes from 128. -/
def CP437_HIGH : JsString := js
  "ÇüéâäàåçêëèïîìÄÅÉæÆôöòûùÿÖÜ¢£¥₧ƒáíóúñÑªº¿⌐¬½¼¡«»░▒▓│┤╡╢╖╕╣║╗╝╜╛┐└┴┬├─┼╞╟╚╔╩╦╠═╬╧╨╤╥╙╘╒╓╫╪┘┌█▄▌▐▀αßΓπΣσµτΦΘΩδ∞φε∩≡±≥≤⌠⌡÷≈°∙·√ⁿ²■\u00a0"

/-! ## Accesses -/

/-- An error of the code's own, or an access that is not inside the buffer, or a loop that does not end. -/
inductive Failure where
  | invalid (reason : String)
  | outside
  deriving DecidableEq

def Failure.message : Failure → String
  | .invalid reason => "Cannot list this ZIP: " ++ reason ++ ". The source file is untouched."
  | .outside => ""

abbrev Checked (α : Type) := Except Failure α

/-- `if (cond) throw invalid(reason)` -/
def deny (cond : Prop) [Decidable cond] (reason : String) : Checked Unit := refuse cond (.invalid reason)

def orOutside {α : Type} : Option α → Checked α
  | some a => .ok a
  | none => .error .outside

/-- `view.getUint16(pos, true)` -/
def getUint16 (bytes : List UInt8) (pos : Nat) : Checked Nat := orOutside (LittleEndian.read 2 bytes pos)

/-- `view.getUint32(pos, true)` -/
def getUint32 (bytes : List UInt8) (pos : Nat) : Checked Nat := orOutside (LittleEndian.read 4 bytes pos)

/-- `bytes[pos]` -/
def byteAt (bytes : List UInt8) (pos : Nat) : Checked UInt8 := orOutside bytes[pos]?

/-- `bytes.subarray(start, stop)` -/
def subarray (bytes : List UInt8) (start stop : Nat) : Checked (List UInt8) :=
  if start ≤ stop ∧ stop ≤ bytes.length then .ok ((bytes.drop start).take (stop - start)) else .error .outside

/-- Computations that record the ranges of the file they ask for. -/
abbrev Reading (α : Type) := Traced (Nat × Nat) Failure α

/-- A range of the file; a file that is a sequence of bytes can be read. -/
def readRange (file : List UInt8) (start stop : Nat) : Reading (List UInt8) :=
  let bytes := (file.drop start).take (stop - start)
  .ask (start, stop) do
    deny (bytes.length ≠ stop - start) "a requested metadata range is truncated"
    return bytes

/-! ## Names -/

/-- `(crc >>> 1) ^ (crc & 1 ? 0xedb88320 : 0)` -/
def crcBit (crc : UInt32) : UInt32 := (crc >>> 1) ^^^ (if crc &&& 1 ≠ 0 then 0xedb88320 else 0)

def crc32 (bytes : List UInt8) : UInt32 :=
  bytes.foldl (fun crc byte => (List.range 8).foldl (fun crc _ => crcBit crc)
    (crc ^^^ byte.toUInt32)) 0xffffffff ^^^ 0xffffffff

def decodeUtf8 (bytes : List UInt8) : Checked JsString :=
  match decodeFatal bytes with
  | some text => .ok text
  | none => .error (.invalid "a filename marked as UTF-8 contains invalid UTF-8")

/-- What a field of the extra area says of the name. -/
def unicodePath (bytes extra : List UInt8) (pos size : Nat) (unicodeName : Option JsString) : Checked (Option JsString) := do
  deny (unicodeName ≠ none) "a filename has duplicate Unicode path fields"
  deny (size < 5) "the Unicode path extra-field version or length is unsupported"
  let version ← byteAt extra pos
  deny (version ≠ 1) "the Unicode path extra-field version or length is unsupported"
  deny (ZIP_LIMITS.nameBytes < size - 5) "a Unicode filename exceeds the 4096-byte limit"
  let checksum ← getUint32 extra (pos + 1)
  deny (checksum ≠ (crc32 bytes).toNat) "a Unicode path extra field has a mismatched filename CRC32"
  let path ← subarray extra (pos + 5) (pos + size)
  let name ← decodeUtf8 path
  return some name

/-- A field of another kind says nothing. -/
def fieldName (bytes extra : List UInt8) (id pos size : Nat) (unicodeName : Option JsString) : Checked (Option JsString) :=
  if id = 0x7075 then unicodePath bytes extra pos size unicodeName else .ok unicodeName

/-- One field, and where the next one begins. -/
def extraField (bytes extra : List UInt8) (pos : Nat) (unicodeName : Option JsString) : Checked (Nat × Option JsString) := do
  deny (extra.length < pos + 4) "an extra-field header is truncated"
  let id ← getUint16 extra pos
  let size ← getUint16 extra (pos + 2)
  let pos := pos + 4
  deny (extra.length < pos + size) "an extra field exceeds its directory record"
  deny (id = 0x0001) "ZIP64 archives are not supported"
  deny (id = 0x0017 ∨ id = 0x9901) "encrypted archives are not supported"
  let unicodeName ← fieldName bytes extra id pos size unicodeName
  return (pos + size, unicodeName)

/-- The loop over the fields; it has as many turns as it is given. -/
def extraFields (bytes extra : List UInt8) : Nat → Nat → Option JsString → Checked (Option JsString)
  | 0, pos, unicodeName => if pos < extra.length then .error .outside else .ok unicodeName
  | turns + 1, pos, unicodeName =>
    if pos < extra.length then do
      let next ← extraField bytes extra pos unicodeName
      extraFields bytes extra turns next.1 next.2
    else .ok unicodeName

def cp437 (b : UInt8) : UInt16 := if b < 128 then b.toUInt16 else CP437_HIGH.getD (b.toNat - 128) 0

def nameText (bytes : List UInt8) (flags : Nat) (unicodeName : Option JsString) : Checked JsString :=
  if flags &&& 0x0800 ≠ 0 then decodeUtf8 bytes else .ok (unicodeName.getD (bytes.map cp437))

def filename (bytes : List UInt8) (flags : Nat) (extra : List UInt8) : Checked JsString := do
  let unicodeName ← extraFields bytes extra extra.length 0 none
  let name ← nameText bytes flags unicodeName
  deny (name = []) "a directory entry has an empty filename"
  deny (flags &&& 0x0800 ≠ 0 ∧ unicodeName ≠ none ∧ unicodeName ≠ some name)
    "the UTF-8 filename disagrees with its Unicode path extra field"
  return name

/-- `[\u007f-\u009f\u061c\u200e\u200f\u2028-\u202e\u2066-\u2069]` -/
def isControl (c : Char) : Bool :=
  let n := c.toNat
  (0x7f ≤ n && n ≤ 0x9f) || n == 0x61c || n == 0x200e || n == 0x200f || (0x2028 ≤ n && n ≤ 0x202e) ||
    (0x2066 ≤ n && n ≤ 0x2069)

def escapeControl (c : Char) : List Char := if isControl c then '\x5c' :: 'u' :: hex4 c.toNat else [c]

/-- One quoted field. -/
def quotedName (name : JsString) : List Char := (quote name).flatMap escapeControl

/-! ## The end record -/

def isEnd (tail : List UInt8) (pos : Nat) : Checked Bool := do
  let signature ← getUint32 tail pos
  if signature = 0x06054b50 then
    let comment ← getUint16 tail (pos + 20)
    return pos + EOCD_BYTES + comment == tail.length
  else return false

/-- From a position back to the beginning. -/
def findEnd (tail : List UInt8) : Nat → Checked (Option Nat)
  | 0 => do
    let found ← isEnd tail 0
    return if found then some 0 else none
  | pos + 1 => do
    let found ← isEnd tail (pos + 1)
    if found then return some (pos + 1) else findEnd tail pos

/-- What the end record says of the directory. -/
structure Located where
  entries : Nat
  directorySize : Nat
  directoryOffset : Nat
  deriving DecidableEq

/-- The signature of a ZIP64 locator would stand there. -/
def locatorBefore (tail : List UInt8) (stop : Nat) : Checked Nat := if 20 ≤ stop then getUint32 tail (stop - 20) else .ok 0

def endRecord (tail : List UInt8) (tailStart stop : Nat) : Checked Located := do
  let endOffset := tailStart + stop
  let disk ← getUint16 tail (stop + 4)
  let directoryDisk ← getUint16 tail (stop + 6)
  let diskEntries ← getUint16 tail (stop + 8)
  let entries ← getUint16 tail (stop + 10)
  let directorySize ← getUint32 tail (stop + 12)
  let directoryOffset ← getUint32 tail (stop + 16)
  deny (disk = 0xffff ∨ directoryDisk = 0xffff ∨ diskEntries = 0xffff ∨ entries = 0xffff ∨ directorySize = 0xffffffff ∨
    directoryOffset = 0xffffffff) "ZIP64 archives are not supported"
  let locator ← locatorBefore tail stop
  deny (locator = 0x07064b50) "ZIP64 archives are not supported"
  deny (disk ≠ 0 ∨ directoryDisk ≠ 0 ∨ diskEntries ≠ entries) "multi-disk or split archives are not supported"
  deny (ZIP_LIMITS.entries < entries) "the directory exceeds the 10000-entry limit"
  deny (ZIP_LIMITS.directoryBytes < directorySize) "the central directory exceeds the 4 MiB limit"
  deny (directoryOffset + directorySize ≠ endOffset)
    "the central-directory bounds are invalid or contain unsupported signature/trailer records"
  deny (directorySize < entries * CENTRAL_BYTES ∨ entries = 0 ∧ (directorySize ≠ 0 ∨ directoryOffset ≠ 0))
    "the directory size does not match its entry count"
  return ⟨entries, directorySize, directoryOffset⟩

/-- Before the first range is read. -/
def sizeCheck (size : Nat) : Checked Unit := do
  deny (MAX_SAFE_INTEGER < size) "the input must be a readable Blob or File"
  deny (ZIP_LIMITS.archiveBytes < size) "the archive exceeds the 256 MiB limit"
  deny (size < EOCD_BYTES) "the end-of-central-directory record is missing or truncated"

def headCheck (head : List UInt8) : Checked Unit := do
  let signature ← getUint32 head 0
  deny (signature ≠ 0x04034b50 ∧ signature ≠ 0x06054b50)
    "a standard ZIP signature is missing (self-extracting or prefixed archives are unsupported)"

def locateIn (tail : List UInt8) (tailStart : Nat) : Checked Located := do
  let found ← findEnd tail (tail.length - EOCD_BYTES)
  match found with
  | none => .error (.invalid "the end-of-central-directory record is missing, truncated or followed by trailing bytes")
  | some stop => endRecord tail tailStart stop

/-- Where the last bytes begin that can hold an end record. -/
def tailStart (size : Nat) : Nat := (max 0 ((size : Int) - EOCD_BYTES - MAX_COMMENT_BYTES)).toNat

/-- The beginning of `zipListing`. -/
def locate (file : List UInt8) : Reading Located := do
  .lift (sizeCheck file.length)
  let head ← readRange file 0 4
  .lift (headCheck head)
  let tail ← readRange file (tailStart file.length) file.length
  .lift (locateIn tail (tailStart file.length))

/-! ## The directory -/

inductive Kind where
  | symlink | directory | file
  deriving DecidableEq

def Kind.text : Kind → List Char
  | .symlink => "symlink".toList
  | .directory => "directory".toList
  | .file => "file".toList

structure Entry where
  kind : Kind
  compressed : Nat
  uncompressed : Nat
  method : Nat
  checksum : Nat
  name : JsString
  deriving DecidableEq

def kindOf (unixType attributes : Nat) (name : JsString) : Kind :=
  if unixType = 0xa then .symlink
  else if name.getLast? = some 0x2f ∨ attributes &&& 0x10 ≠ 0 ∨ unixType = 4 then .directory
  else .file

def decimal (n : Nat) : List Char := Nat.toDigits 10 n

/-- `n.toString(16).padStart(8, '0')` -/
def hex8 (n : Nat) : List Char := (Nat.toDigits 16 n).leftpad 8 '0'

def Entry.line (e : Entry) : List Char :=
  ['\t'].intercalate [e.kind.text, decimal e.compressed, decimal e.uncompressed, decimal e.method,
    hex8 e.checksum, quotedName e.name]

/-- The entry at a position, and where the next one begins. -/
def entry (directory : List UInt8) (directoryOffset index pos : Nat) : Checked (Entry × Nat) := do
  let missing := "central-directory entry " ++ toString (index + 1) ++ " is missing or truncated"
  deny (directory.length < pos + CENTRAL_BYTES) missing
  let signature ← getUint32 directory pos
  deny (signature ≠ 0x02014b50) missing
  let flags ← getUint16 directory (pos + 8)
  let method ← getUint16 directory (pos + 10)
  let compressed ← getUint32 directory (pos + 20)
  let uncompressed ← getUint32 directory (pos + 24)
  let nameSize ← getUint16 directory (pos + 28)
  let extraSize ← getUint16 directory (pos + 30)
  let commentSize ← getUint16 directory (pos + 32)
  let startDisk ← getUint16 directory (pos + 34)
  let localOffset ← getUint32 directory (pos + 42)
  deny (compressed = 0xffffffff ∨ uncompressed = 0xffffffff ∨ localOffset = 0xffffffff ∨ startDisk = 0xffff)
    "ZIP64 archives are not supported"
  deny (startDisk ≠ 0) "multi-disk or split archives are not supported"
  deny (flags &&& 0x2041 ≠ 0 ∨ method = 99) "encrypted archives are not supported"
  deny (ZIP_LIMITS.nameBytes < nameSize) "a filename exceeds the 4096-byte limit"
  let next := pos + CENTRAL_BYTES + nameSize + extraSize + commentSize
  deny (directory.length < next) "a filename, extra field or comment exceeds its directory record"
  deny (directoryOffset < localOffset + 30 + compressed) "a claimed local-file range lies outside the archive data area"
  let nameStart := pos + CENTRAL_BYTES
  let nameBytes ← subarray directory nameStart (nameStart + nameSize)
  let extraBytes ← subarray directory (nameStart + nameSize) (nameStart + nameSize + extraSize)
  let name ← filename nameBytes flags extraBytes
  let attributes ← getUint32 directory (pos + 38)
  let system ← byteAt directory (pos + 5)
  let unixType := if system = 3 then (attributes >>> 28) &&& 0xf else 0
  let checksum ← getUint32 directory (pos + 16)
  return (⟨kindOf unixType attributes name, compressed, uncompressed, method, checksum, name⟩, next)

/-- `ENCODER.encode(text).length` -/
@[irreducible] def encodedLength (text : List Char) : Nat := (utf8 (ofChars text)).size

/-- `lines.join('\n') + '\n'` -/
def joinLines (lines : List (List Char)) : List Char := ['\n'].intercalate lines ++ ['\n']

theorem joinLines_eq {lines : List (List Char)} (h : lines ≠ []) :
    joinLines lines = lines.flatMap fun line => line ++ ['\n'] := by
  rw [joinLines]
  induction lines with
  | nil => exact absurd rfl h
  | cons line lines ih =>
    cases lines with
    | nil => simp
    | cons line' lines =>
      have hrest := ih (List.cons_ne_nil _ _)
      rw [List.intercalate_cons_cons, List.append_assoc, hrest]
      rfl

theorem joinLines_append {lines : List (List Char)} (h : lines ≠ []) (more : List (List Char)) :
    joinLines (lines ++ more) = joinLines lines ++ more.flatMap fun line => line ++ ['\n'] := by
  rw [joinLines_eq h, joinLines_eq (List.append_ne_nil_of_left_ne_nil h _), List.flatMap_append]

def heading (entries : Nat) : List (List Char) :=
  ["ZIP central-directory listing (metadata only; payloads, local headers and CRC32 are not verified).".toList,
    "Entries: ".toList ++ decimal entries,
    "kind\tcompressed-bytes\tuncompressed-bytes\tmethod-id\tclaimed-crc32\tquoted-name".toList]

structure Progress where
  pos : Nat
  lines : List (List Char)
  outputBytes : Nat

def turn (directory : List UInt8) (directoryOffset index : Nat) (s : Progress) : Checked Progress := do
  let e ← entry directory directoryOffset index s.pos
  let line := e.1.line
  let outputBytes := s.outputBytes + encodedLength (line ++ ['\n'])
  deny (ZIP_LIMITS.outputBytes < outputBytes) "the text listing exceeds the 4 MiB output limit"
  return ⟨e.2, s.lines ++ [line], outputBytes⟩

/-- The loop over the entries, of which so many are left. -/
def walk (directory : List UInt8) (directoryOffset : Nat) : Nat → Nat → Progress → Checked Progress
  | 0, _, s => .ok s
  | left + 1, index, s => do
    let s ← turn directory directoryOffset index s
    walk directory directoryOffset left (index + 1) s

def list (directory : List UInt8) (found : Located) : Checked (List Char) := do
  let lines := heading found.entries
  let s ← walk directory found.directoryOffset found.entries 0 ⟨0, lines, encodedLength (joinLines lines)⟩
  deny (s.pos ≠ directory.length) "the directory contains uncounted entries or unsupported trailer records"
  return joinLines s.lines

def zipListing (file : List UInt8) : Reading (List Char) := do
  let found ← locate file
  let directory ← readRange file found.directoryOffset (found.directoryOffset + found.directorySize)
  .lift (list directory found)

end Zip
end MaterialOpenWebui
