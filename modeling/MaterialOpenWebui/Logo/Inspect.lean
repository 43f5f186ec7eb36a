import MaterialOpenWebui.Js.Decoder
import MaterialOpenWebui.Logo.Headers

/-!
# `Logo.Inspect` — what is decided before a decoder is involved (`app/js/core/logo.js`, `app/js/core/convert.js`)

`sniff` tells by the first bytes what a file is, and `inspect` accepts it as a mark if it is an image of a size that may be decoded.

`(n / 1048576).toFixed(d)`, `String(n / 1048576)` and `String(Math.round((k / n) * 100))` are the parameters `fixed`, `plain` and
`percent`: they are in texts only. Of the bytes, those are recorded that tell a known format and a size; the loop that counts what is
printable reads a prefix of the file.
-/

namespace MaterialOpenWebui
namespace Logo
open Js Guarded

/-! ## What a file is -/

structure Sniffed where
  type : JsString
  cat : JsString
  mime : JsString
  evidence : JsString

structure Signature where
  type : JsString
  cat : JsString
  mime : JsString
  pos : Nat
  bytes : List Nat

def SIGNATURES : List Signature :=
  [⟨js "PNG image", js "Images", js "image/png", 0, pngSignature⟩,
   ⟨js "JPEG image", js "Images", js "image/jpeg", 0, jpegStart⟩,
   ⟨js "GIF image", js "Images", js "image/gif", 0, gif8⟩,
   ⟨js "BMP image", js "Images", js "image/bmp", 0, bm⟩,
   ⟨js "PDF document", js "Documents/PDF", js "application/pdf", 0, [0x25, 0x50, 0x44, 0x46]⟩,
   ⟨js "GZIP archive", js "Archives", js "application/gzip", 0, [0x1f, 0x8b]⟩,
   ⟨js "7-Zip archive", js "Archives", js "application/x-7z-compressed", 0, [0x37, 0x7a, 0xbc, 0xaf, 0x27, 0x1c]⟩,
   ⟨js "MP3 audio", js "Audio", js "audio/mpeg", 0, [0x49, 0x44, 0x33]⟩,
   ⟨js "FLAC audio", js "Audio", js "audio/flac", 0, [0x66, 0x4c, 0x61, 0x43]⟩,
   ⟨js "OGG container", js "Audio", js "audio/ogg", 0, [0x4f, 0x67, 0x67, 0x53]⟩]

/-- The first signature that matches. -/
def firstMatch (u8 : List UInt8) : List Signature → Reading (Option Signature)
  | [] => pure none
  | s :: signatures => do
    if ← has u8 s.pos s.bytes then return some s
    else firstMatch u8 signatures

def hexBytes (bytes : List UInt8) : JsString := [0x20].intercalate (bytes.map hexByte)

/-- A type that is no image this can use, or that a known container tells of. -/
def sniffRiff (u8 : List UInt8) : Reading Sniffed := do
  if ← has u8 8 webp then return ⟨js "WebP image", js "Images", js "image/webp", js "RIFF container tagged WEBP at offset 8"⟩
  else if ← has u8 8 [0x57, 0x41, 0x56, 0x45] then
    return ⟨js "WAV audio", js "Audio", js "audio/wav", js "RIFF container tagged WAVE at offset 8"⟩
  else if ← has u8 8 [0x41, 0x56, 0x49, 0x20] then
    return ⟨js "AVI video", js "Video", js "video/x-msvideo", js "RIFF container tagged AVI at offset 8"⟩
  else return ⟨js "RIFF container", js "Binary Encodings", js "application/octet-stream",
    js "RIFF container with an unrecognised inner tag"⟩

def lowerUnit (u : UInt16) : UInt16 := if 0x41 ≤ u ∧ u ≤ 0x5a then u + 0x20 else u

/-- The brand lives at offset 8, after the box size; `/^(qt|M4A)/i` is audio. -/
def sniffBrand (u8 : List UInt8) : Sniffed :=
  let brand := textDecoder ((u8.drop 8).take 4)
  let evidence := js "ISO base media brand \x22" ++ trim brand ++ js "\x22"
  if (brand.take 2).map lowerUnit = js "qt" ∨ (brand.take 3).map lowerUnit = js "m4a" then
    ⟨js "MP4-family audio (" ++ trim brand ++ js ")", js "Audio", js "audio/mp4", evidence⟩
  else ⟨js "MP4 video (" ++ trim brand ++ js ")", js "Video", js "video/mp4", evidence⟩

/-- `/^[^,\n]+(,[^,\n]+)+(\r?\n|$)/`: the first line has two cells at least, and no empty one. -/
def isCsv (text : JsString) : Bool :=
  let cells := (text.takeWhile (· ≠ 0x0a)).splitOn 0x2c
  2 ≤ cells.length ∧ [] ∉ cells

def isPrintable (b : UInt8) : Bool := b = 9 ∨ b = 10 ∨ b = 13 ∨ 32 ≤ b ∧ b < 127 ∨ 128 ≤ b

section
variable (percent : Nat → Nat → JsString)

/-- Text heuristics, last, and only over a bounded prefix. -/
def sniffText (u8 : List UInt8) : Sniffed :=
  let n := min u8.length 512
  let printable := (u8.take 512).countP isPrintable
  if 0 < n ∧ 19 * n < 20 * printable then
    let text := trim (textDecoder (u8.take 512))
    let evidence := percent printable n ++ js "% of the first " ++ natText n ++ js " bytes are printable"
    if (js "\x7b").isPrefixOf text ∨ (js "[").isPrefixOf text then
      ⟨js "JSON / structured text", js "Structured Data/Spreadsheets", js "application/json", evidence⟩
    else if isCsv text then ⟨js "CSV table", js "Structured Data/Spreadsheets", js "text/csv", evidence⟩
    else if (js "<?xml").isPrefixOf text then ⟨js "XML document", js "Code/Text", js "application/xml", evidence⟩
    else if (js "<").isPrefixOf text then ⟨js "Markup text (HTML/SVG)", js "Code/Text", js "text/html", evidence⟩
    else ⟨js "Plain text", js "Code/Text", js "text/plain", evidence⟩
  else ⟨js "Unrecognised binary", js "Binary Encodings", js "application/octet-stream",
    js "No known signature matched. Header: " ++ hexBytes (u8.take 12)⟩

/-- What no signature and no RIFF tag tells. -/
def sniffRest (u8 : List UInt8) : Reading Sniffed := do
  if ← has u8 4 [0x66, 0x74, 0x79, 0x70] then return sniffBrand u8
  else if ← has u8 0 [0x50, 0x4b, 0x03, 0x04] then
    return ⟨js "ZIP archive", js "Archives", js "application/zip", js "ZIP local file header (PK\\x03\\x04)"⟩
  else if ← has u8 0 [0x50, 0x4b, 0x05, 0x06] then
    return ⟨js "ZIP archive", js "Archives", js "application/zip",
      js "ZIP empty-archive end-of-central-directory signature (PK\\x05\\x06)"⟩
  else return sniffText percent u8

/-- Inspects a bounded prefix and reports what the bytes actually are. -/
def sniff (u8 : List UInt8) : Reading Sniffed := do
  if u8 = [] then return ⟨js "Empty file", js "Code/Text", js "application/octet-stream", js "The file contains no bytes."⟩
  else match ← firstMatch u8 SIGNATURES with
    | some s =>
      return ⟨s.type, s.cat, s.mime, js "Signature at offset " ++ natText s.pos ++ js ": " ++
        hexBytes (s.bytes.map UInt8.ofNat)⟩
    | none => if ← has u8 0 riff then sniffRiff u8 else sniffRest percent u8

end

/-! ## The verdict -/

structure Limits where
  maxBytes : Nat
  maxDimension : Nat
  maxPixels : Nat
  maxFrames : Nat

def LIMITS : Limits := ⟨4 * 1024 * 1024, 4096, 8 * 1024 * 1024, 1⟩

def ACCEPTED : List JsString := [js "image/png", js "image/jpeg", js "image/gif", js "image/webp", js "image/bmp"]

structure Accepted where
  dims : Dimensions
  found : Sniffed
  bytes : Nat
  note : JsString

inductive Inspection where
  | refused (reason : JsString) (evidence : Option JsString) (sniffed : Option JsString)
  | ok (accepted : Accepted)

/-- The letters and digits after the last point of a name, if there is nothing else: `/\.([a-z0-9]+)$/i`. -/
def extensionOf (filename : JsString) : Option JsString :=
  let ext := (filename.reverse.takeWhile (· ≠ 0x2e)).reverse
  if 0x2e ∈ filename ∧ ext ≠ [] ∧ ext.all (fun u => (0x30 ≤ u && u ≤ 0x39) || (0x61 ≤ lowerUnit u && lowerUnit u ≤ 0x7a)) then
    some (ext.map lowerUnit)
  else none

section
variable (percent fixed : Nat → Nat → JsString) (plain : Nat → JsString)

/-- What is wrong with a size, if anything is. -/
def refusedSize (limits : Limits) (width height : Nat) : Option JsString :=
  if width = 0 ∨ height = 0 then some (js "That image reports a zero dimension, which no decoder can use.")
  else if limits.maxDimension < width ∨ limits.maxDimension < height then
    some (js "That image is " ++ natText width ++
      js " by " ++ natText height ++ js " pixels, and the limit on either side is " ++
      natText limits.maxDimension ++ js ".")
  else if limits.maxPixels < width * height then
    some (js "That image is " ++ fixed (width * height) 1 ++ js " megapixels, which is more than " ++
      js "this will decode. Decoded, it would need roughly " ++ fixed (width * height * 4) 0 ++ js " MB of memory.")
  else none

/-- Animation is a note rather than a refusal. -/
def frameNote (limits : Limits) (frames : Nat) : JsString :=
  if limits.maxFrames < frames then
    js "That image has " ++ natText frames ++ js " frames. An application mark is a still picture, so only the first is used."
  else []

/-- What comes of a size; an exception becomes a refusal. -/
def sizeVerdict (u8 : List UInt8) (limits : Limits) (found : Sniffed) : Except Failure Dimensions → Except Failure Inspection
  | .error (.thrown message) => .ok (.refused message none (some found.type))
  | .error .unfinished => .error .unfinished
  | .ok d =>
    match refusedSize fixed limits d.width d.height with
    | some reason => .ok (.refused reason none (some found.type))
    | none => .ok (.ok ⟨d, found, u8.length, frameNote limits d.frames⟩)

def inspectSize (u8 : List UInt8) (limits : Limits) (found : Sniffed) : Reading Inspection :=
  ⟨(readDimensions u8).trace, sizeVerdict fixed u8 limits found (readDimensions u8).result⟩

/-- The verdict on a file that is not too large, by what it was found to be. -/
def inspectFound (u8 : List UInt8) (filename : JsString) (limits : Limits) (found : Sniffed) : Reading Inspection :=
  if found.mime ∉ ACCEPTED then
    return .refused (js "The bytes in that file are " ++ found.type ++ js ", not an image this can use." ++
      ((extensionOf filename).map fun claimed =>
        js " The name says ." ++ claimed ++ js ", but an extension is a label, not the contents.").getD [])
      (some found.evidence) (some found.type)
  else inspectSize fixed u8 limits found

/-- Everything decided before a decoder is involved. -/
def inspect (u8 : List UInt8) (filename : JsString) (limits : Limits) : Reading Inspection := do
  if u8 = [] then return .refused (js "That file contains no bytes.") none none
  else if limits.maxBytes < u8.length then
    return .refused (js "That file is " ++ fixed u8.length 1 ++ js " MB, and the limit is " ++ plain limits.maxBytes ++
      js " MB. An application mark is drawn a few dozen pixels across.") none none
  else
    let found ← sniff percent u8
    inspectFound fixed u8 filename limits found

/-! ## The way to a size -/

variable {u8 : List UInt8}

/-- The size may be decoded. -/
structure InLimits (limits : Limits) (width height : Nat) : Prop where
  width_pos : 0 < width
  height_pos : 0 < height
  width_le : width ≤ limits.maxDimension
  height_le : height ≤ limits.maxDimension
  pixels_le : width * height ≤ limits.maxPixels

theorem refusedSize_eq_none {limits : Limits} {width height : Nat} :
    refusedSize fixed limits width height = none ↔ InLimits limits width height := by
  unfold refusedSize
  split_ifs with hzero hdim hpixels
  · refine iff_of_false not_false fun h => ?_
    have hw := h.width_pos
    have hh := h.height_pos
    omega
  · refine iff_of_false not_false fun h => ?_
    have hw := h.width_le
    have hh := h.height_le
    omega
  · exact iff_of_false not_false fun h => Nat.not_lt_of_le h.pixels_le hpixels
  · exact iff_of_true rfl ⟨by omega, by omega, by omega, by omega, Nat.le_of_not_lt hpixels⟩

theorem firstMatch_safe (signatures : List Signature) :
    Safe u8 (· = signatures.find? fun s => starts u8 s.pos s.bytes) (firstMatch u8 signatures) := by
  induction signatures with
  | nil => exact safe_pure rfl
  | cons s signatures ih =>
    rw [firstMatch, List.find?_cons]
    refine (safe_has s.pos s.bytes).bind fun found hfound => ?_
    rw [hfound]
    cases starts u8 s.pos s.bytes with
    | true => exact safe_pure rfl
    | false => exact ih

/-- A GIF and a WebP are told as what they are. -/
def Told (u8 : List UInt8) (found : Sniffed) : Prop :=
  (starts u8 0 gif8 = true → found.mime = js "image/gif") ∧
    (starts u8 0 riff = true ∧ starts u8 8 webp = true → found.mime = js "image/webp")

theorem find_gif (h : starts u8 0 gif8 = true) :
    (SIGNATURES.find? fun s => starts u8 s.pos s.bytes) = some ⟨js "GIF image", js "Images", js "image/gif", 0, gif8⟩ := by
  have hbyte := byte_of_starts h
  have hpng : starts u8 0 pngSignature = false := starts_eq_false hbyte (by decide)
  have hjpeg : starts u8 0 jpegStart = false := starts_eq_false hbyte (by decide)
  simp only [SIGNATURES, List.find?_cons, hpng, hjpeg, h]

theorem find_riff (h : starts u8 0 riff = true) : (SIGNATURES.find? fun s => starts u8 s.pos s.bytes) = none := by
  have hbyte := byte_of_starts h
  refine List.find?_eq_none.mpr fun s hs => ?_
  rw [Bool.not_eq_true]
  simp only [SIGNATURES, List.mem_cons, List.not_mem_nil, or_false] at hs
  rcases hs with rfl | rfl | rfl | rfl | rfl | rfl | rfl | rfl | rfl | rfl <;> exact starts_eq_false hbyte (by decide)

theorem sniffRiff_safe (u8 : List UInt8) : Safe u8
    (fun found => starts u8 8 webp = true → found.mime = js "image/webp") (sniffRiff u8) := by
  refine (safe_has _ _).bind fun isWebp hwebp => ?_
  by_cases htrue : isWebp = true
  · rw [if_pos htrue]
    exact safe_pure fun _ => rfl
  rw [if_neg htrue]
  have hnot : ¬ starts u8 8 webp = true := hwebp ▸ htrue
  refine (safe_has _ _).bind fun isWave _ => ?_
  split_ifs
  · exact safe_pure fun h => absurd h hnot
  refine (safe_has _ _).bind fun isAvi _ => ?_
  split_ifs
  · exact safe_pure fun h => absurd h hnot
  · exact safe_pure fun h => absurd h hnot

theorem sniffRest_safe (u8 : List UInt8) : Safe u8 (fun _ => True) (sniffRest percent u8) := by
  refine (safe_has _ _).bind fun isBrand _ => ?_
  split_ifs
  · exact safe_pure trivial
  refine (safe_has _ _).bind fun isZip _ => ?_
  split_ifs
  · exact safe_pure trivial
  refine (safe_has _ _).bind fun isEmptyZip _ => ?_
  split_ifs
  · exact safe_pure trivial
  · exact safe_pure trivial

/-- `sniff` tells of every file what it is, from bytes of the file. -/
theorem sniff_safe (u8 : List UInt8) : Safe u8 (Told u8) (sniff percent u8) := by
  unfold sniff
  split_ifs with hnil
  · refine safe_pure ⟨fun h => ?_, fun h => ?_⟩
    · have hlen := length_of_starts h
      rw [hnil] at hlen
      exact absurd hlen (by decide)
    · have hlen := length_of_starts h.1
      rw [hnil] at hlen
      exact absurd hlen (by decide)
  refine (firstMatch_safe SIGNATURES).bind fun first hfirst => ?_
  cases first with
  | some s =>
    refine safe_pure ⟨fun h => ?_, fun h => ?_⟩
    · rw [find_gif h] at hfirst
      cases hfirst
      rfl
    · rw [find_riff h.1] at hfirst
      cases hfirst
  | none =>
    have hgif : ¬ starts u8 0 gif8 = true := by
      intro h
      rw [find_gif h] at hfirst
      cases hfirst
    refine (safe_has 0 riff).bind fun isRiff hriff => ?_
    by_cases htrue : isRiff = true
    · rw [if_pos htrue]
      obtain ⟨found, hresult, hinside, htold⟩ := sniffRiff_safe u8
      exact ⟨found, hresult, hinside, fun h => absurd h hgif, fun h => htold h.2⟩
    · rw [if_neg htrue]
      have hnot : ¬ starts u8 0 riff = true := hriff ▸ htrue
      obtain ⟨found, hresult, hinside, -⟩ := sniffRest_safe percent u8
      exact ⟨found, hresult, hinside, fun h => absurd h hgif, fun h => absurd h.1 hnot⟩

theorem sizeVerdict_ok {limits : Limits} {found : Sniffed} {dims : Except Failure Dimensions} {a : Accepted}
    (h : sizeVerdict fixed u8 limits found dims = .ok (.ok a)) : dims = .ok a.dims ∧
      InLimits limits a.dims.width a.dims.height := by
  cases dims with
  | error e => cases e <;> cases h
  | ok d =>
    rw [sizeVerdict] at h
    cases hsize : refusedSize fixed limits d.width d.height with
    | some reason =>
      rw [hsize] at h
      cases h
    | none =>
      rw [hsize] at h
      cases h
      exact ⟨rfl, (refusedSize_eq_none fixed).mp hsize⟩

/-- A size in the limits is accepted. -/
theorem sizeVerdict_of_limits (u8 : List UInt8) {limits : Limits} (found : Sniffed) {d : Dimensions}
    (h : InLimits limits d.width d.height) :
    ∃ a, sizeVerdict fixed u8 limits found (.ok d) = .ok (.ok a) :=
  ⟨⟨d, found, u8.length, frameNote limits d.frames⟩, by rw [sizeVerdict, (refusedSize_eq_none fixed).mpr h]⟩

/-- What is cut short is an image, by its first bytes. -/
theorem accepted_of_cutShort {found : Sniffed} (h : CutShort u8) (htold : Told u8 found) : found.mime ∈ ACCEPTED := by
  have hkind : starts u8 0 gif8 = true ∨ starts u8 0 riff = true ∧ starts u8 8 webp = true := by
    by_contra hnot
    rw [not_or] at hnot
    unfold CutShort kindOf at h
    rw [if_neg hnot.1, if_neg hnot.2] at h
    split_ifs at h <;> exact Nat.not_lt_zero _ h
  rcases hkind with hgif | hwebp
  · rw [htold.1 hgif]
    decide
  · rw [htold.2 hwebp]
    decide

/-! ## What is accepted was read -/

/-- What is accepted is in the limits, and every byte that told its format and its size is in the file. -/
def AcceptsOnlyRead (u8 : List UInt8) (filename : JsString) (limits : Limits) : Prop :=
  ∀ a, (inspect percent fixed plain u8 filename limits).result = .ok (.ok a) →
    InLimits limits a.dims.width a.dims.height ∧ Inside u8 (inspect percent fixed plain u8 filename limits)

/-- **What is accepted was read**, unless the file is cut short and its size, with zero for what is missing, may be decoded. -/
theorem acceptsOnlyRead_iff (u8 : List UInt8) (filename : JsString) (limits : Limits) :
    AcceptsOnlyRead percent fixed plain u8 filename limits ↔
      (CutShort u8 → u8.length ≤ limits.maxBytes → ¬ InLimits limits (sizeOf u8 (kindOf u8)).1
        (sizeOf u8 (kindOf u8)).2) := by
  obtain ⟨found, hfound, hsniff, htold⟩ := sniff_safe percent u8
  unfold AcceptsOnlyRead
  -- nothing else is accepted, and nothing that is cut short gets there
  by_cases hnil : u8 = []
  · have hwhole : ¬ CutShort u8 := by
      rw [hnil]
      decide
    refine iff_of_true (fun a ha => ?_) fun hcut => absurd hcut hwhole
    rw [inspect, if_pos hnil] at ha
    cases ha
  by_cases hlarge : limits.maxBytes < u8.length
  · refine iff_of_true (fun a ha => ?_) fun _ hle => absurd hlarge (Nat.not_lt_of_le hle)
    rw [inspect, if_neg hnil, if_pos hlarge] at ha
    cases ha
  have hsize : inspect percent fixed plain u8 filename limits = sniff percent u8 >>=
    inspectFound fixed u8 filename limits := by
    rw [inspect, if_neg hnil, if_neg hlarge]
  by_cases hmime : found.mime ∉ ACCEPTED
  · refine iff_of_true (fun a ha => ?_) fun hcut => absurd (accepted_of_cutShort hcut htold) hmime
    rw [hsize, result_of_ok hfound, inspectFound, if_pos hmime] at ha
    cases ha
  have hresult : (inspect percent fixed plain u8 filename limits).result =
    sizeVerdict fixed u8 limits found (readDimensions u8).result := by
    rw [hsize, result_of_ok hfound, inspectFound, if_neg hmime]
    rfl
  have hinside : Inside u8 (inspect percent fixed plain u8 filename limits) ↔ ¬ CutShort u8 := by
    rw [hsize, inside_bind, and_iff_right hsniff, ← inside_readDimensions, hfound]
    simp only [Except.ok.injEq, forall_eq', inspectFound, if_neg hmime]
    exact Iff.rfl
  rw [hresult]
  constructor
  · intro h hcut _ hlimits
    obtain ⟨frames, format, hdims⟩ := readDimensions_size hcut
    obtain ⟨a, ha⟩ := sizeVerdict_of_limits fixed u8 found (d := ⟨_, _, frames, format⟩) hlimits
    rw [← hdims] at ha
    exact hinside.mp (h a ha).2 hcut
  · intro h a ha
    obtain ⟨hdims, hlimits⟩ := sizeVerdict_ok fixed ha
    refine ⟨hlimits, hinside.mpr fun hcut => ?_⟩
    obtain ⟨frames, format, hread⟩ := readDimensions_size hcut
    rw [hread, Except.ok.injEq] at hdims
    rw [← hdims] at hlimits
    exact h hcut (Nat.le_of_not_lt hlarge) hlimits

end

/-- A GIF that ends with the low byte of its height. -/
def shortGif : List UInt8 := [0x47, 0x49, 0x46, 0x38, 0x39, 0x61, 0x10, 0x00, 0x10]

def wholePercent (k n : Nat) : JsString := natText (k * 100 / n)
def wholeMegabytes (n : Nat) : JsString := natText (n / 1048576)

/-- It is accepted with a height of which one byte is not there. -/
theorem shortGif_accepted :
    (∃ a, (inspect wholePercent (fun n _ => wholeMegabytes n) wholeMegabytes shortGif [] LIMITS).result = .ok (.ok a) ∧
      a.dims = ⟨16, 16, 1, .gif⟩) ∧
    ¬ AcceptsOnlyRead wholePercent (fun n _ => wholeMegabytes n) wholeMegabytes shortGif [] LIMITS := by
  have haccepted : ∃ a,
    (inspect wholePercent (fun n _ => wholeMegabytes n) wholeMegabytes shortGif [] LIMITS).result = .ok (.ok a) ∧
      a.dims = ⟨16, 16, 1, .gif⟩ := ⟨_, rfl, rfl⟩
  have hread : 9 ∈ (inspect wholePercent (fun n _ => wholeMegabytes n) wholeMegabytes shortGif [] LIMITS).trace := by decide
  refine ⟨haccepted, fun h => ?_⟩
  obtain ⟨a, ha, -⟩ := haccepted
  exact absurd ((h a ha).2 9 hread) (by decide)

end Logo
end MaterialOpenWebui
