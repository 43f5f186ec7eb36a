import MaterialOpenWebui.Js.Json
import MaterialOpenWebui.Js.Streaming
import MaterialOpenWebui.Lib.Pieces

/-!
# `Ollama.Ndjson` — one message a line (`ndjson` in `app/js/core/ollama.js`)

The answer to a pull or a chat arrives in chunks that end anywhere: within a line, and within a character. `ndjson` keeps what is not
finished and yields a message for each line that is.

The loop is left when the stream ends, when it fails, and when the signal is aborted; only in the first case is what is left over
read as a last line.
-/

namespace MaterialOpenWebui
namespace Ollama
open Js Feed Pieces

/-! ## Messages -/

def lineFeed : UInt16 := 0x0a

/-- The message of a line; one that is blank or malformed is skipped. -/
def messageOf (line : JsString) : List JsValue :=
  if trim line = [] then [] else (parse (scalars (trim line))).toList

/-- The messages of the lines that are complete, and what is left. -/
def takeLines (buffer : JsString) : List JsValue × JsString :=
  if _h : lineFeed ∈ buffer then
    let (messages, rest) := takeLines (buffer.drop (buffer.idxOf lineFeed + 1))
    (messageOf (buffer.take (buffer.idxOf lineFeed)) ++ messages, rest)
  else ([], buffer)
termination_by buffer.length
decreasing_by
  have hidx := List.idxOf_lt_length_of_mem _h
  rw [List.length_drop]
  omega

/-- What is kept from chunk to chunk: the decoder, and the line that has begun. -/
abbrev Reader := StreamDecoder × JsString

def onChunk (reader : Reader) (value : List UInt8) : List JsValue × Reader :=
  let (text, decoder) := decodeChunk reader.1 value
  let (messages, buffer) := takeLines (reader.2 ++ text)
  (messages, (decoder, buffer))

/-- How the loop is left after the last chunk that is read. -/
inductive Ending where
  | done
  | failed (error : JsString)
  | aborted

structure Yielded where
  messages : List JsValue
  error : Option JsString

def ndjson (ending : Ending) (chunks : List (List UInt8)) : Yielded :=
  let (messages, reader) := feed onChunk (newDecoder, []) chunks
  match ending with
  | .done => ⟨messages ++ messageOf reader.2, none⟩
  | .failed error => ⟨messages, some error⟩
  | .aborted => ⟨messages, none⟩

/-! ## Unit by unit -/

/-- The line that has begun, and a unit more. -/
def lineUnit (line : JsString) (u : UInt16) : List JsValue × JsString :=
  if u = lineFeed then (messageOf line, []) else ([], line ++ [u])

/-- The loop takes the lines as a reader does that sees one unit at a time. -/
theorem takeLines_eq {line : JsString} (hline : lineFeed ∉ line) (text : JsString) :
    takeLines (line ++ text) = feed lineUnit line text := by
  induction text generalizing line with
  | nil =>
    rw [List.append_nil, takeLines, dif_neg hline]
    rfl
  | cons u text ih =>
    rw [feed_cons]
    by_cases hu : u = lineFeed
    · have hidx : (line ++ u :: text).idxOf lineFeed = line.length := by
        rw [List.idxOf_append_of_notMem hline, hu, List.idxOf_cons_self, Nat.add_zero]
      have hmem : lineFeed ∈ line ++ u :: text := by
        rw [hu]
        exact List.mem_append_right line List.mem_cons_self
      have hrest : (line ++ u :: text).drop (line.length + 1) = text := by
        rw [List.drop_append, List.drop_eq_nil_of_le (Nat.le_succ _), Nat.add_sub_cancel_left]
        rfl
      have hnext := ih List.not_mem_nil
      rw [takeLines, dif_pos hmem, hidx, hrest, List.take_left, lineUnit, if_pos hu, ← hnext]
      rfl
    · have hline' : lineFeed ∉ line ++ [u] := by
        rw [List.mem_append, List.mem_singleton, not_or]
        exact ⟨hline, fun h => hu h.symm⟩
      have hnext := ih hline'
      rw [List.append_assoc, List.singleton_append] at hnext
      rw [hnext, lineUnit, if_neg hu]
      rfl

theorem not_mem_feed {line : JsString} (hline : lineFeed ∉ line) (text : JsString) :
    lineFeed ∉ (feed lineUnit line text).2 := by
  induction text generalizing line with
  | nil => exact hline
  | cons u text ih =>
    rw [feed_cons]
    apply ih
    unfold lineUnit
    split_ifs with hu
    · exact List.not_mem_nil
    · rw [List.mem_append, List.mem_singleton, not_or]
      exact ⟨hline, fun h => hu h.symm⟩

/-- A reader of bytes: the decoder, and the lines of what it gives. -/
def byteReader : Reader → UInt8 → List JsValue × Reader := through (through decodeByte dropMark) lineUnit

theorem onChunk_eq {reader : Reader} (hline : lineFeed ∉ reader.2) (value : List UInt8) :
    onChunk reader value = feed byteReader reader value ∧ lineFeed ∉ (onChunk reader value).2.2 := by
  have htake := takeLines_eq hline (decodeChunk reader.1 value).1
  have heq : onChunk reader value = feed byteReader reader value := by
    rw [byteReader, feed_through, ← decodeChunk_eq, ← htake]
    rfl
  refine ⟨heq, ?_⟩
  rw [heq, byteReader, feed_through]
  exact not_mem_feed hline _

/-! ## Cuts -/

/-- The lines of a text, one by one. -/
theorem feed_lineUnit {line : JsString} (hline : lineFeed ∉ line) (text : JsString) : feed lineUnit line text =
    (((line ++ text).splitOn lineFeed).dropLast.flatMap messageOf, ((line ++ text).splitOn lineFeed).getLastD []) := by
  induction text generalizing line with
  | nil =>
    rw [List.append_nil, List.splitOn_eq_singleton hline]
    rfl
  | cons u text ih =>
    rw [feed_cons]
    by_cases hu : u = lineFeed
    · have hnext := ih List.not_mem_nil
      rw [lineUnit, if_pos hu, hnext, hu, List.splitOn_append_cons_self_of_not_mem hline, List.nil_append,
        List.dropLast_cons_of_ne_nil (splitOn_ne_nil text), List.flatMap_cons]
      congr 1
      cases hsplit : text.splitOn lineFeed with
      | nil => exact absurd hsplit (splitOn_ne_nil text)
      | cons first lines => rfl
    · have hline' : lineFeed ∉ line ++ [u] := by
        rw [List.mem_append, List.mem_singleton, not_or]
        exact ⟨hline, fun h => hu h.symm⟩
      rw [lineUnit, if_neg hu, ih hline', List.append_assoc, List.singleton_append, List.nil_append]

/-- What a stream says, however it arrives. -/
def messagesOf (ending : Ending) (bytes : List UInt8) : Yielded :=
  let lines := (decodeChunk newDecoder bytes).1.splitOn lineFeed
  match ending with
  | .done => ⟨lines.flatMap messageOf, none⟩
  | .failed error => ⟨lines.dropLast.flatMap messageOf, some error⟩
  | .aborted => ⟨lines.dropLast.flatMap messageOf, none⟩

/-- **However the stream arrives**, its messages are those of its bytes, line by line. -/
theorem ndjson_eq (ending : Ending) (chunks : List (List UInt8)) :
    ndjson ending chunks = messagesOf ending chunks.flatten := by
  have hread : feed onChunk (newDecoder, []) chunks = feed byteReader (newDecoder, []) chunks.flatten := by
    rw [← feed_chunks]
    exact feed_congr (I := fun reader => lineFeed ∉ reader.2) (fun _ _ hline => onChunk_eq hline _) List.not_mem_nil chunks
  have hlines : feed byteReader (newDecoder, []) chunks.flatten =
      (((decodeChunk newDecoder chunks.flatten).1.splitOn lineFeed).dropLast.flatMap messageOf,
        ((decodeChunk newDecoder chunks.flatten).2,
          ((decodeChunk newDecoder chunks.flatten).1.splitOn lineFeed).getLastD [])) := by
    rw [byteReader, feed_through, ← decodeChunk_eq, feed_lineUnit List.not_mem_nil]
    rfl
  rw [ndjson, hread, hlines]
  cases ending with
  | failed error => rfl
  | aborted => rfl
  | done =>
    have hlast : ∀ lines : List JsString, lines ≠ [] →
        lines.dropLast.flatMap messageOf ++ messageOf (lines.getLastD []) = lines.flatMap messageOf := by
      intro lines hne
      obtain ⟨front, last, rfl⟩ := (List.eq_nil_or_concat lines).resolve_left hne
      rw [List.concat_eq_append, List.dropLast_concat, List.getLastD_concat, List.flatMap_append, List.flatMap_singleton]
    exact congrArg (Yielded.mk · none) (hlast _ (splitOn_ne_nil _))

/-- **Where a stream is cut** does not matter: the messages are the same, and so is the error after them. -/
theorem ndjson_chunks (ending : Ending) {chunks chunks' : List (List UInt8)} (h : chunks.flatten = chunks'.flatten) :
    ndjson ending chunks = ndjson ending chunks' := by rw [ndjson_eq, h, ← ndjson_eq]

/-- A character cut in two, and a line that ends with a chunk of its own. -/
theorem ndjson_chunks_cut : ndjson .done [[0x22, 0xc3], [0xa9, 0x22], [0x0a], []] = ndjson .done
    [[0x22, 0xc3, 0xa9, 0x22, 0x0a]] :=
  ndjson_chunks .done rfl

example : (ndjson .done [[0x22, 0xc3], [0xa9, 0x22], [0x0a], []]).messages = [.str (js "é")] := by
  rw [ndjson_eq]
  rfl

end Ollama
end MaterialOpenWebui
