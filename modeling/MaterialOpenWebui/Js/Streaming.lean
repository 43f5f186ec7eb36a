import MaterialOpenWebui.Js.Decoder
import MaterialOpenWebui.Lib.Feed

/-!
# `Js.Streaming` — `TextDecoder` with `{ stream: true }`

The decoder keeps what has begun of a character until the next call, and whether a mark at the beginning can still come. It is never
flushed, so what has begun and is not finished when the stream ends is not seen.
-/

namespace Js
open Feed

/-! ## The decoder -/

/-- What a byte adds, with nothing for an error, and what has begun after it. -/
def decodeByte (pending : Option Pending) (b : UInt8) : List (Option Char) × Option Pending :=
  let begin := match first b.toNat with
    | .char c => ([some c], none)
    | .lead p => ([], some p)
    | .bad => ([none], none)
  match pending with
  | none => begin
  | some p =>
    if p.lower ≤ b.toNat ∧ b.toNat ≤ p.upper then
      if p.needed = 1 then ([some (Char.ofNat (p.next b.toNat).point)], none) else ([], some (p.next b.toNat))
    else (none :: begin.1, begin.2)

/-- The units of a character; the first of all is dropped if it is a mark. -/
def dropMark (started : Bool) (c : Option Char) : JsString × Bool :=
  (if started = false ∧ c = some '\uFEFF' then [] else units (c.getD '\uFFFD'), true)

/-- What has begun, and whether there was a character. -/
abbrev StreamDecoder := Option Pending × Bool

def newDecoder : StreamDecoder := (none, false)

/-- `decoder.decode(value, { stream: true })` -/
def decodeChunk (decoder : StreamDecoder) (value : List UInt8) : JsString × StreamDecoder :=
  let (chars, pending) := feed decodeByte decoder.1 value
  let (text, started) := feed dropMark decoder.2 chars
  (text, (pending, started))

/-! ## Cuts -/

theorem decodeChunk_eq : decodeChunk = feed (through decodeByte dropMark) := by
  funext decoder value
  exact (feed_through decodeByte dropMark decoder value).symm

end Js
