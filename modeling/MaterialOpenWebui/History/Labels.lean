import MaterialOpenWebui.History.Runs
import MaterialOpenWebui.Js.Numeric

/-!
# `History.Labels` — the label in force, and what pruning makes of it

A label is an entry about another, and the last word counts, be it a label or none. Pruning keeps what has a label and what is
labelled, but a labelling that clears a label has none itself. If it goes, the word before it counts again.
-/

namespace MaterialOpenWebui
namespace History
open Js HashChain Run

/-! ## The label in force -/

/-- The label in force for an entry, taking later labelling entries into account. -/
def labelFor (entries : List Entry) (seq : Nat) : JsValue :=
  entries.foldl (fun current e =>
    let current := if e.seq = seq then .str e.label else current
    if e.action = js "label" ∧ e.target = natText seq then e.after else current) (.str [])

/-- The entry is about the label of number `seq`. -/
def speaks (seq : Nat) (e : Entry) : Bool := e.seq = seq ∨ e.action = js "label" ∧ e.target = natText seq

/-- What of an entry is not its seal. -/
def Entry.content (e : Entry) : Entry := { e with parent := [], hash := [] }

section
variable (sha256 : ByteArray → Vector UInt8 32) {number : JsString → JsNumber} {log : Log} {before : JsString}

/-- Dated on the cut or after it, or of a number that `prune` takes for labelled. -/
def stays (number : JsString → JsNumber) (log : Log) (before : JsString) (e : Entry) : Bool :=
  before ≤ e.atTime.take 10 ∨ JsNumber.ofNat e.seq ∈ labelled number true log.entries

end

end History
end MaterialOpenWebui
