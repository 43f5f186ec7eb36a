import MaterialOpenWebui.Js.Bytes
import MaterialOpenWebui.Js.Json
import MaterialOpenWebui.Lib.HashChain

/-!
# `History.Log` — the local version history (`app/js/core/history.js`)

An append-only log whose entries each carry the hash of the one before. The functions are the source's:
`canonical` and `hashOf` fix what an entry's hash covers, `redact` what may be written at all, `record` is
the only way to add an entry, `restore`, `label` and `prune` go through it, and `verify` walks the chain.

`crypto.subtle.digest('SHA-256', ·)` is the parameter `sha256`; `Number(·)` of a string is the parameter
`number` of `prune`. An operation that throws is an `Except` error with the message it throws.

The functions that only read a log for display (`actions`, `days`, `filter`, `diff`,
`forExport`) are not part of this model.
-/

namespace MaterialOpenWebui
namespace History
open Js

/-! ## Limits -/

def schemaVersion : Nat := 1
def maxEntries : Nat := 5000
def maxLabelLength : Nat := 120
def maxValueBytes : Nat := 8192

/-- Fields never written into history, in any entry, at any point. -/
def neverRecorded : List JsString :=
  [js "secret", js "hash", js "password", js "pin", js "token", js "apiKey"]

/-! ## Hashing -/

/-- `Object.keys(v).sort()`, with the properties the keys stand for. -/
def sortByKey {α : Type} (ps : List (JsString × α)) : List (JsString × α) :=
  ps.insertionSort (fun a b => a.1 ≤ b.1)

mutual

/-- The local function `stable` of `canonical`. The source sorts the keys before it descends into the
    values; sorting looks at the keys alone, so the order of the two does not matter. -/
def stable : JsValue → JsValue
  | .undefined => .null
  | .null => .null
  | .arr vs => .arr (stableElems vs)
  | .obj ps => .obj (fromEntries (sortByKey (stableProps ps)))
  | .bool b => .bool b
  | .num n => .num n
  | .str s => .str s

def stableElems : List JsValue → List JsValue
  | [] => []
  | v :: vs => stable v :: stableElems vs

def stableProps : List (JsString × JsValue) → List (JsString × JsValue)
  | [] => []
  | (k, v) :: ps => (k, stable v) :: stableProps ps

end

/-- The part of an entry its hash covers. -/
def hashedFields (entry : JsValue) : List (JsString × JsValue) :=
  [(js "seq", entry.get (js "seq")),
   (js "at", entry.get (js "at")),
   (js "action", entry.get (js "action")),
   (js "target", entry.get (js "target")),
   (js "before", entry.get (js "before")),
   (js "after", entry.get (js "after")),
   (js "label", (entry.get (js "label")).or (.str [])),
   (js "parent", (entry.get (js "parent")).or (.str []))]

/-- A canonical rendering of an entry, so the same content always hashes the same. -/
def canonical (entry : JsValue) : List Char :=
  (stringify (stable (.obj (hashedFields entry)))).getD []

def hashOf (sha256 : ByteArray → Vector UInt8 32) (entry : JsValue) : JsString :=
  (sha256 (String.ofList (canonical entry)).toUTF8).toList.flatMap hexByte

/-! ## Redaction -/

mutual

/-- A value with anything in `neverRecorded` removed, at any depth. -/
def redact : Nat → JsValue → JsValue
  | depth, v =>
    if depth > 8 then .str (js "[too deeply nested to record]")
    else
      match v with
      | .undefined => .undefined
      | .null => .null
      | .arr vs => .arr (redactElems (depth + 1) vs)
      | .obj ps => .obj (redactProps (depth + 1) ps)
      | .str s =>
        if s.length > maxValueBytes then
          .str (s.take maxValueBytes ++ js "… [" ++ natText (s.length - maxValueBytes) ++
            js " more characters not recorded]")
        else .str s
      | .bool b => .bool b
      | .num n => .num n

def redactElems : Nat → List JsValue → List JsValue
  | _, [] => []
  | depth, v :: vs => redact depth v :: redactElems depth vs

/-- The properties assigned to `out`, in the order of `Object.entries(value)`. Assigning `__proto__` sets
    the prototype and adds no property. -/
def redactProps : Nat → List (JsString × JsValue) → List (JsString × JsValue)
  | _, [] => []
  | depth, (k, v) :: ps =>
    if k ∈ neverRecorded then (k, .str (js "[not recorded]")) :: redactProps depth ps
    else if k = js "__proto__" then redactProps depth ps
    else (k, redact depth v) :: redactProps depth ps

end

/-! ## Entries and logs -/

structure Entry where
  seq : Nat
  atTime : JsString
  action : JsString
  target : JsString
  before : JsValue
  after : JsValue
  label : JsString
  parent : JsString
  hash : JsString

/-- The entry as the object the source builds. -/
def Entry.toJs (e : Entry) : JsValue :=
  .obj [(js "seq", .num (.ofNat e.seq)), (js "at", .str e.atTime), (js "action", .str e.action),
    (js "target", .str e.target), (js "before", e.before), (js "after", e.after),
    (js "label", .str e.label), (js "parent", .str e.parent), (js "hash", .str e.hash)]

/-- The hash that entry `e` should carry. -/
def Entry.digest (sha256 : ByteArray → Vector UInt8 32) (e : Entry) : JsString := hashOf sha256 e.toJs

/-- `truncated` is absent from the log `empty()` returns. -/
structure Log where
  entries : List Entry
  truncated : Option Nat

def Log.toJs (log : Log) : JsValue :=
  .obj ([(js "schema", .num (.ofNat schemaVersion)), (js "entries", .arr (log.entries.map Entry.toJs))] ++
    (match log.truncated with
      | some n => [(js "truncated", .num (.ofNat n))]
      | none => []))

def empty : Log := ⟨[], none⟩

/-! ## Appending -/

/-- What a caller passes to `record`. -/
structure Change where
  action : JsString
  target : Option JsString
  before : JsValue
  after : JsValue
  atTime : Option JsString
  label : Option JsString

/-- `s || d` of a string that may be missing. -/
def orElse (s : Option JsString) (d : JsString) : JsString :=
  match s with
  | some [] => d
  | some s => s
  | none => d

/-- `n + 1` on a counter: from `2^53` on, a double no longer moves. -/
def succ (n : Nat) : Nat := if n < 2 ^ 53 then n + 1 else n

structure Recorded where
  log : Log
  entry : Entry
  dropped : Nat

section
variable (sha256 : ByteArray → Vector UInt8 32)

/-- The entry sealed from `parent`: `{ ...entry, parent }` with its hash recomputed. -/
def sealEntry (parent : JsString) (e : Entry) : Entry :=
  { e with parent := parent, hash := Entry.digest sha256 { e with parent := parent } }

/-- The entry `record` adds after `entries`. -/
def newEntry (now : JsString) (entries : List Entry) (c : Change) : Entry :=
  let previous := entries.getLast?
  sealEntry sha256 ((previous.map Entry.hash).getD [])
    { seq := (previous.map (fun e => succ e.seq)).getD 1
      atTime := orElse c.atTime now
      action := c.action
      target := c.target.getD []
      before := redact 0 c.before
      after := redact 0 c.after
      label := (c.label.getD []).take maxLabelLength
      parent := []
      hash := [] }

/-- Appends one entry; beyond the cap the oldest are dropped. -/
def record (now : JsString) (log : Log) (c : Change) : Except JsString Recorded :=
  if c.action = [] then .error (js "Every history entry has to say what happened.")
  else
    let entry := newEntry sha256 now log.entries c
    let next := log.entries ++ [entry]
    if next.length > maxEntries then
      -- nothing is re-sealed: the first entry kept still names a dropped one as its parent
      let dropped := next.length - maxEntries
      .ok ⟨⟨next.drop dropped, some (log.truncated.getD 0 + dropped)⟩, entry, dropped⟩
    else .ok ⟨⟨next, some (log.truncated.getD 0)⟩, entry, 0⟩

structure Restored extends Recorded where
  restored : JsValue
  source : Entry

/-- Restores an earlier value as a new entry. -/
def restore (now : JsString) (log : Log) (seq : Nat) (atTime : Option JsString) :
    Except JsString Restored :=
  match log.entries.find? (fun e => e.seq = seq) with
  | none => .error (js "There is no entry number " ++ natText seq ++ js " to restore.")
  | some target => do
    let result ← record sha256 now log
      { action := js "restore"
        target := some (target.action ++
          (if target.target = [] then [] else js " · " ++ target.target))
        before := target.after
        after := target.before
        atTime := atTime
        label := some (js "Restored the value from entry " ++ natText seq) }
    return { toRecorded := result, restored := target.before, source := target }

/-- Labels an entry, as an append. -/
def label (now : JsString) (log : Log) (seq : Nat) (text : JsString) (atTime : Option JsString) :
    Except JsString Recorded :=
  match log.entries.find? (fun e => e.seq = seq) with
  | none => .error (js "There is no entry number " ++ natText seq ++ js " to label.")
  | some target =>
    -- the entry itself stays as it is: the label is in a new entry whose target is its number
    record sha256 now log
      { action := js "label"
        target := some (natText seq)
        before := .str target.label
        after := .str (text.take maxLabelLength)
        atTime := atTime
        label := some (text.take maxLabelLength) }

/-! ## Verification -/

inductive Verdict where
  | ok (checked : Nat)
  | bad (seq : JsValue) (reason : JsString)

/-- How an entry takes part in the chain, as `verify` reads it: the comparisons are `===`, so a parent or
    hash that is no string equals none. -/
def scheme : HashChain.Scheme JsValue JsValue where
  parent e := (e.get (js "parent")).or (.str [])
  hash e := e.get (js "hash")
  digest e := .str (hashOf sha256 e)

/-- The error a property access on `null` or `undefined` throws. -/
def typeError : JsString := js "TypeError"

def mismatch (entry : JsValue) (what : JsString) : Except JsString Verdict :=
  match (entry.get (js "seq")).toStr with
  | some s => .ok (.bad (entry.get (js "seq")) (js "entry " ++ s ++ what))
  | none => .error typeError

/-- The loop of `verify` from the parent it has reached, with `checked` entries in the log. -/
def verifyFrom (checked : Nat) (parent : JsString) : List JsValue → Except JsString Verdict
  | [] => .ok (.ok checked)
  | entry :: entries =>
    if entry.isNullish then .error typeError
    else if ¬ ((entry.get (js "parent")).or (.str [])).isStr parent then
      mismatch entry (js " does not follow the one before it")
    else if ¬ (entry.get (js "hash")).isStr (hashOf sha256 entry) then
      mismatch entry (js " has been changed since it was written")
    else verifyFrom checked (hashOf sha256 entry) entries

/-- Walks the chain and reports the first entry whose hash does not match. -/
def verify (log : JsValue) : Except JsString Verdict :=
  let entries := (log.get (js "entries")).elemsOrNil
  verifyFrom sha256 entries.length [] entries

/-! ## Pruning -/

structure Pruned where
  log : Log
  entry : Option Entry
  removed : Nat

/-- The sequence numbers `prune` keeps whatever their date. -/
def labelled (number : JsString → JsNumber) (keepLabelled : Bool) (entries : List Entry) :
    List JsNumber :=
  if keepLabelled then
    (entries.filter (fun e => e.label ≠ [])).map (fun e => .ofNat e.seq) ++
      (entries.filter (fun e => e.action = js "label")).map (fun e => number e.target)
  else []

/-- The entries `prune` keeps. -/
def kept (number : JsString → JsNumber) (before : JsString) (keepLabelled : Bool)
    (entries : List Entry) : List Entry :=
  entries.filter (fun e =>
    before ≤ e.atTime.take 10 ∨ JsNumber.ofNat e.seq ∈ labelled number keepLabelled entries)

/-- The chain rebuilt across what remains, from an empty parent. -/
def rebuild (parent : JsString) : List Entry → List Entry
  | [] => []
  | e :: es => sealEntry sha256 parent e :: rebuild (sealEntry sha256 parent e).hash es

/-- Removes old entries, and records that it did. -/
def prune (number : JsString → JsNumber) (now : JsString) (log : Log) (before : JsString)
    (keepLabelled : Bool) (atTime : Option JsString) : Except JsString Pruned :=
  if before = [] then .error (js "Pruning needs a date to prune up to.")
  else
    let keptEntries := kept number before keepLabelled log.entries
    let removed := log.entries.length - keptEntries.length
    if removed = 0 then .ok ⟨log, none, 0⟩
    else do
      -- the pruning is itself a change, recorded on the rebuilt chain
      let rebuilt := rebuild sha256 [] keptEntries
      let result ← record sha256 now ⟨rebuilt, some (log.truncated.getD 0)⟩
        { action := js "prune"
          target := some (js "entries before " ++ before)
          before := .obj [(js "entries", .num (.ofNat log.entries.length))]
          after := .obj [(js "entries", .num (.ofNat rebuilt.length))]
          atTime := atTime
          label := some (natText removed ++ js " entries removed, " ++
            (if keepLabelled then js "keeping every labelled one" else js "including labelled ones")) }
      return ⟨result.log, some result.entry, removed⟩

end

end History
end MaterialOpenWebui
