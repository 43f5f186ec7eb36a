import MaterialOpenWebui.Js.Json
import MaterialOpenWebui.Js.Uri
import MaterialOpenWebui.Lib.Scan
import MaterialOpenWebui.Tables.Delimited

/-!
# `Tables.TomlReader` — documents of TOML 1.0

A reader of the part of the language that has arrays of tables, keys without dots, strings on one line, booleans, decimal numbers,
arrays and comments. What is no such document has no tables. A table must not have a key twice.
-/

namespace MaterialOpenWebui
namespace Tables
open Js Scan

/-! ## Strings -/

def backslash : UInt16 := 0x5c

/-- What may stand in a string as it is, a quote or a backslash apart. -/
def isTomlUnit (u : UInt16) : Bool := u == 0x09 || (0x20 ≤ u && u != 0x7f)

/-- Where in a string the reader is; of an escape by number, how many digits come after the next, and the value so far. -/
inductive Mode where
  | plain
  | escaped
  | hex (left value : Nat)

def tomlEscapes : List (UInt16 × UInt16) :=
  [(0x62, 0x08), (0x74, 0x09), (0x6e, LF), (0x66, 0x0c), (0x72, CR), (quote, quote), (backslash, backslash)]

/-- More at the beginning of a string that has been read. -/
def onto (more : JsString) (found : Option (JsString × JsString)) : Option (JsString × JsString) :=
    found.map fun p => (more ++ p.1, p.2)

/-- A basic string after its opening quote: what it says, and what follows it. -/
def readBasic : Mode → JsString → Option (JsString × JsString)
  | _, [] => none
  | .plain, u :: s =>
    if u = quote then some ([], s)
    else if u = backslash then readBasic .escaped s
    else if isTomlUnit u then onto [u] (readBasic .plain s)
    else none
  | .escaped, u :: s =>
    if u = 0x75 then readBasic (.hex 3 0) s
    else if u = 0x55 then readBasic (.hex 7 0) s
    else (tomlEscapes.lookup u).bind fun v => onto [v] (readBasic .plain s)
  | .hex 0 value, u :: s => (hexDigit u).bind fun d =>
    if (16 * value + d).isValidChar then onto (units (Char.ofNat (16 * value + d))) (readBasic .plain s) else none
  | .hex (n + 1) value, u :: s => (hexDigit u).bind fun d => readBasic (.hex n (16 * value + d)) s

/-! ## Values -/

inductive Toml where
  | string (s : JsString)
  | bool (b : Bool)
  | number (text : JsString)
  | array (vs : List Toml)

def skipBlank (s : JsString) : JsString := s.dropWhile fun u => u == 0x20 || u == 0x09

/-- What a boolean or a number may have. -/
def isTokenUnit (u : UInt16) : Bool :=
  (0x30 ≤ u && u ≤ 0x39) || (0x61 ≤ u && u ≤ 0x7a) || (0x41 ≤ u && u ≤ 0x5a) ||
    u == 0x2b || u == 0x2d || u == 0x2e || u == 0x5f

/-- A boolean, or a number in decimals. -/
def ofToken (token : JsString) : Option Toml :=
  if token = js "true" then some (.bool true)
  else if token = js "false" then some (.bool false)
  else if (parseNumeral (scalars token)).any fun p => p.2.isEmpty then some (.number token)
  else none

mutual

/-- A value, and what follows it. -/
def readValue : Nat → JsString → Option (Toml × JsString)
  | _, [] => none
  | 0, _ => none
  | n + 1, u :: s =>
    if u = quote then (readBasic .plain s).map fun p => (.string p.1, p.2)
    else if u = 0x5b then (readElems n (skipBlank s)).map fun p => (.array p.1, p.2)
    else (ofToken ((u :: s).takeWhile isTokenUnit)).map fun v => (v, (u :: s).dropWhile isTokenUnit)

/-- The values of an array, its bracket or a comma before them. -/
def readElems : Nat → JsString → Option (List Toml × JsString)
  | 0, _ => none
  | n + 1, s =>
    if s.head? = some 0x5d then some ([], s.tail)
    else (readValue n s).bind fun p =>
      match skipBlank p.2 with
      | [] => none
      | u :: rest =>
        if u = 0x2c then (readElems n (skipBlank rest)).map fun q => (p.1 :: q.1, q.2)
        else if u = 0x5d then some ([p.1], rest)
        else none

end

/-! ## Lines -/

inductive Line where
  | header (name : JsString)
  | entry (key : JsString) (value : Toml)

/-- `[A-Za-z0-9_-]` -/
def isBare (u : UInt16) : Bool :=
  (0x30 ≤ u && u ≤ 0x39) || (0x61 ≤ u && u ≤ 0x7a) || (0x41 ≤ u && u ≤ 0x5a) || u == 0x5f || u == 0x2d

/-- A key, and what follows it. -/
def readKey (s : JsString) : Option (JsString × JsString) :=
  if s.head? = some quote then readBasic .plain s.tail
  else if s.takeWhile isBare = [] then none
  else some (s.takeWhile isBare, s.dropWhile isBare)

/-- The end of a line, with a comment or without: the line feed and what follows it, or nothing. -/
def lineEnd (s : JsString) : Option JsString :=
  let rest := if (skipBlank s).head? = some 0x23 then (skipBlank s).dropWhile isTomlUnit else skipBlank s
  match rest with
  | [] => some []
  | u :: t => if u = LF then some (u :: t) else if u = CR ∧ t.head? = some LF then some t else none

def readHeader (s : JsString) : Option (Line × JsString) :=
  (readKey (skipBlank (s.drop 2))).bind fun p =>
    if js "]]" <+: skipBlank p.2 then (lineEnd ((skipBlank p.2).drop 2)).map fun rest => (.header p.1, rest) else none

def readEntry (s : JsString) : Option (Line × JsString) :=
  (readKey s).bind fun p =>
    match skipBlank p.2 with
    | [] => none
    | u :: rest =>
      if u = 0x3d then (readValue rest.length (skipBlank rest)).bind fun q => (lineEnd q.2).map
        fun rest => (.entry p.1 q.1, rest)
      else none

/-- A line that says something, or none; and the line feed after it with what follows, or nothing. -/
def readLine (s : JsString) : Option (Option Line × JsString) :=
  match lineEnd s with
  | some rest => some (none, rest)
  | none => (if js "[[" <+: skipBlank s then readHeader (skipBlank s) else readEntry
    (skipBlank s)).map fun p => (some p.1, p.2)

/-- At most so many lines. -/
def readLines : Nat → JsString → Option (List Line)
  | 0, _ => none
  | n + 1, s => (readLine s).bind fun p =>
    match p.2 with
    | [] => some p.1.toList
    | _ :: rest => (readLines n rest).map fun lines => p.1.toList ++ lines

/-! ## Documents -/

/-- A table of an array of tables. -/
structure Table where
  name : JsString
  entries : List (JsString × Toml)

/-- The tables so far, and one line more. -/
def addLine (tables : List Table) : Line → Option (List Table)
  | .header name => some (tables ++ [⟨name, []⟩])
  | .entry key value =>
    match tables.getLast? with
    | none => none
    | some table =>
      if key ∈ table.entries.map Prod.fst then none
      else some (tables.dropLast ++ [{ table with entries := table.entries ++ [(key, value)] }])

/-- The tables of a document; `none` where it is not valid. -/
def readToml (document : JsString) : Option (List Table) :=
  if WellFormed document then (readLines (document.length + 1) document).bind (scan addLine []) else none

end Tables
end MaterialOpenWebui
