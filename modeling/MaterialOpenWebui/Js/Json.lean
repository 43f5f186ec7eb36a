import MaterialOpenWebui.Js.Value

/-!
# `Js.Json` — `JSON.stringify` and `JSON.parse` on data values

The two functions as the language defines them for plain data (no `toJSON`, no replacer, no indentation).
`stringify` is well-formed in the ES2019 sense: a surrogate pair is written as its character and a lone
surrogate as an escape, so its result is a sequence of Unicode scalar values and not just of code units.
-/

namespace Js

open JsValue

/-! ## Writing -/

/-- Four lowercase hexadecimal digits. -/
def hex4 (n : Nat) : List Char :=
  [(n / 4096 % 16).digitChar, (n / 256 % 16).digitChar, (n / 16 % 16).digitChar, (n % 16).digitChar]

/-- One code unit of a quoted string, surrogate pairs aside. -/
def escapeUnit (u : UInt16) : List Char :=
  if u = 0x22 then ['\x5c', '\x22']
  else if u = 0x5c then ['\x5c', '\x5c']
  else if u = 0x08 then ['\x5c', 'b']
  else if u = 0x09 then ['\x5c', 't']
  else if u = 0x0a then ['\x5c', 'n']
  else if u = 0x0c then ['\x5c', 'f']
  else if u = 0x0d then ['\x5c', 'r']
  else if u.toNat < 0x20 || isHigh u || isLow u then '\x5c' :: 'u' :: hex4 u.toNat
  else [Char.ofNat u.toNat]

/-- `QuoteJSONString` without the quotes. -/
def quoteBody : JsString → List Char
  | [] => []
  | [u] => escapeUnit u
  | u :: w :: s =>
    if isHigh u && isLow w then pairChar u w :: quoteBody s
    else escapeUnit u ++ quoteBody (w :: s)

def quote (s : JsString) : List Char := '\x22' :: (quoteBody s ++ ['\x22'])

/-- Texts separated by commas. -/
def commas : List (List Char) → List Char
  | [] => []
  | [t] => t
  | t :: t' :: ts => t ++ ',' :: commas (t' :: ts)

def nullText : List Char := ['n', 'u', 'l', 'l']

def propText (k : JsString) (t : List Char) : List Char := quote k ++ ':' :: t

mutual

/-- `JSON.stringify(v)`; `none` where it returns `undefined`. -/
def stringify : JsValue → Option (List Char)
  | .undefined => none
  | .null => some nullText
  | .bool true => some ['t', 'r', 'u', 'e']
  | .bool false => some ['f', 'a', 'l', 's', 'e']
  | .num (.finite d) => some d.toText
  | .num _ => some nullText
  | .str s => some (quote s)
  | .arr vs => some ('[' :: (commas (stringifyElems vs) ++ [']']))
  | .obj ps => some ('{' :: (commas (stringifyProps ps) ++ ['}']))

def stringifyElems : List JsValue → List (List Char)
  | [] => []
  | v :: vs => (stringify v).getD nullText :: stringifyElems vs

def stringifyProps : List (JsString × JsValue) → List (List Char)
  | [] => []
  | (k, v) :: ps =>
    match stringify v with
    | none => stringifyProps ps
    | some t => propText k t :: stringifyProps ps

end

/-! ## Reading -/

def hexValue (c : Char) : Option Nat :=
  if '0' ≤ c ∧ c ≤ '9' then some (c.toNat - 48)
  else if 'a' ≤ c ∧ c ≤ 'f' then some (c.toNat - 87)
  else if 'A' ≤ c ∧ c ≤ 'F' then some (c.toNat - 55)
  else none

def hexUnit (a b c d : Char) : Option UInt16 :=
  match hexValue a, hexValue b, hexValue c, hexValue d with
  | some a, some b, some c, some d => some (UInt16.ofNat (a * 4096 + b * 256 + c * 16 + d))
  | _, _, _, _ => none

/-- The unit a one-character escape stands for. -/
def simpleEscape (c : Char) : Option UInt16 :=
  if c = '\x22' then some 0x22
  else if c = '\x5c' then some 0x5c
  else if c = '/' then some 0x2f
  else if c = 'b' then some 0x08
  else if c = 't' then some 0x09
  else if c = 'n' then some 0x0a
  else if c = 'f' then some 0x0c
  else if c = 'r' then some 0x0d
  else none

/-- The rest of a string literal, its opening quote already taken. -/
def parseStringBody : List Char → Option (JsString × List Char)
  | [] => none
  | c :: cs =>
    if c = '\x22' then some ([], cs)
    else if c = '\x5c' then
      match cs with
      | 'u' :: a :: b :: c :: d :: cs =>
        match hexUnit a b c d with
        | some u => (parseStringBody cs).map (fun p => (u :: p.1, p.2))
        | none => none
      | e :: cs =>
        match simpleEscape e with
        | some u => (parseStringBody cs).map (fun p => (u :: p.1, p.2))
        | none => none
      | [] => none
    else if c.toNat < 0x20 then none
    else (parseStringBody cs).map (fun p => (units c ++ p.1, p.2))

def isWs (c : Char) : Bool := c == ' ' || c == '\t' || c == '\n' || c == '\r'

def skipWs (cs : List Char) : List Char := cs.dropWhile isWs

mutual

def parseValue : Nat → List Char → Option (JsValue × List Char)
  | 0, _ => none
  | n + 1, cs =>
    match skipWs cs with
    | 'n' :: 'u' :: 'l' :: 'l' :: r => some (.null, r)
    | 't' :: 'r' :: 'u' :: 'e' :: r => some (.bool true, r)
    | 'f' :: 'a' :: 'l' :: 's' :: 'e' :: r => some (.bool false, r)
    | '\x22' :: r => (parseStringBody r).map (fun p => (.str p.1, p.2))
    | '[' :: r =>
      match skipWs r with
      | ']' :: r => some (.arr [], r)
      | r => (parseElems n r).map (fun p => (.arr p.1, p.2))
    | '{' :: r =>
      match skipWs r with
      | '}' :: r => some (.obj [], r)
      | r => (parseProps n r).map (fun p => (.obj (fromEntries p.1), p.2))
    | r => (parseNumeral r).map (fun p => (.num (.finite p.1), p.2))

/-- One element or more, and the closing bracket. -/
def parseElems : Nat → List Char → Option (List JsValue × List Char)
  | 0, _ => none
  | n + 1, cs =>
    match parseValue n cs with
    | none => none
    | some (v, r) =>
      match skipWs r with
      | ',' :: r => (parseElems n r).map (fun p => (v :: p.1, p.2))
      | ']' :: r => some ([v], r)
      | _ => none

/-- One property or more, and the closing brace. -/
def parseProps : Nat → List Char → Option (List (JsString × JsValue) × List Char)
  | 0, _ => none
  | n + 1, cs =>
    match skipWs cs with
    | '\x22' :: r =>
      match parseStringBody r with
      | none => none
      | some (k, r) =>
        match skipWs r with
        | ':' :: r =>
          match parseValue n r with
          | none => none
          | some (v, r) =>
            match skipWs r with
            | ',' :: r => (parseProps n r).map (fun p => ((k, v) :: p.1, p.2))
            | '}' :: r => some ([(k, v)], r)
            | _ => none
        | _ => none
    | _ => none

end

/-- `JSON.parse(text)`; `none` where it throws. -/
def parse (cs : List Char) : Option JsValue :=
  match parseValue (cs.length + 1) cs with
  | some (v, r) => if skipWs r = [] then some v else none
  | none => none

/-! ## What survives a round trip -/

mutual

/-- `JSON.parse(JSON.stringify(v))` of a value that is written at all: no `undefined` property, `null` for
    an `undefined` element and for a number JSON has no numeral for, one zero. -/
def jsonCopy : JsValue → JsValue
  | .num (.finite d) => .num (.finite d.unsignZero)
  | .num _ => .null
  | .undefined => .null
  | .null => .null
  | .bool b => .bool b
  | .str s => .str s
  | .arr vs => .arr (copyElems vs)
  | .obj ps => .obj (fromEntries (copyProps ps))

def copyElems : List JsValue → List JsValue
  | [] => []
  | v :: vs => jsonCopy v :: copyElems vs

def copyProps : List (JsString × JsValue) → List (JsString × JsValue)
  | [] => []
  | (_, .undefined) :: ps => copyProps ps
  | (k, v) :: ps => (k, jsonCopy v) :: copyProps ps

end

end Js
