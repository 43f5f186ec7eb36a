import MaterialOpenWebui.Prompts.Template
import MaterialOpenWebui.Py.JsonRoundTrip

/-!
# `Prompts.Variables` — variables of chats and users (`backend/open_webui/utils/chat_variables.py`)

A prompt names a variable in double braces, and may say behind a bar what its values are: a type, and properties such as a
default, a greatest length or a list of options. The values that come with a chat are checked against this. If one of them does
not pass, or the prompt contradicts itself, then no variable has a value.

The texts that `str` gives for values that are no strings are given.
-/

namespace MaterialOpenWebui
namespace Prompts
open Py Rewrite

/-! ## Variables in a text -/

/-- A variable in a text, with what is said of it. -/
structure Variable where
  key : Str
  definition : Option Str

def stripPrefix (front s : Str) : Option Str := if front <+: s then some (s.drop front.length) else none

/-- A character of a name: `[^\s|}]`. -/
def inName (c : CodePoint) : Bool := !c.isSpace && c.val != 124 && c.val != 125

/-- `{{\s*stem([^\s|}]+)(?:\s*\|\s*([^}]*))?\s*}}` at the beginning of a text: the variable, and what follows. The name is as long
as it can be, and what is said of it ends at the first brace. -/
def variableAt (stem s : Str) : Option (Variable × Str) :=
  (stripPrefix (py "\x7b\x7b") s).bind fun s =>
    (stripPrefix stem (s.dropWhile CodePoint.isSpace)).bind fun s =>
      let key := s.takeWhile inName
      let s := (s.dropWhile inName).dropWhile CodePoint.isSpace
      if key = [] then none
      else
        match stripPrefix (py "|") s with
        | none => (stripPrefix (py "\x7d\x7d") s).map (⟨key, none⟩, ·)
        | some s =>
          let s := s.dropWhile CodePoint.isSpace
          let definition := s.takeWhile fun c => c.val != 125
          (stripPrefix (py "\x7d\x7d") (s.drop definition.length)).map (⟨key, some definition⟩, ·)

/-- How much of a text is before what follows, less one. -/
def before (s rest : Str) : Nat := s.length - rest.length - 1

/-- `finditer`, behind the first `n` characters. -/
def variablesIn (stem : Str) : Nat → Str → List Variable
  | _, [] => []
  | n + 1, _ :: s => variablesIn stem n s
  | 0, c :: s =>
    match variableAt stem (c :: s) with
    | some found => found.1 :: variablesIn stem (before (c :: s) found.2) s
    | none => variablesIn stem 0 s

/-- A variable gives way to the value of its name. -/
def variableMatcher (stem : Str) (value : Str → Str) : Matcher CodePoint := fun s =>
  (variableAt stem s).map fun found => (before s found.2, value found.1.key)

theorem lawful_variableMatcher (stem : Str) (value : Str → Str) : Lawful (variableMatcher stem value) := by
  intro s found h
  obtain ⟨found', hat, rfl⟩ := Option.map_eq_some_iff.mp h
  have hpos : 0 < s.length := by
    cases s with
    | nil => cases hat
    | cons c s => exact Nat.succ_pos _
  show s.length - found'.2.length - 1 < s.length
  omega

/-! ## What is said of a variable -/

/-- How far `split_properties` has come. -/
structure Splitting where
  result : List Str
  current : Str
  depth : Int
  in_string : Bool
  escape_next : Bool

def Splitting.start : Splitting := ⟨[], [], 0, false, false⟩

def Splitting.step (delimiter : CodePoint) (s : Splitting) (char : CodePoint) : Splitting :=
  let current := s.current ++ [char]
  if s.escape_next then { s with current, escape_next := false }
  else if char = ofChar '\\' then { s with current, escape_next := true }
  else if char = ofChar '"' then { s with current, in_string := !s.in_string }
  else if s.in_string then { s with current }
  else
    let depth :=
      if char ∈ py "\x7b[" then s.depth + 1 else if char ∈ py "\x7d]" then s.depth - 1 else s.depth
    if char = delimiter ∧ depth = 0 then { s with result := s.result ++ [strip s.current], current := [], depth }
    else { s with current, depth }

def split_properties (value : Str) (delimiter : CodePoint) : List Str :=
  let s := value.foldl (Splitting.step delimiter) .start
  if strip s.current = [] then s.result else s.result ++ [strip s.current]

def quote : Str := py "\""

def parse_json_value (fl : Floats) (value : Str) : Val :=
  if quote <+: value ∧ quote <:+ value then .str (value.drop 1).dropLast
  else if py "[" <+: value ∨ py "\x7b" <+: value then (loads fl value).getD (.str value)
  else .str value

/-- A part of a definition behind the type. -/
def addProperty (fl : Floats) (properties : Obj) (part : Str) : Obj :=
  let trimmed := strip part
  if trimmed = [] then properties
  else
    match split_properties trimmed (ofChar '=') with
    | [] => properties
    | [name] => properties.set (strip name) (.bool true)
    | name :: values => properties.set (strip name) (parse_json_value fl (strip ((py "=").intercalate values)))

def parse_variable_definition (fl : Floats) (definition : Str) : Obj :=
  match split_properties definition (ofChar ':') with
  | [] => Dict.empty.set (py "type") (.str (py "text"))
  | first_part :: property_parts =>
    let field_type := strip ((stripPrefix (py "type=") first_part).getD first_part)
    let field_type := if field_type = [] then py "text" else field_type
    (Dict.empty.set (py "type") (.str field_type)).update (property_parts.foldl (addProperty fl) Dict.empty)

def allowed_keys : List Str :=
  ["default", "label", "max", "maxlength", "min", "minlength", "options", "placeholder", "required", "step", "type"].map py

/-- `d.get(k)` of a field. -/
def fieldGet (field : Obj) (k : String) : Val := (field.get? (py k)).getD .none

def isSelect (field : Obj) : Bool := (fieldGet field "type").eq (.str (py "select"))

def _safe_field (key : Str) (definition : Obj) : Obj :=
  let field := (Dict.empty.set (py "key") (.str key)).setEach definition.get? allowed_keys
  let field := if py "type" ∈ field then field else field.set (py "type") (.str (py "text"))
  let field := if isSelect field ∧ (fieldGet field "options").isList =
    false then field.set (py "options") (.list []) else field
  field.set (py "required") (.bool (fieldGet field "required").truthy)

/-- `^[a-z][a-z0-9_]*$` -/
def isKey : Str → Bool
  | [] => false
  | c :: s => lower c && s.all fun c => lower c || 48 ≤ c.val && c.val ≤ 57 || c.val = 95
where lower (c : CodePoint) : Bool := 97 ≤ c.val && c.val ≤ 122

def chatStem : Str := py "chat.variables."

def userStem : Str := py "user.variables."

/-- The fields so far: all, and those of which something is said. -/
abbrev Fields := Dict Str Obj × Dict Str Obj

def addField (fl : Floats) (fields : Fields) (found : Variable) : Except Str Fields :=
  if isKey found.key = false then .error (py "Invalid chat variable key: " ++ found.key)
  else
    let definition := strip (found.definition.getD [])
    if definition = [] then
      let plain := _safe_field found.key (Dict.empty.set (py "type") (.str (py "text")))
      .ok (if found.key ∈ fields.1 then fields.1 else fields.1.set found.key plain, fields.2)
    else
      let field := _safe_field found.key (parse_variable_definition fl definition)
      if isSelect field ∧ (fieldGet field "options").truthy = false then
        .error (py "Chat variable " ++ found.key ++ py " select needs options.")
      else if (fields.2.get? found.key).any fun previous => !(Val.dict previous.items).eq (.dict field.items) then
        .error (py "Chat variable " ++ found.key ++ py " has conflicting definitions.")
      else .ok (fields.1.set found.key field, fields.2.set found.key field)

def collect_chat_variable_fields (fl : Floats) (system_prompt : Str) : Except Str (Dict Str Obj) :=
  ((variablesIn chatStem 0 system_prompt).foldlM (addField fl) (Dict.empty, Dict.empty)).map Prod.fst

/-! ## Checking -/

def MAX_VARIABLE_VALUE_LENGTH : Nat := 20000

def MAX_VARIABLES_JSON_LENGTH : Nat := 100000

/-- `v in (None, '')` -/
def isBlank : Val → Bool
  | .none => true
  | .str s => s = []
  | _ => false

def options (field : Obj) : List Val :=
  match fieldGet field "options" with
  | .list vs => vs
  | _ => []

/-- `str(v)`, given that of what is no string. -/
def asText (str_ : Val → Str) : Val → Str
  | .str s => s
  | v => str_ v

/-- Line ends are those of Unix. -/
def normalized : Val → Val
  | .str s => .str (replace (py "\x0d\x0a") (py "\x0a") s)
  | v => v

/-- The given value, or else the default, or else none. -/
def chosen (given : Val) (field : Obj) : Val :=
  if isBlank given = false then given
  else if isBlank (fieldGet field "default") = false then fieldGet field "default"
  else .str []

section
variable (fl : Floats) (str_ : Val → Str)

def labelOf (key : Str) (field : Obj) : Str :=
  if (fieldGet field "label").truthy then asText str_ (fieldGet field "label") else key

/-- The value of a field, or what is wrong with it. -/
def fieldValue (required : Bool) (given : Val) (key : Str) (field : Obj) : Except Str Val :=
  let value := chosen given field
  if isBlank value ∧ required ∧ (fieldGet field "required").truthy then
    .error (py "Missing required chat variable: " ++ labelOf str_ key field)
  else if isSelect field ∧ isBlank value = false ∧ (options field).any value.eq = false then
    .error (py "Invalid value for chat variable: " ++ labelOf str_ key field)
  else if MAX_VARIABLE_VALUE_LENGTH < ((normalized value).text?.getD []).length then
    .error (py "Chat variable is too long: " ++ labelOf str_ key field)
  else .ok (normalized value)

/-- `variables.get(k)` -/
def given (items : List (Str × Val)) (k : Str) : Val := (Dict.lookup items k).getD .none

def fieldValues (required : Bool) (items : List (Str × Val)) : List (Str × Obj) → Except Str (List (Str × Val))
  | [] => .ok []
  | item :: fields =>
    (fieldValue str_ required (given items item.1) item.1 item.2).bind fun value =>
      (fieldValues required items fields).map ((item.1, value) :: ·)

def validate_chat_variables (system_prompt : Str) (variables' : Val) (required : Bool) : Except Str (List (Str × Val)) :=
  (collect_chat_variable_fields fl system_prompt).bind fun field_map =>
    if MAX_VARIABLES_JSON_LENGTH < (dumps fl (.dict variables'.items)).length then .error (py "Chat variables are too large.")
    else fieldValues str_ required variables'.items field_map.items

end

/-- What is known of a value that was checked: its length, and that it is one of the options. -/
structure Fits (field : Obj) (value : Val) : Prop where
  length : ∀ s, value = .str s → s.length ≤ MAX_VARIABLE_VALUE_LENGTH
  option : isSelect field = true → value = .str [] ∨ ∃ v, (options field).any v.eq = true ∧ value = normalized v

section
variable {fl : Floats} {str_ : Val → Str}

end

/-- The text of a chat variable: empty for one that has no value. -/
def chatValue (fl : Floats) (str_ : Val → Str) (system_prompt : Str) (variables' : Val) (required : Bool) (key : Str) : Str :=
  match validate_chat_variables fl str_ system_prompt variables' required with
  | .error _ => []
  | .ok values =>
    match Dict.lookup values key with
    | none | some .none => []
    | some value => asText str_ value

def render_chat_variables (fl : Floats) (str_ : Val → Str) (system_prompt : Str) (variables' : Val) (required : Bool) : Str :=
  rewrite (variableMatcher chatStem (chatValue fl str_ system_prompt variables' required)) 0 system_prompt

/-- The text of a user variable: those that are no strings do not count. -/
def userValue (variables' : Val) (key : Str) : Str := if isKey key then ((given variables'.items key).text?).getD [] else []

def render_user_variables (system_prompt : Str) (variables' : Val) : Str :=
  rewrite (variableMatcher userStem (userValue variables')) 0 system_prompt

end Prompts
end MaterialOpenWebui
