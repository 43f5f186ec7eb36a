import MaterialOpenWebui.Js.Decoder
import MaterialOpenWebui.Lib.Scan
import MaterialOpenWebui.Tables.Delimited

/-!
# `Tables.XmlReader` — documents of XML 1.0

A reader of the part of the language that has elements, attributes, text and the predefined references; names are in ASCII. What
is no such document has no tree. As the recommendation has it, line ends become line feeds before anything is read, and white
space in the value of an attribute becomes spaces.
-/

namespace MaterialOpenWebui
namespace Tables
open Js Scan

/-! ## Characters -/

/-- `Char`, a surrogate for its pair. -/
def isXmlUnit (u : UInt16) : Bool := u == 0x09 || u == LF || u == CR || (0x20 ≤ u && u < 0xfffe)

/-- Every character is one that a document may have. -/
def Allowed (s : JsString) : Prop := WellFormed s ∧ ∀ u ∈ s, isXmlUnit u = true

instance (s : JsString) : Decidable (Allowed s) := inferInstanceAs (Decidable (_ ∧ _))

def isXmlSpace (u : UInt16) : Bool := u == 0x20 || u == 0x09 || u == LF || u == CR

def isXmlNameStart (u : UInt16) : Bool := (0x41 ≤ u && u ≤ 0x5a) || (0x61 ≤ u && u ≤ 0x7a) || u == 0x5f || u == 0x3a

def isXmlName (u : UInt16) : Bool := isXmlNameStart u || (0x30 ≤ u && u ≤ 0x39) || u == 0x2d || u == 0x2e

/-- The normalisation of line ends. -/
def lineEnds : JsString → JsString
  | [] => []
  | u :: s => if u = CR then (if s.head? = some LF then lineEnds s else LF :: lineEnds s) else u :: lineEnds s

def predefined : List (JsString × UInt16) :=
    [(js "amp", 0x26), (js "lt", 0x3c), (js "gt", 0x3e), (js "quot", 0x22), (js "apos", 0x27)]

/-! ## The scanner -/

inductive Node where
  | text (s : JsString)
  | element (name : JsString) (attributes : List (JsString × JsString)) (children : List Node)

/-- An element whose end has not been read. -/
structure Open where
  name : JsString
  attributes : List (JsString × JsString)
  children : List Node

/-- Where in the markup the scanner is. -/
inductive Place where
  | content (text : JsString)
  | reference (text name : JsString)
  | opened
  | startName (name : JsString)
  | inTag (tag : Open)
  | attribute (tag : Open) (name : JsString)
  | afterName (tag : Open) (name : JsString)
  | beforeValue (tag : Open) (name : JsString)
  | value (tag : Open) (name value : JsString) (mark : UInt16)
  | valueReference (tag : Open) (name value : JsString) (mark : UInt16) (ref : JsString)
  | afterValue (tag : Open)
  | emptyTag (tag : Open)
  | endName (name : JsString)
  | endSpace (name : JsString)

/-- The open elements, the innermost first, and the root once it is complete. -/
structure State where
  stack : List Open
  root : Option Node
  place : Place

def State.at (s : State) (place : Place) : State := { s with place }

def textNode (text : JsString) : List Node := if text = [] then [] else [.text text]

/-- The text up to a tag. -/
def State.flush (s : State) (text : JsString) : Option State :=
  match s.stack with
  | [] => if text.all isXmlSpace then some (s.at .opened) else none
  | top :: stack => some ⟨{ top with children := top.children ++ textNode text } :: stack, s.root, .opened⟩

/-- A start tag; there is one root. -/
def State.open (s : State) (tag : Open) : Option State :=
  if s.stack.isEmpty && s.root.isSome then none else some ⟨tag :: s.stack, s.root, .content []⟩

/-- An end tag, of the innermost element. -/
def State.close (s : State) (name : JsString) : Option State :=
  match s.stack with
  | [] => none
  | top :: stack =>
    if top.name = name then
      match stack with
      | [] => some ⟨[], some (.element top.name top.attributes top.children), .content []⟩
      | up :: stack =>
        some ⟨{ up with children := up.children ++ [.element top.name top.attributes top.children] } ::
          stack, s.root, .content []⟩
    else none

/-- What follows a name or a value in a tag. -/
def State.afterPart (s : State) (tag : Open) (u : UInt16) : Option State :=
  if u = 0x3e then s.open tag
  else if u = 0x2f then some (s.at (.emptyTag tag))
  else if isXmlSpace u then some (s.at (.inTag tag))
  else none

/-- Attributes have different names. -/
def Open.with (tag : Open) (name value : JsString) : Option Open :=
  if name ∈ tag.attributes.map Prod.fst then none else some { tag with attributes := tag.attributes ++ [(name, value)] }

/-- One character. -/
def State.step (s : State) (u : UInt16) : Option State :=
  match s.place with
  | .content text =>
    if u = 0x3c then s.flush text
    else if u = 0x26 then some (s.at (.reference text []))
    else if u = 0x3e ∧ js "]]" <:+ text then none
    else some (s.at (.content (text ++ [u])))
  | .reference text name =>
    if u = 0x3b then (predefined.lookup name).map fun c => s.at (.content (text ++ [c]))
    else some (s.at (.reference text (name ++ [u])))
  | .opened =>
    if u = 0x2f then some (s.at (.endName []))
    else if isXmlNameStart u then some (s.at (.startName [u]))
    else none
  | .startName name => if isXmlName u then some (s.at (.startName (name ++ [u]))) else s.afterPart ⟨name, [], []⟩ u
  | .inTag tag => if isXmlNameStart u then some (s.at (.attribute tag [u])) else s.afterPart tag u
  | .attribute tag name =>
    if isXmlName u then some (s.at (.attribute tag (name ++ [u])))
    else if u = 0x3d then some (s.at (.beforeValue tag name))
    else if isXmlSpace u then some (s.at (.afterName tag name))
    else none
  | .afterName tag name =>
    if u = 0x3d then some (s.at (.beforeValue tag name)) else if isXmlSpace u then some (s.at (.afterName tag name)) else none
  | .beforeValue tag name =>
    if u = 0x22 ∨ u = 0x27 then some (s.at (.value tag name [] u))
    else if isXmlSpace u then some (s.at (.beforeValue tag name))
    else none
  | .value tag name value mark =>
    if u = mark then (tag.with name value).map fun tag => s.at (.afterValue tag)
    else if u = 0x3c then none
    else if u = 0x26 then some (s.at (.valueReference tag name value mark []))
    else some (s.at (.value tag name (value ++ [if isXmlSpace u then 0x20 else u]) mark))
  | .valueReference tag name value mark ref =>
    if u = 0x3b then (predefined.lookup ref).map fun c => s.at (.value tag name (value ++ [c]) mark)
    else some (s.at (.valueReference tag name value mark (ref ++ [u])))
  | .afterValue tag => s.afterPart tag u
  | .emptyTag tag => if u = 0x3e then (s.open tag).bind fun s => s.close tag.name else none
  | .endName name =>
    if isXmlName u ∧ (name = [] → isXmlNameStart u = true) then some (s.at (.endName (name ++ [u])))
    else if u = 0x3e then s.close name
    else if isXmlSpace u then some (s.at (.endSpace name))
    else none
  | .endSpace name => if u = 0x3e then s.close name else if isXmlSpace u then some (s.at (.endSpace name)) else none

/-! ## Documents -/

def xmlDeclaration : JsString := js "<?xml version=\"1.0\" encoding=\"UTF-8\"?>"

/-- What follows the declaration, where there is one. -/
def dropDeclaration (document : JsString) : JsString :=
  if xmlDeclaration <+: document then document.drop xmlDeclaration.length else document

/-- The root, when all of the document has been read. -/
def State.finish (s : State) : Option Node :=
  match s.stack, s.place with
  | [], .content text => if text.all isXmlSpace then s.root else none
  | _, _ => none

/-- The tree of a document; `none` where it is not well-formed. -/
def readXml (document : JsString) : Option Node :=
  if Allowed document then (scan State.step ⟨[], none,
    .content []⟩ (lineEnds (dropDeclaration document))).bind State.finish else none

end Tables
end MaterialOpenWebui
