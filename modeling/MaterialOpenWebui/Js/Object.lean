import MaterialOpenWebui.Js.Value

/-!
# `Js.Object` — what the language adds to data

Objects find more names than their own: those of the prototypes. And values of all kinds can be compared. Both matter where
a program looks up or compares data that it has not checked.
-/

namespace Js

/-! ## Prototypes -/

/-- The names of `Object.prototype`. -/
def objectPrototype : List JsString :=
  ["constructor", "__defineGetter__", "__defineSetter__", "hasOwnProperty", "__lookupGetter__", "__lookupSetter__",
    "isPrototypeOf", "propertyIsEnumerable", "toString", "valueOf", "__proto__", "toLocaleString"].map js

/-- The names that an array has besides: those of `Array.prototype`, and its length. -/
def arrayPrototype : List JsString :=
  ["length", "at", "concat", "copyWithin", "fill", "find", "findIndex", "findLast", "findLastIndex", "lastIndexOf", "pop",
    "push", "reverse", "shift", "unshift", "slice", "sort", "splice", "includes", "indexOf", "join", "keys", "entries",
    "values", "forEach", "filter", "flat", "flatMap", "map", "every", "some", "reduce", "reduceRight", "toReversed",
    "toSorted", "toSpliced", "with"].map js

/-- What a plain object finds under a name that it does not have itself, as far as `String(v)` and truth go: a function is its
text, and the prototype that of an object. -/
def ofPrototype (name : JsString) : JsValue :=
  if name = js "__proto__" then .str (js "[object Object]")
  else if name = js "constructor" then .str (js "function Object() \x7b [native code] \x7d")
  else if name ∈ objectPrototype then .str (js "function " ++ name ++ js "() \x7b [native code] \x7d")
  else .undefined

/-! ## Comparison -/

def JsNumber.lt : JsNumber → JsNumber → Bool
  | .nan, _ => false
  | _, .nan => false
  | .infinity neg, .infinity neg' => neg && !neg'
  | .infinity neg, .finite _ => neg
  | .finite _, .infinity neg => !neg
  | .finite d, .finite d' => decide (d.toRat < d'.toRat)

namespace JsValue

/-- The conversion before a comparison; `none` where it throws. -/
def toPrimitive : JsValue → Option JsValue
  | .arr vs => (toStr (.arr vs)).map .str
  | .obj ps => (toStr (.obj ps)).map .str
  | v => some v

/-- `a > b` for primitive values: two texts by their units, else as numbers. -/
def primitiveGreater (number : JsString → JsNumber) : JsValue → JsValue → Option Bool
  | .str s, .str t => some (decide (t < s))
  | a, b => (a.toNumber number).bind fun m => (b.toNumber number).map fun n => n.lt m

/-- `a > b`; `none` where a conversion throws. -/
def greater (number : JsString → JsNumber) (a b : JsValue) : Option Bool :=
  a.toPrimitive.bind fun a => b.toPrimitive.bind fun b => primitiveGreater number a b

/-- `a ?? b`. -/
def orElse (a b : JsValue) : JsValue := if a.isNullish then b else a

/-- What a conversion gives is a number without another one. -/
theorem toNumber_of_toPrimitive (number : JsString → JsNumber) {v w : JsValue} (h : v.toPrimitive = some w) :
    ∃ n, w.toNumber number = some n := by
  cases v with
  | arr vs =>
    obtain ⟨s, -, rfl⟩ := Option.map_eq_some_iff.mp h
    exact ⟨_, rfl⟩
  | obj ps =>
    obtain ⟨s, -, rfl⟩ := Option.map_eq_some_iff.mp h
    exact ⟨_, rfl⟩
  | _ =>
    cases h
    exact ⟨_, rfl⟩

/-- A comparison throws only where a conversion does. -/
theorem greater_isSome (number : JsString → JsNumber) {a b : JsValue} :
    (greater number a b).isSome = true ↔ a.toPrimitive.isSome = true ∧ b.toPrimitive.isSome = true := by
  rw [greater]
  cases ha : a.toPrimitive with
  | none => simp
  | some v =>
    cases hb : b.toPrimitive with
    | none => simp
    | some w =>
      obtain ⟨m, hm⟩ := toNumber_of_toPrimitive number ha
      obtain ⟨n, hn⟩ := toNumber_of_toPrimitive number hb
      have hsome : (primitiveGreater number v w).isSome = true := by
        rw [primitiveGreater.eq_def]
        split
        · rfl
        · rw [hm, Option.bind_some, hn]
          rfl
      simp [hsome]

end JsValue

end Js
