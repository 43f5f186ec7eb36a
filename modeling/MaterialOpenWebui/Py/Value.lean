import MaterialOpenWebui.Lib.Dict
import MaterialOpenWebui.Py.Text
import Mathlib.Data.Rat.Init

/-!
# `Py.Value` — the JSON values of a Python program

What `json.loads` returns: `None`, booleans, integers, floats, strings, lists and dictionaries. A float is
the rational number it stands for; the three that are no numbers do not occur in JSON. A dictionary inside a
value is the list of its items, of which the first of a key counts; the dictionaries a program works on are
`Obj`.
-/

namespace Py

inductive Val where
  | none
  | bool (b : Bool)
  | int (n : Int)
  | float (x : Rat)
  | str (s : Str)
  | list (vs : List Val)
  | dict (items : List (Str × Val))

/-- A dictionary with strings as keys. -/
abbrev Obj := Dict Str Val

namespace Val

/-- Induction over values: the hypothesis of a list or dictionary covers every element or item. -/
@[induction_eliminator]
theorem induct {P : Val → Prop} (none : P .none) (bool : ∀ b, P (.bool b)) (int : ∀ n, P (.int n))
    (float : ∀ x, P (.float x)) (str : ∀ s, P (.str s)) (list : ∀ vs, (∀ v ∈ vs, P v) → P (.list vs))
    (dict : ∀ items, (∀ p ∈ items, P p.2) → P (.dict items)) (v : Val) : P v :=
  @Val.rec P (fun vs => ∀ v ∈ vs, P v) (fun items => ∀ p ∈ items, P p.2) (fun p => P p.2)
    none bool int float str list dict
    (by simp) (fun _ _ hv hvs v hmem => (List.mem_cons.mp hmem).elim (fun h => h ▸ hv) (hvs v))
    (by simp) (fun _ _ hp hps p hmem => (List.mem_cons.mp hmem).elim (fun h => h ▸ hp) (hps p))
    (fun _ _ hv => hv) v

/-! ## Reading -/

/-- `bool(v)`. -/
def truthy : Val → Bool
  | .none => false
  | .bool b => b
  | .int n => n ≠ 0
  | .float x => x ≠ 0
  | .str s => s ≠ []
  | .list vs => !vs.isEmpty
  | .dict items => !items.isEmpty

/-- `a or b`. -/
def or (a b : Val) : Val := if a.truthy then a else b

def isNone : Val → Bool
  | .none => true
  | _ => false

def isDict : Val → Bool
  | .dict _ => true
  | _ => false

def isList : Val → Bool
  | .list _ => true
  | _ => false

def text? : Val → Option Str
  | .str s => some s
  | _ => Option.none

/-- The items of a dictionary. -/
def items : Val → List (Str × Val)
  | .dict items => items
  | _ => []

def obj? : Val → Option Obj
  | .dict items => some (Dict.firsts items)
  | _ => Option.none

/-- `v.get(k)` of a dictionary. -/
def get (v : Val) (k : Str) : Val := (Dict.lookup v.items k).getD .none

/-- The number that `==` compares: a boolean is an integer. -/
def number? : Val → Option Rat
  | .bool b => some (if b then 1 else 0)
  | .int n => some n
  | .float x => some x
  | _ => Option.none

mutual
/-- `a == b`. -/
def eq : Val → Val → Bool
  | .none, b => b.isNone
  | .bool x, b => b.number? == some (if x then 1 else 0)
  | .int n, b => b.number? == some (n : Rat)
  | .float x, b => b.number? == some x
  | .str s, b => b.text? == some s
  | .list vs, .list ws => eqList vs ws
  | .list _, _ => false
  | .dict items, .dict items' =>
    (Dict.firsts items).size == (Dict.firsts items').size && eqItems [] items items'
  | .dict _, _ => false

def eqList : List Val → List Val → Bool
  | [], ws => ws.isEmpty
  | _ :: _, [] => false
  | v :: vs, w :: ws => eq v w && eqList vs ws

/-- Every item of the first, but for the keys that were seen, is in the second. -/
def eqItems : List Str → List (Str × Val) → List (Str × Val) → Bool
  | _, [], _ => true
  | seen, (k, v) :: items, items' =>
    if k ∈ seen then eqItems seen items items'
    else (match Dict.lookup items' k with
      | some w => eq v w
      | Option.none => false) && eqItems (k :: seen) items items'
end

theorem eqItems_refl {items' : List (Str × Val)} (items : List (Str × Val)) (heq : ∀ p ∈ items, eq p.2 p.2 = true) :
    ∀ seen : List Str, (∀ k ∉ seen, Dict.lookup items k = Dict.lookup items' k) →
      eqItems seen items items' = true := by
  induction items with
  | nil =>
    intro seen _
    rw [eqItems]
  | cons p items ih =>
    intro seen hlookup
    obtain ⟨k, v⟩ := p
    have hrest := ih fun q hq => heq q (List.mem_cons_of_mem _ hq)
    rw [eqItems]
    by_cases hk : k ∈ seen
    · rw [if_pos hk]
      apply hrest
      intro j hj
      rw [← hlookup j hj, Dict.lookup_cons, if_neg]
      rintro rfl
      exact hj hk
    · have hv : Dict.lookup items' k = some v := by
        rw [← hlookup k hk, Dict.lookup_cons, if_pos rfl]
      have hself : v.eq v = true := heq (k, v) List.mem_cons_self
      simp only [if_neg hk, hv, hself, Bool.true_and]
      apply hrest
      intro j hj
      rw [List.mem_cons, not_or] at hj
      rw [← hlookup j hj.2, Dict.lookup_cons, if_neg hj.1]

theorem eq_refl (v : Val) : eq v v = true := by
  induction v with
  | none => rw [eq]; rfl
  | bool b => rw [eq]; exact beq_self_eq_true _
  | int n => rw [eq]; exact beq_self_eq_true _
  | float x => rw [eq]; exact beq_self_eq_true _
  | str s => rw [eq]; exact beq_self_eq_true _
  | list vs ih =>
    rw [eq]
    induction vs with
    | nil => rw [eqList]; rfl
    | cons v vs ihvs =>
      rw [eqList, ih v List.mem_cons_self, Bool.true_and]
      exact ihvs fun w hw => ih w (List.mem_cons_of_mem _ hw)
  | dict items ih =>
    rw [eq, beq_self_eq_true, Bool.true_and]
    exact eqItems_refl items ih [] fun _ _ => rfl

end Val

end Py
