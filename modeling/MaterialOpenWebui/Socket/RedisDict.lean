import MaterialOpenWebui.Lib.Dict
import MaterialOpenWebui.Lib.Run
import MaterialOpenWebui.Py.JsonRoundTrip

/-!
# `Socket.RedisDict` — a dictionary kept in a Redis hash (`backend/open_webui/socket/utils.py`)

Several instances, one for each process, work on the hash of one name. `set` makes the hash equal to a mapping, and writes
nothing where the fingerprint of the mapping is the one of the last mapping that this instance set. Other writes, of this
instance and of others, leave the fingerprint as it is: the hash is then the mapping only if it was the mapping before
(`holds_call_iff`).

A key is text that UTF-8 can encode, which is what a `String` is.
-/

set_option linter.style.nameCheck false

namespace MaterialOpenWebui
open Py

/-- `utils/json_codec.py`: the library that writes and reads JSON. -/
structure JSONCodec where
  dumps : Val → Str
  loads : Str → Option Val

/-- The one of the standard library. -/
def stdlib_json (fl : Floats) : JSONCodec := ⟨dumps fl, loads fl⟩

namespace RedisDict

/-! ## The hash -/

/-- The hash of one name: the text under each field. -/
abbrev Hash := Dict String Str

/-- `HSET` of several fields. -/
def hset (hash : Hash) (mapping : Dict String Str) : Hash := hash.update mapping

/-- `HDEL` of several fields. -/
def hdel (hash : Hash) (keys : List String) : Hash := hash.filter fun k _ => decide (k ∉ keys)

inductive Error where
  | KeyError (key : String)
  | JSONDecodeError
  deriving DecidableEq

section Hash
variable (codec : JSONCodec) (hash : Hash)

def __getitem__ (key : String) : Except Error Val :=
  match hash.get? key with
  | none => .error (.KeyError key)
  | some value =>
    match codec.loads value with
    | some v => .ok v
    | none => .error .JSONDecodeError

def __setitem__ (key : String) (value : Val) : Hash := hash.set key (codec.dumps value)

/-- `HDEL` tells how many fields there were. -/
def __delitem__ (key : String) : Except Error Hash :=
  if key ∈ hash then .ok (hdel hash [key]) else .error (.KeyError key)

/-- The items of the other dictionary, and the keyword arguments. -/
def update (other kwargs : List (String × Val)) : Hash :=
  kwargs.foldl (fun hash p => __setitem__ codec hash p.1 p.2)
    (other.foldl (fun hash p => __setitem__ codec hash p.1 p.2) hash)

def setdefault (key : String) (default : Val) : Hash × Except Error Val :=
  if key ∈ hash then (hash, __getitem__ codec hash key)
  else
    let hash := __setitem__ codec hash key default
    (hash, __getitem__ codec hash key)

end Hash

/-! ## The instances -/

/-- The hash, and what each instance keeps. -/
structure State (ι : Type) where
  hash : Hash
  _last_signature : ι → Option Str

/-- What the fingerprint is taken of: the keys in order, each with its value, and each followed by a NUL. -/
def payload (serialized : Dict String Str) : Str :=
  (serialized.items.mergeSort fun p q => p.1 ≤ q.1).flatMap fun p => py p.1 ++ ofChar '\x00' :: (p.2 ++ [ofChar '\x00'])

section Instances
variable {ι : Type} [DecidableEq ι]

def serialize (codec : JSONCodec) (mapping : Dict String Val) : Dict String Str := mapping.map fun _ v => codec.dumps v

/-- The fields of the mapping are set, and then the others are removed. -/
def replace (hash : Hash) (serialized : Dict String Str) : Hash :=
  let keys_to_remove := hash.keys.filter fun k => decide (k ∉ serialized)
  hdel (hset hash serialized) keys_to_remove

def clear (s : State ι) (self : ι) : State ι := ⟨Dict.empty, Function.update s._last_signature self none⟩

variable (codec : JSONCodec) (sha256 : Str → Str)

def signature (mapping : Dict String Val) : Str := sha256 (payload (serialize codec mapping))

def set (s : State ι) (self : ι) (mapping : Dict String Val) : State ι :=
  if mapping.items = [] then clear s self
  else if s._last_signature self = some (signature codec sha256 mapping) then s
  else
    ⟨replace s.hash (serialize codec mapping),
      Function.update s._last_signature self (some (signature codec sha256 mapping))⟩

/-! ## Calls -/

inductive Call where
  | set (mapping : Dict String Val)
  | setitem (key : String) (value : Val)
  | delitem (key : String)
  | update (other kwargs : List (String × Val))
  | setdefault (key : String) (default : Val)
  | clear

/-- A call by an instance, and what it returns or raises. -/
def call (s : State ι) (self : ι) : Call → State ι × Except Error Val
  | .set mapping => (set codec sha256 s self mapping, .ok .none)
  | .setitem key value => ({ s with hash := __setitem__ codec s.hash key value }, .ok .none)
  | .delitem key =>
    match __delitem__ s.hash key with
    | .ok hash => ({ s with hash := hash }, .ok .none)
    | .error e => (s, .error e)
  | .update other kwargs => ({ s with hash := update codec s.hash other kwargs }, .ok .none)
  | .setdefault key default =>
    let (hash, value) := setdefault codec s.hash key default
    ({ s with hash := hash }, value)
  | .clear => (clear s self, .ok .none)

def step (s : State ι) (a : ι × Call) : State ι := (call codec sha256 s a.1 a.2).1

end Instances

/-- The same on a dictionary. -/
def plain (d : Dict String Val) : Call → Dict String Val × Except Error Val
  | .set mapping => (mapping, .ok .none)
  | .setitem key value => (d.set key value, .ok .none)
  | .delitem key => if key ∈ d then (d.erase key, .ok .none) else (d, .error (.KeyError key))
  | .update other kwargs => ((d.updateItems other).updateItems kwargs, .ok .none)
  | .setdefault key default =>
    match d.get? key with
    | some value => (d, .ok value)
    | none => (d.set key default, .ok default)
  | .clear => (Dict.empty, .ok .none)

/-! ## What the hash holds -/

section Holds
variable (codec : JSONCodec)

/-- The hash is the mapping, with every value written as JSON. -/
def Holds (hash : Hash) (d : Dict String Val) : Prop := ∀ k, hash.get? k = (d.get? k).map codec.dumps

variable {codec} {hash : Hash} {d : Dict String Val}

theorem holds_empty : Holds codec Dict.empty Dict.empty := fun _ => rfl

theorem mem_iff_of_holds (h : Holds codec hash d) {key : String} : key ∈ hash ↔ key ∈ d := by
  rw [Dict.mem_iff, Dict.mem_iff, h key]
  simp

/-- A hash holds one mapping: what it holds is told by the text of the values. -/
theorem holds_iff_of_holds (h : Holds codec hash d) {mapping : Dict String Val} :
    Holds codec hash mapping ↔ ∀ k, (d.get? k).map codec.dumps = (mapping.get? k).map codec.dumps :=
  forall_congr' fun k => by rw [h k]

theorem holds_setitem (h : Holds codec hash d) (key : String) (value : Val) :
    Holds codec (__setitem__ codec hash key value) (d.set key value) := by
  intro k
  rw [__setitem__, Dict.get?_set, Dict.get?_set]
  split
  · rfl
  · exact h k

theorem holds_setitems (h : Holds codec hash d) (items : List (String × Val)) :
    Holds codec (items.foldl (fun hash p => __setitem__ codec hash p.1 p.2) hash) (d.updateItems items) := by
  induction items generalizing hash d with
  | nil => exact h
  | cons p items ih => exact ih (holds_setitem h p.1 p.2)

theorem get?_hdel (hash : Hash) (keys : List String) (k : String) :
    (hdel hash keys).get? k = if k ∈ keys then none else hash.get? k := by
  rw [hdel, Dict.get?_filter]
  by_cases hk : k ∈ keys
  · rw [if_pos hk]
    exact Option.filter_eq_none_iff.mpr fun _ _ => by simp [hk]
  · rw [if_neg hk]
    cases hash.get? k with
    | none => rfl
    | some value => exact Option.filter_some_pos (by simp [hk])

theorem holds_delitem (h : Holds codec hash d) (key : String) : Holds codec (hdel hash [key]) (d.erase key) := by
  intro k
  rw [get?_hdel, Dict.get?_erase]
  simp only [List.mem_singleton]
  split
  · rfl
  · exact h k

/-- What is set is the whole hash: the fields that are not of the mapping are removed. -/
theorem get?_replace (hash : Hash) (serialized : Dict String Str) (k : String) :
    (replace hash serialized).get? k = serialized.get? k := by
  rw [replace, get?_hdel, hset, Dict.get?_update]
  by_cases hk : k ∈ serialized
  · obtain ⟨t, ht⟩ := Dict.mem_iff.mp hk
    rw [if_neg (by simp [hk]), ht, Option.some_or]
  · rw [Dict.get?_eq_none_iff.mpr hk, Option.none_or]
    split
    · rfl
    · rename_i hnot
      -- a field that is not removed was not there
      refine Dict.get?_eq_none_iff.mpr fun hmem => hnot ?_
      exact List.mem_filter.mpr ⟨Dict.mem_iff_mem_keys.mp hmem, decide_eq_true hk⟩

theorem holds_replace (hash : Hash) (mapping : Dict String Val) :
    Holds codec (replace hash (serialize codec mapping)) mapping := by
  intro k
  rw [get?_replace, serialize, Dict.get?_map]

theorem getitem_of_holds (h : Holds codec hash d) {key : String} {value : Val} (hget : d.get? key = some value)
    (hread : codec.loads (codec.dumps value) = some value) : __getitem__ codec hash key = .ok value := by
  rw [__getitem__, h key, hget, Option.map_some]
  simp only [hread]

end Holds

/-! ## One call -/

section Runs
variable {ι : Type} [DecidableEq ι] (codec : JSONCodec) (sha256 : Str → Str)

/-- The hash is the mapping where `set` finds the fingerprint that its instance set last. -/
def Current (s : State ι) : ι × Call → Prop
  | (self, .set mapping) => mapping.items ≠ [] → s._last_signature self = some (signature codec sha256 mapping) →
      Holds codec s.hash mapping
  | _ => True

variable {codec} {sha256} {s : State ι} {d : Dict String Val}

theorem holds_set_iff (self : ι) (mapping : Dict String Val) :
    Holds codec (set codec sha256 s self mapping).hash mapping ↔ Current codec sha256 s (self, .set mapping) := by
  rw [set, Current]
  split
  · rename_i hempty
    have heq : mapping = Dict.empty := by
      obtain ⟨items, hnodup⟩ := mapping
      cases hempty
      rfl
    exact iff_of_true (heq ▸ holds_empty) fun hne => absurd hempty hne
  · rename_i hne
    split
    · rename_i hcached
      exact ⟨fun h _ _ => h, fun h => h hne hcached⟩
    · rename_i hcached
      exact iff_of_true (holds_replace s.hash mapping) fun _ hcached' => absurd hcached' hcached

theorem signature_clear (self : ι) : (clear s self)._last_signature self = none := Function.update_self ..

theorem signature_set (self : ι) {mapping : Dict String Val} (hne : mapping.items ≠ []) :
    (set codec sha256 s self mapping)._last_signature self = some (signature codec sha256 mapping) := by
  rw [set, if_neg hne]
  split
  · assumption
  · exact Function.update_self ..

/-- No call changes what another instance keeps. -/
theorem signature_step_of_ne {i : ι} {a : ι × Call} (h : i ≠ a.1) :
    (step codec sha256 s a)._last_signature i = s._last_signature i := by
  obtain ⟨self, c⟩ := a
  have hclear : (clear s self)._last_signature i = s._last_signature i := Function.update_of_ne h ..
  cases c with
  | set mapping =>
    show (set codec sha256 s self mapping)._last_signature i = _
    rw [set]
    split
    · exact hclear
    · split
      · rfl
      · exact Function.update_of_ne h ..
  | delitem key =>
    rw [step, call]
    cases __delitem__ s.hash key <;> rfl
  | clear => exact hclear
  | _ => rfl

/-- **One call** keeps the hash equal to the dictionary exactly when `set` does not skip a write that is needed. -/
theorem holds_call_iff (h : Holds codec s.hash d) (a : ι × Call) :
    Holds codec (step codec sha256 s a).hash (plain d a.2).1 ↔ Current codec sha256 s a := by
  obtain ⟨self, c⟩ := a
  rw [step]
  cases c with
  | set mapping => exact holds_set_iff self mapping
  | setitem key value => exact iff_of_true (holds_setitem h key value) trivial
  | delitem key =>
    refine iff_of_true ?_ trivial
    rw [call, __delitem__, plain]
    by_cases hkey : key ∈ s.hash
    · rw [if_pos hkey, if_pos ((mem_iff_of_holds h).mp hkey)]
      exact holds_delitem h key
    · rw [if_neg hkey, if_neg fun hmem => hkey ((mem_iff_of_holds h).mpr hmem)]
      exact h
  | update other kwargs => exact iff_of_true (holds_setitems (holds_setitems h other) kwargs) trivial
  | setdefault key default =>
    refine iff_of_true ?_ trivial
    show Holds codec (setdefault codec s.hash key default).1 _
    rw [setdefault, plain]
    cases hget : d.get? key with
    | some value =>
      rw [if_pos ((mem_iff_of_holds h).mpr (Dict.mem_of_get? hget))]
      exact h
    | none =>
      rw [if_neg fun hmem => Dict.get?_eq_none_iff.mp hget ((mem_iff_of_holds h).mp hmem)]
      exact holds_setitem h key default
  | clear => exact iff_of_true holds_empty trivial

/-- What a call returns, or raises, is what the dictionary does, if the codec reads again the values that it wrote. -/
theorem call_reply (h : Holds codec s.hash d) (hread : ∀ k v, d.get? k = some v → codec.loads (codec.dumps v) = some v)
    (a : ι × Call) (hdefault : ∀ key v, a.2 = .setdefault key v → codec.loads (codec.dumps v) = some v) :
    (call codec sha256 s a.1 a.2).2 = (plain d a.2).2 := by
  obtain ⟨self, c⟩ := a
  cases c with
  | delitem key =>
    show (call codec sha256 s self (.delitem key)).2 = _
    rw [call, __delitem__, plain]
    by_cases hkey : key ∈ s.hash
    · rw [if_pos hkey, if_pos ((mem_iff_of_holds h).mp hkey)]
    · rw [if_neg hkey, if_neg fun hmem => hkey ((mem_iff_of_holds h).mpr hmem)]
  | setdefault key default =>
    show (setdefault codec s.hash key default).2 = _
    rw [setdefault, plain]
    cases hget : d.get? key with
    | some value =>
      rw [if_pos ((mem_iff_of_holds h).mpr (Dict.mem_of_get? hget))]
      exact getitem_of_holds h hget (hread key value hget)
    | none =>
      rw [if_neg fun hmem => Dict.get?_eq_none_iff.mp hget ((mem_iff_of_holds h).mp hmem)]
      have hset : Holds codec (__setitem__ codec s.hash key default) (d.set key default) := holds_setitem h key default
      exact getitem_of_holds hset (Dict.get?_set_self d key default) (hdefault key default rfl)
  | _ => rfl

/-! ## Runs -/

/-- **The hash is the dictionary** after every call of a run, if and only if no `set` skips a write that is needed. -/
theorem dict_agrees_iff (codec : JSONCodec) (sha256 : Str → Str) (s : State ι) (d : Dict String Val)
    (calls : List (ι × Call)) (h : Holds codec s.hash d) :
    (∀ n, Holds codec (Run.run (step codec sha256) s (calls.take n)).hash
        (Run.run (fun d a => (plain d a.2).1) d (calls.take n))) ↔
      Run.AllSteps (Current codec sha256) (step codec sha256) s calls :=
  Run.related_iff (R := fun (s : State ι) d => Holds codec s.hash d) (fun _ _ a h => holds_call_iff h a) h

/-- What the instance set last is what the hash holds. -/
def Remembered (codec : JSONCodec) (sha256 : Str → Str) (P : Dict String Val → Prop) (self : ι) (s : State ι) : Prop :=
  ∀ text, s._last_signature self = some text →
    ∃ mapping, P mapping ∧ text = signature codec sha256 mapping ∧ Holds codec s.hash mapping

/-- A call that sets the whole hash, to a mapping with `P`. -/
def SetsWhole (P : Dict String Val → Prop) (self : ι) (a : ι × Call) : Prop :=
  a.1 = self ∧ (a.2 = .clear ∨ ∃ mapping, a.2 = .set mapping ∧ P mapping)

theorem remembered_step {P : Dict String Val → Prop} {self : ι} {a : ι × Call} (hwhole : SetsWhole P self a)
    (h : Remembered codec sha256 P self s) : Remembered codec sha256 P self (step codec sha256 s a) := by
  have hclear : Remembered codec sha256 P self (clear s self) := by
    intro text htext
    rw [signature_clear] at htext
    cases htext
  obtain ⟨other, c⟩ := a
  obtain ⟨rfl, rfl | ⟨mapping, rfl, hp⟩⟩ := hwhole
  · exact hclear
  · show Remembered codec sha256 P other (set codec sha256 s other mapping)
    by_cases hempty : mapping.items = []
    · rw [set, if_pos hempty]
      exact hclear
    · by_cases hcached : s._last_signature other = some (signature codec sha256 mapping)
      · rw [set, if_neg hempty, if_pos hcached]
        exact h
      · intro text htext
        rw [signature_set other hempty, Option.some_inj] at htext
        exact ⟨mapping, hp, htext.symm, (holds_set_iff other mapping).mpr fun _ hskip => absurd hskip hcached⟩

/-- **A sole writer**, that only sets whole mappings, finds the hash equal to what it set, if the fingerprint tells its
mappings apart. -/
theorem sole_writer_current {P : Dict String Val → Prop} (self : ι)
    (hapart : ∀ m m', P m → P m' → signature codec sha256 m = signature codec sha256 m' →
      ∀ k, (m.get? k).map codec.dumps = (m'.get? k).map codec.dumps)
    (hstart : s._last_signature self = none) (calls : List (ι × Call)) (hcalls : ∀ a ∈ calls, SetsWhole P self a) :
    Run.AllSteps (Current codec sha256) (step codec sha256) s calls := by
  have hremembered : Remembered codec sha256 P self s := by
    intro text htext
    rw [hstart] at htext
    cases htext
  clear hstart
  induction calls generalizing s with
  | nil => trivial
  | cons a calls ih =>
    have hwhole := hcalls a List.mem_cons_self
    refine ⟨?_, ih (fun b hb => hcalls b (List.mem_cons_of_mem _ hb)) (remembered_step hwhole hremembered)⟩
    obtain ⟨other, c⟩ := a
    obtain ⟨rfl, rfl | ⟨mapping, rfl, hp⟩⟩ := hwhole
    · trivial
    · intro _ hcached
      obtain ⟨mapping', hp', htext, hholds⟩ := hremembered _ hcached
      exact (holds_iff_of_holds hholds).mpr (hapart mapping' mapping hp' hp htext.symm)

/-- So the hash is after every call what the writer set last. -/
theorem sole_writer_agrees {P : Dict String Val → Prop} (self : ι)
    (hapart : ∀ m m', P m → P m' → signature codec sha256 m = signature codec sha256 m' →
      ∀ k, (m.get? k).map codec.dumps = (m'.get? k).map codec.dumps)
    (hstart : s._last_signature self = none) (h : Holds codec s.hash d) (calls : List (ι × Call))
    (hcalls : ∀ a ∈ calls, SetsWhole P self a) (n : Nat) :
    Holds codec (Run.run (step codec sha256) s (calls.take n)).hash
      (Run.run (fun d a => (plain d a.2).1) d (calls.take n)) := by
  have hcurrent := sole_writer_current self hapart hstart calls hcalls
  exact (Run.related_iff (R :=
    fun (s : State ι) d => Holds codec s.hash d) (fun _ _ a h => holds_call_iff h a) h).mpr hcurrent n

/-! ## Replies -/

/-- The values that a call puts in are such values. -/
def Stores (V : Val → Prop) : Call → Prop
  | .set mapping => ∀ k v, mapping.get? k = some v → V v
  | .setitem _ value | .setdefault _ value => V value
  | .update other kwargs => ∀ p ∈ other ++ kwargs, V p.2
  | .delitem _ | .clear => True

theorem stored_set {V : Val → Prop} (h : ∀ k v, d.get? k = some v → V v) {key : String} {value : Val} (hvalue : V value) :
    ∀ k v, (d.set key value).get? k = some v → V v := by
  intro k v hget
  rw [Dict.get?_set] at hget
  split at hget
  · cases hget
    exact hvalue
  · exact h k v hget

theorem stored_updateItems {V : Val → Prop} {items : List (String × Val)} (h : ∀ k v, d.get? k = some v → V v)
    (hitems : ∀ p ∈ items, V p.2) : ∀ k v, (d.updateItems items).get? k = some v → V v := by
  induction items generalizing d with
  | nil => exact h
  | cons p items ih =>
    obtain ⟨hp, hrest⟩ := List.forall_mem_cons.mp hitems
    exact ih (stored_set h hp) hrest

theorem stored_plain {V : Val → Prop} (h : ∀ k v, d.get? k = some v → V v) {c : Call} (hc : Stores V c) :
    ∀ k v, (plain d c).1.get? k = some v → V v := by
  cases c with
  | set mapping => exact hc
  | setitem key value => exact stored_set h hc
  | delitem key =>
    intro k v hget
    rw [plain] at hget
    split at hget
    · rw [Dict.get?_erase] at hget
      split at hget
      · cases hget
      · exact h k v hget
    · exact h k v hget
  | update other kwargs =>
    obtain ⟨hother, hkwargs⟩ := List.forall_mem_append.mp hc
    exact stored_updateItems (stored_updateItems h hother) hkwargs
  | setdefault key default =>
    rw [plain]
    cases d.get? key with
    | some value => exact h
    | none => exact stored_set h hc
  | clear =>
    intro k v hget
    cases hget

/-- What the calls of a run return or raise. -/
def replies {σ α β : Type} (f : σ → α → σ × β) : σ → List α → List β
  | _, [] => []
  | s, a :: as => (f s a).2 :: replies f (f s a).1 as

/-- **Every reply is the dictionary's**, whoever calls, in a run where no `set` skips a write that is needed, if the codec reads
again the values that are put in. -/
theorem replies_agree {V : Val → Prop} (hread : ∀ v, V v → codec.loads (codec.dumps v) = some v) (h : Holds codec s.hash d)
    (hstored : ∀ k v, d.get? k = some v → V v) (calls : List (ι × Call)) (hcalls : ∀ a ∈ calls, Stores V a.2)
    (hcurrent : Run.AllSteps (Current codec sha256) (step codec sha256) s calls) :
    replies (fun s a => call codec sha256 s a.1 a.2) s calls = replies (fun d a => plain d a.2) d calls := by
  induction calls generalizing s d with
  | nil => rfl
  | cons a calls ih =>
    obtain ⟨ha, hrest⟩ := List.forall_mem_cons.mp hcalls
    have hreply : (call codec sha256 s a.1 a.2).2 = (plain d a.2).2 := by
      refine call_reply h (fun k v hget => hread v (hstored k v hget)) a ?_
      intro key v hdefault
      rw [hdefault] at ha
      exact hread v ha
    have hnext := ih ((holds_call_iff h a).mpr hcurrent.1) (stored_plain hstored ha) hrest hcurrent.2
    exact congrArg₂ List.cons hreply hnext

end Runs

/-! ## Two instances -/

/-- `{"a": true}` and `{"a": false}`. -/
def mappingOf (b : Bool) : Dict String Val := Dict.ofList [("a", .bool b)]

def fresh : State Nat := ⟨Dict.empty, fun _ => none⟩

theorem holds_fresh : Holds (stdlib_json wholeFloats) fresh.hash Dict.empty := holds_empty

theorem items_mappingOf (b : Bool) : (mappingOf b).items ≠ [] := by cases b <;> decide

/-- Two instances have set a mapping each. -/
def twoSets : List (Nat × Call) := [(0, .set (mappingOf true)), (1, .set (mappingOf false))]

theorem current_twoSets :
    Run.AllSteps (Current (stdlib_json wholeFloats) id) (step (stdlib_json wholeFloats) id) fresh twoSets := by
  refine ⟨fun _ hcached => ?_, fun _ hcached => ?_, trivial⟩
  · cases hcached
  · rw [signature_step_of_ne (by decide)] at hcached
    cases hcached

/-- The hash is the one and then the other. -/
theorem dict_agrees_twoSets :
    Holds (stdlib_json wholeFloats) (Run.run (step (stdlib_json wholeFloats) id) fresh twoSets).hash
      (Run.run (fun d a => (plain d a.2).1) Dict.empty twoSets) :=
  (dict_agrees_iff (stdlib_json wholeFloats) id fresh Dict.empty twoSets holds_fresh).mpr current_twoSets 2

/-- One instance sets the one, the other and the one again. -/
theorem sole_writer_agrees_again :
    Holds (stdlib_json wholeFloats) (Run.run (step (stdlib_json wholeFloats) id) fresh
      [(0, .set (mappingOf true)), (0, .set (mappingOf false)), (0, .set (mappingOf true))]).hash (mappingOf true) := by
  have hapart : ∀ m m', (∃ b, m = mappingOf b) → (∃ b, m' = mappingOf b) →
      signature (stdlib_json wholeFloats) id m = signature (stdlib_json wholeFloats) id m' →
        ∀ k, (m.get? k).map (stdlib_json wholeFloats).dumps = (m'.get? k).map (stdlib_json wholeFloats).dumps := by
    rintro m m' ⟨b, rfl⟩ ⟨b', rfl⟩ hsame k
    suffices hb : b = b' by rw [hb]
    revert hsame
    cases b <;> cases b' <;> decide +kernel
  exact sole_writer_agrees 0 hapart rfl holds_fresh
    [(0, .set (mappingOf true)), (0, .set (mappingOf false)), (0, .set (mappingOf true))] (by simp [SetsWhole]) 3

/-- One instance puts a value in, another takes it out, and the first cannot take it out again. -/
theorem replies_agree_removed :
    replies (fun (s : State Nat) a => call (stdlib_json wholeFloats) id s a.1 a.2) fresh
      [(0, .setdefault "a" (.bool true)), (1, .delitem "a"), (0, .delitem "a")] =
      [.ok (.bool true), .ok .none, .error (.KeyError "a")] := by
  have hread : ∀ v, v = Val.bool true → (stdlib_json wholeFloats).loads ((stdlib_json wholeFloats).dumps v) = some v := by
    rintro v rfl
    rfl
  have hstored : ∀ k v, (Dict.empty : Dict String Val).get? k = some v → v = Val.bool true := by simp
  have hcurrent : Run.AllSteps (Current (stdlib_json wholeFloats) id) (step (stdlib_json wholeFloats) id) fresh
      [(0, .setdefault "a" (.bool true)), (1, .delitem "a"), (0, .delitem "a")] := ⟨trivial, trivial, trivial, trivial⟩
  exact (replies_agree hread holds_fresh hstored _ (by simp [Stores]) hcurrent).trans rfl

/-- An equal call of the first is then skipped. -/
theorem set_skips_write :
    ¬∀ (codec : JSONCodec) (sha256 : Str → Str) (s : State Nat) (d : Dict String Val) (calls : List (Nat × Call)),
      Holds codec s.hash d → ∀ n, Holds codec (Run.run (step codec sha256) s (calls.take n)).hash
        (Run.run (fun d a => (plain d a.2).1) d (calls.take n)) := by
  intro h
  have hthird := h (stdlib_json wholeFloats) id fresh Dict.empty (twoSets ++ [(0, .set (mappingOf true))]) holds_fresh 3
  have hsecond := (holds_set_iff 1 (mappingOf false)).mpr current_twoSets.2.1
  have hcached : (Run.run (step (stdlib_json wholeFloats) id) fresh twoSets)._last_signature 0 =
      some (signature (stdlib_json wholeFloats) id (mappingOf true)) := by
    refine (signature_step_of_ne (by decide)).trans ?_
    exact signature_set (s := fresh) 0 (items_mappingOf true)
  have hstale := (holds_set_iff 0 (mappingOf true)).mp hthird (items_mappingOf true) hcached "a"
  exact absurd ((hsecond "a").symm.trans hstale) (by decide)

end RedisDict
end MaterialOpenWebui
