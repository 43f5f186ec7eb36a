import MaterialOpenWebui.History.Canonical
import MaterialOpenWebui.History.Runs

/-!
# `History.Tamper` — one head hash, one history

Two logs read from JSON that `verify` accepts and whose last entries carry the same hash hold the same
entries: as many of them, in the same order, each agreeing in every field the hash covers. This is the chain
argument of `Lib.HashChain` with the canonical text as the content of an entry, so it rests on the digest
separating the canonical texts of the two logs and on nothing else.
-/

namespace MaterialOpenWebui
namespace History
open Js JsValue HashChain

/-! ## JSON values and when they hold the same data -/

/-- A value `JSON.parse` can return. -/
inductive IsJson : JsValue → Prop where
  | null : IsJson .null
  | bool (b : Bool) : IsJson (.bool b)
  | num (d : Decimal) : IsJson (.num (.finite d))
  | str (s : JsString) : IsJson (.str s)
  | arr {vs : List JsValue} (h : ∀ v ∈ vs, IsJson v) : IsJson (.arr vs)
  | obj {ps : List (JsString × JsValue)} (hk : (ps.map Prod.fst).Nodup) (h : ∀ p ∈ ps, IsJson p.2) :
      IsJson (.obj ps)

/-- Two JSON values hold the same data: property order and the sign of zero aside, they are equal. -/
inductive SameData : JsValue → JsValue → Prop where
  | null : SameData .null .null
  | bool (b : Bool) : SameData (.bool b) (.bool b)
  | num {d d' : Decimal} (h : d.unsignZero = d'.unsignZero) : SameData (.num (.finite d)) (.num (.finite d'))
  | str (s : JsString) : SameData (.str s) (.str s)
  | arr {vs ws : List JsValue} (h : List.Forall₂ SameData vs ws) : SameData (.arr vs) (.arr ws)
  | obj {ps qs : List (JsString × JsValue)}
      (hk : ∀ k, (ps.lookup k).isSome = (qs.lookup k).isSome)
      (h : ∀ k v w, ps.lookup k = some v → qs.lookup k = some w → SameData v w) :
      SameData (.obj ps) (.obj qs)

theorem IsJson.wf {v : JsValue} (h : IsJson v) : v.Wf := by
  induction h with
  | null => exact .null
  | bool b => exact .bool b
  | num d => exact .num _
  | str s => exact .str s
  | arr _ ih => exact .arr ih
  | obj hk _ ih => exact .obj hk ih

theorem IsJson.elems {vs : List JsValue} (h : IsJson (.arr vs)) : ∀ v ∈ vs, IsJson v := by
  cases h with
  | arr h => exact h

/-- A property of a JSON value is a JSON value, or is missing. -/
theorem IsJson.get {v : JsValue} (h : IsJson v) (k : JsString) :
    v.get k = .undefined ∨ IsJson (v.get k) := by
  cases h with
  | obj hk h =>
    rename_i ps
    simp only [JsValue.get]
    cases hl : ps.lookup k with
    | none => exact Or.inl rfl
    | some w => exact Or.inr (h (k, w) (mem_of_lookup hl))
  | _ => exact Or.inl rfl

theorem forall₂_sameData {vs ws : List JsValue}
    (ih : ∀ v ∈ vs, ∀ w, IsJson w → canon v = canon w → SameData v w) (hws : ∀ w ∈ ws, IsJson w)
    (h : vs.map canon = ws.map canon) : List.Forall₂ SameData vs ws := by
  induction vs generalizing ws with
  | nil =>
    cases ws with
    | nil => exact .nil
    | cons w ws => cases h
  | cons v vs ihvs =>
    cases ws with
    | nil => cases h
    | cons w ws =>
      rw [List.map_cons, List.map_cons, List.cons.injEq] at h
      refine .cons (ih v (by simp) w (hws w (by simp)) h.1) ?_
      exact ihvs (fun u hu => ih u (by simp [hu])) (fun u hu => hws u (by simp [hu])) h.2

/-- **Equal canonical values are the same data.** -/
theorem sameData_of_canon_eq {v w : JsValue} (hv : IsJson v) (hw : IsJson w)
    (h : canon v = canon w) : SameData v w := by
  induction hv generalizing w with
  | null => cases hw <;> first | exact .null | (simp [canon, stable, jsonCopy] at h)
  | bool b =>
    cases hw <;> simp [canon, stable, jsonCopy] at h
    rw [h]
    exact .bool _
  | num d =>
    cases hw <;> simp [canon, stable, jsonCopy] at h
    exact .num h
  | str s =>
    cases hw <;> simp [canon, stable, jsonCopy] at h
    rw [h]
    exact .str _
  | @arr vs hvs ih =>
    rw [canon_arr] at h
    cases hw with
    | @arr ws hws =>
      rw [canon_arr, JsValue.arr.injEq] at h
      exact .arr (forall₂_sameData (fun v hv _ hw h => ih v hv hw h) hws h)
    | obj hk _ => rw [canon_obj hk] at h; cases h
    | _ => cases h
  | @obj ps hk hps ih =>
    cases hw with
    | @obj qs hk' hqs =>
      have hl := lookup_of_canon_eq hk hk' h
      refine .obj ?_ ?_
      · intro k
        have hsome := congrArg Option.isSome (hl k)
        simpa using hsome
      · intro k v w hv hw
        have heq := hl k
        rw [hv, hw] at heq
        exact ih (k, v) (mem_of_lookup hv) (hqs (k, w) (mem_of_lookup hw)) (Option.some.inj heq)
    | arr _ => rw [canon_obj hk, canon_arr] at h; cases h
    | _ => rw [canon_obj hk] at h; cases h

/-! ## Same entries -/

/-- Two fields agree: both are missing or `null`, or they hold the same data. -/
def Agrees (v w : JsValue) : Prop := v.isNullish = true ∧ w.isNullish = true ∨ SameData v w

theorem agrees_of_canon_eq {v w : JsValue} (hv : v = .undefined ∨ IsJson v)
    (hw : w = .undefined ∨ IsJson w) (h : canon v = canon w) : Agrees v w := by
  -- a missing field has the canonical value of `null`, and only `null` shares it
  have hnull : ∀ u, IsJson u → canon u = .null → u.isNullish = true := by
    intro u hu hcanon
    have hsame := sameData_of_canon_eq hu .null (by rw [hcanon, canon_null])
    cases hsame
    rfl
  rcases hv with rfl | hv
  · rcases hw with rfl | hw
    · exact Or.inl ⟨rfl, rfl⟩
    · exact Or.inl ⟨rfl, hnull w hw h.symm⟩
  · rcases hw with rfl | hw
    · exact Or.inl ⟨hnull v hv h, rfl⟩
    · exact Or.inr (sameData_of_canon_eq hv hw h)

/-- Two entries have one canonical text, and agree in each field the hash covers. -/
structure SameEntry (a b : JsValue) : Prop where
  canonical : canonical a = canonical b
  fields : ∀ k v w, (k, v) ∈ hashedFields a → (k, w) ∈ hashedFields b → Agrees v w

theorem hashedFields_isJson {e : JsValue} (h : IsJson e) {p : JsString × JsValue}
    (hp : p ∈ hashedFields e) : p.2 = .undefined ∨ IsJson p.2 := by
  have hor : ∀ k, (e.get k).or (.str []) = .undefined ∨ IsJson ((e.get k).or (.str [])) := by
    intro k
    unfold JsValue.or
    split_ifs
    · exact h.get k
    · exact Or.inr (.str [])
  simp only [hashedFields, List.mem_cons, List.not_mem_nil, or_false] at hp
  rcases hp with rfl | rfl | rfl | rfl | rfl | rfl | rfl | rfl
  all_goals first
    | exact h.get _
    | exact hor _

theorem sameEntry_of_canonical_eq {a b : JsValue} (ha : IsJson a) (hb : IsJson b)
    (h : canonical a = canonical b) : SameEntry a b := by
  refine ⟨h, ?_⟩
  intro k v w hv hw
  have hl := fields_of_canonical_eq ha.wf hb.wf h k
  rw [lookup_of_mem (nodup_hashedFields a) hv, lookup_of_mem (nodup_hashedFields b) hw] at hl
  exact agrees_of_canon_eq (hashedFields_isJson ha hv) (hashedFields_isJson hb hw) (Option.some.inj hl)

/-! ## The chain argument -/

/-- The hash the last entry of a log carries. -/
def headHash (log : JsValue) : Option JsValue := (entriesOf log).getLast?.map (fun e => e.get (js "hash"))

/-- The byte strings that the hashes of a log are computed from. -/
def bytesOf (log : JsValue) : Set ByteArray := {bytes | ∃ e ∈ entriesOf log, hashedBytes e = bytes}

theorem entriesOf_isJson {log : JsValue} (h : IsJson log) : ∀ e ∈ entriesOf log, IsJson e := by
  intro e he
  unfold entriesOf at he
  rcases h.get (js "entries") with hu | hj
  · rw [hu] at he
    exact absurd he List.not_mem_nil
  · cases hv : log.get (js "entries") with
    | arr vs =>
      rw [hv] at he hj
      exact hj.elems e he
    | _ =>
      rw [hv] at he
      exact absurd he List.not_mem_nil

variable (sha256 : ByteArray → Vector UInt8 32)

/-- In a chain from a text, every parent is a text. -/
theorem parent_isStr {p : JsString} {es : List JsValue} (h : Linked (scheme sha256) (.str p) es) :
    ∀ e ∈ es, ∃ s, (e.get (js "parent")).or (.str []) = .str s := by
  induction es generalizing p with
  | nil => intro e he; exact absurd he List.not_mem_nil
  | cons a es ih =>
    obtain ⟨hp, hh, hrest⟩ := h
    intro e he
    rcases List.mem_cons.mp he with rfl | he
    · exact ⟨p, hp⟩
    · rw [hh] at hrest
      exact ih hrest e he

/-- **Tamper evidence.** Logs of JSON values that `verify` accepts and whose last entries carry one hash
    hold the same entries, when the digest separates the byte strings that occur in the two. -/
theorem same_head_same_entries {log log' : JsValue} (hjson : IsJson log) (hjson' : IsJson log')
    (hinj : Set.InjOn sha256 (bytesOf log ∪ bytesOf log'))
    (hlog : Accepted sha256 log) (hlog' : Accepted sha256 log') (hhead : headHash log = headHash log') :
    (entriesOf log).length = (entriesOf log').length ∧
      List.Forall₂ SameEntry (entriesOf log) (entriesOf log') := by
  have hlink : Linked (scheme sha256) (.str []) (entriesOf log) := (accepted_iff sha256 log).mp hlog
  have hlink' : Linked (scheme sha256) (.str []) (entriesOf log') := (accepted_iff sha256 log').mp hlog'
  have htip : tip (scheme sha256) (.str []) (entriesOf log) = tip (scheme sha256) (.str []) (entriesOf log') := by
    rw [tip_eq_getLast?, tip_eq_getLast?]
    exact congrArg (Option.getD · _) hhead
  have hkey : ∀ a ∈ entriesOf log, ∀ b ∈ entriesOf log',
      (scheme sha256).digest a = (scheme sha256).digest b → canonical a = canonical b := by
    intro a ha b hb h
    exact hashOf_injective hinj (Or.inl ⟨a, ha, rfl⟩) (Or.inr ⟨b, hb, rfl⟩) (JsValue.str.inj h)
  have hparent : ∀ a ∈ entriesOf log, ∀ b ∈ entriesOf log',
      canonical a = canonical b → (scheme sha256).parent a = (scheme sha256).parent b := by
    intro a ha b hb h
    obtain ⟨s, hs⟩ := parent_isStr sha256 hlink a ha
    obtain ⟨t, ht⟩ := parent_isStr sha256 hlink' b hb
    have hl := fields_of_canonical_eq (entriesOf_isJson hjson a ha).wf (entriesOf_isJson hjson' b hb).wf h
      (js "parent")
    have hcanon : canon ((a.get (js "parent")).or (.str [])) = canon ((b.get (js "parent")).or (.str [])) :=
      Option.some.inj hl
    rw [hs, ht, canon_str, canon_str] at hcanon
    simp only [scheme, hs, ht, hcanon]
  have hgen : ∀ e : JsValue, (scheme sha256).digest e ≠ .str [] := by
    intro e h
    exact hashOf_ne_nil sha256 e (JsValue.str.inj h)
  have hsame := Linked.agree canonical hkey hparent (fun a _ => hgen a) (fun b _ => hgen b) hlink hlink' htip
  refine ⟨hsame.length_eq, ?_⟩
  rw [List.forall₂_iff_get] at hsame ⊢
  refine ⟨hsame.1, ?_⟩
  intro i hi hi'
  exact sameEntry_of_canonical_eq (entriesOf_isJson hjson _ (List.get_mem _ _))
    (entriesOf_isJson hjson' _ (List.get_mem _ _)) (hsame.2 i hi hi')

/-- The first entry of a log, when that is `themeChange` at `midnight`. -/
def themeEntry : List (JsString × JsValue) :=
  [(js "seq", .num (.ofNat 1)), (js "at", .str midnight),
    (js "action", .str (js "setting")), (js "target", .str (js "theme")),
    (js "before", .str (js "light")), (js "after", .str (js "dark")), (js "label", .str []),
    (js "parent", .str []), (js "hash", .str (themeDigest.toList.flatMap hexByte))]

/-- A log with the one entry, its properties in the order they are given. -/
def themeLog (entry : List (JsString × JsValue)) : JsValue := .obj [(js "entries", .arr [.obj entry])]

theorem themeLog_isJson {entry : List (JsString × JsValue)} (h : entry.Perm themeEntry) :
    IsJson (themeLog entry) := by
  have hkeys : (themeEntry.map Prod.fst).Nodup := by decide
  have hentry : IsJson (.obj entry) := by
    refine .obj ((h.map Prod.fst).nodup_iff.mpr hkeys) ?_
    intro p hp
    have hmem := h.mem_iff.mp hp
    simp only [themeEntry, List.mem_cons, List.not_mem_nil, or_false] at hmem
    rcases hmem with rfl | rfl | rfl | rfl | rfl | rfl | rfl | rfl | rfl
    all_goals first
      | exact .str _
      | exact .num _
  refine .obj (by simp) ?_
  intro p hp
  rw [List.mem_singleton.mp hp]
  refine .arr ?_
  intro v hv
  rw [List.mem_singleton.mp hv]
  exact hentry

/-- The entry written in two property orders, under its real digest. -/
theorem reordered_entry_same :
    (entriesOf (themeLog themeEntry)).length = (entriesOf (themeLog themeEntry.reverse)).length ∧
      List.Forall₂ SameEntry (entriesOf (themeLog themeEntry)) (entriesOf (themeLog themeEntry.reverse)) := by
  have hbytes : hashedBytes (.obj themeEntry.reverse) = hashedBytes (.obj themeEntry) := rfl
  refine same_head_same_entries (fun _ => themeDigest) (themeLog_isJson (.refl _))
    (themeLog_isJson (List.reverse_perm _)) ?_ ?_ ?_ rfl
  · -- one byte string occurs
    have hone : ∀ b ∈ bytesOf (themeLog themeEntry) ∪ bytesOf (themeLog themeEntry.reverse),
        b = hashedBytes (.obj themeEntry) := by
      rintro b (⟨e, he, rfl⟩ | ⟨e, he, rfl⟩)
      · rw [List.mem_singleton.mp he]
      · rw [List.mem_singleton.mp he, hbytes]
    intro a ha b hb _
    rw [hone a ha, hone b hb]
  · exact (accepted_iff _ _).mpr ⟨rfl, rfl, trivial⟩
  · exact (accepted_iff _ _).mpr ⟨rfl, rfl, trivial⟩

end History
end MaterialOpenWebui
