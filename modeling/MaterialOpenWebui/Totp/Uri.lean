import MaterialOpenWebui.Js.Numeric
import MaterialOpenWebui.Js.Url
import MaterialOpenWebui.Totp.Code

/-!
# `Totp.Uri` — accounts as addresses (`app/js/core/totp.js`)

An `otpauth://totp/` address has the issuer and the account in its path, with a colon between them, and the rest in its query, where
the issuer is a second time. Reading it takes what stands between the first colon of the path and the next for the account.
-/

namespace MaterialOpenWebui
namespace Totp
open Js

structure Params where
  issuer : JsString
  account : JsString
  secret : JsString
  algorithm : JsString
  digits : Nat
  period : Nat
deriving DecidableEq

inductive Thrown where
  | error (message : JsString)
  | uriError
deriving DecidableEq

/-- What a call that refuses by throwing has instead of a value. -/
def orThrow {α : Type} (error : Thrown) : Option α → Except Thrown α
  | none => .error error
  | some a => .ok a

/-! ## Writing -/

/-- The names of `ALGOS`. -/
def ALGOS : List JsString := [js "SHA1", js "SHA256", js "SHA512"]

/-- The letters and digits in `toUpperCase()` of one code unit; `upperUnit` has the digits from 2 to 7. -/
def keyUnit (u : UInt16) : JsString := if u ∈ js "0189" then [u] else upperUnit u

def normaliseAlgorithm (name : JsString) : Except Thrown JsString :=
  let key := (if name = [] then js "SHA1" else name).flatMap keyUnit
  if key ∈ ALGOS then .ok key else .error (.error (js "Unsupported algorithm: " ++ name))

def colon : UInt16 := 0x3a

def label (issuer account : JsString) : JsString := if issuer = [] then account else issuer ++ colon :: account

/-- The parameters of the query; the issuer is the last, where there is one. -/
def params (x : Params) (algorithm : JsString) : List (JsString × JsString) :=
  [(js "secret", stripSpaces x.secret), (js "algorithm", algorithm), (js "digits", natText x.digits),
    (js "period", natText x.period)] ++
    if x.issuer = [] then [] else [(js "issuer", x.issuer)]

/-- `otpauth://totp/${label}?${params}` -/
def address (label query : JsString) : JsString := js "otpauth://totp" ++ slash :: (label ++ queryMark :: query)

def buildUri (x : Params) : Except Thrown JsString := do
  let label ← orThrow .uriError (encodeURIComponent (label x.issuer x.account))
  let algorithm ← normaliseAlgorithm x.algorithm
  return address label (formText (params x algorithm))

/-! ## Reading -/

/-- `a || b || ''`, of texts that need not be there. -/
def firstText (texts : List (Option JsString)) : JsString := ((texts.filterMap id).find? (· ≠ [])).getD []

/-- `label.includes(':') ? label.split(':') : [null, label]`, of which the first two are used. -/
def readLabel (label : JsString) : Option JsString × Option JsString :=
  if colon ∈ label then ((label.splitOn colon)[0]?, (label.splitOn colon)[1]?) else (none, some label)

/-- `Number(text || n)` -/
def numberOr (n : Nat) : JsString → Option Rat
  | [] => some n
  | text => numberOf text

def readParams (label : JsString) (p : List (JsString × JsString)) : Except Thrown Params := do
  let (maybeIssuer, maybeAccount) := readLabel label
  let secret := stripSpaces (firstText [getParam p (js "secret")])
  if secret = [] then throw (.error (js "The URI carries no secret."))
  let digits := numberOr 6 (firstText [getParam p (js "digits")])
  let period := numberOr 30 (firstText [getParam p (js "period")])
  let digits ← orThrow (.error (js "Digits must be 6, 7 or 8.")) (digits.bind (wholeWithin 6 8))
  let period ← orThrow (.error (js "Period must be between 1 and 300 seconds.")) (period.bind (wholeWithin 1 300))
  let algorithm ← normaliseAlgorithm (firstText [getParam p (js "algorithm"), some (js "SHA1")])
  return ⟨firstText [getParam p (js "issuer"), maybeIssuer], firstText [maybeAccount], secret, algorithm, digits, period⟩

def lowerAscii (u : UInt16) : UInt16 := if 0x41 ≤ u ∧ u ≤ 0x5a then u + 0x20 else u

def dropSlash : JsString → JsString
  | [] => []
  | u :: s => if u = slash then s else u :: s

def parseUri (uri : JsString) : Except Thrown Params := do
  let text := trim uri
  if (text.take 15).map lowerAscii ≠ js "otpauth://totp/" then throw (.error (js "Not an otpauth://totp/ URI."))
  let url := afterHost ((urlText text).drop 14)
  let label ← orThrow .uriError (decodeURIComponent (dropSlash url.pathname))
  readParams label (searchParams url.query)

/-! ## What is read of what was written -/

/-- Nothing of an address is trimmed, escaped or dropped, except dots. -/
theorem parseUri_address {s coded : JsString} (h : encodeURIComponent s = some coded) (ps : List (JsString × JsString)) :
    parseUri (address coded (formText ps)) =
      readParams (if s = js "." ∨ s = js ".." then [] else s) (ps.map fun p => (toWellFormed p.1, toWellFormed p.2)) := by
  have hvisible : ∀ u ∈ address coded (formText ps), 0x20 < u ∧ isSpace u = false := by
    intro u hu
    have hhost : ∀ u ∈ js "otpauth://totp", 0x20 < u ∧ isSpace u = false := by decide
    rcases List.mem_append.mp hu with hu | hu
    · exact hhost u hu
    rcases List.mem_cons.mp hu with rfl | hu
    · decide
    rcases List.mem_append.mp hu with hu | hu
    · exact (inert_of_coded (coded_component h hu)).visible
    rcases List.mem_cons.mp hu with rfl | hu
    · decide
    · exact (inert_of_coded (coded_formText hu)).visible
  have hurl : afterHost (slash :: (coded ++ queryMark :: formText ps)) =
      ⟨slash :: if coded ∈ doubleDots ∨ coded ∈ singleDots then [] else coded, formText ps⟩ :=
    afterHost_coded (fun u hu => coded_component h hu) (fun u hu => coded_formText hu)
  have hdecode : decodeURIComponent (if coded ∈ doubleDots ∨ coded ∈ singleDots then [] else coded) =
      some (if s = js "." ∨ s = js ".." then [] else s) := by
    by_cases hs : s = js "." ∨ s = js ".."
    · rw [if_pos hs, if_pos ((dots_component h).mpr hs)]
      rfl
    · rw [if_neg hs, if_neg (fun hdots => hs ((dots_component h).mp hdots)), decode_component h]
  unfold parseUri
  simp only []
  rw [trim_of_visible fun u hu => (hvisible u hu).2, urlText_of_visible fun u hu => (hvisible u hu).1]
  have htake : ((address coded (formText ps)).take 15).map lowerAscii = js "otpauth://totp/" := rfl
  have hdrop : (address coded (formText ps)).drop 14 = slash :: (coded ++ queryMark :: formText ps) := rfl
  rw [htake, hdrop, hurl, if_neg (not_not.mpr rfl)]
  show (do
    let label ← orThrow .uriError (decodeURIComponent (dropSlash (slash :: _)))
    readParams label (searchParams (formText ps))) = _
  rw [dropSlash, if_pos rfl, hdecode, searchParams_formText]
  rfl

theorem firstText_one (text : JsString) : firstText [some text] = text := by
  cases text <;> rfl

theorem firstText_first {text : JsString} (h : text ≠ []) (texts : List (Option JsString)) :
    firstText (some text :: texts) = text := by
  obtain ⟨u, text, rfl⟩ := List.exists_cons_of_ne_nil h
  rfl

theorem natText_ne_nil (n : Nat) : natText n ≠ [] := by
  intro h
  have hdigits : Nat.toDigits 10 n = scalars (natText n) := (scalars_ofChars _).symm
  rw [h] at hdigits
  exact Nat.toDigits_ne_nil hdigits

theorem numberOr_natText {n : Nat} (hn : n < 2 ^ 53) (m : Nat) : numberOr m (natText n) = some (n : Rat) := by
  rw [← numberOf_natText hn]
  cases h : natText n with
  | nil => exact absurd h (natText_ne_nil n)
  | cons u text => rfl

theorem normaliseAlgorithm_of_mem {algorithm : JsString} (h : algorithm ∈ ALGOS) :
    normaliseAlgorithm algorithm = .ok algorithm := by
  simp only [ALGOS, List.mem_cons, List.not_mem_nil, or_false] at h
  rcases h with rfl | rfl | rfl <;> rfl

theorem mem_of_normaliseAlgorithm {name key : JsString} (h : normaliseAlgorithm name = .ok key) : key ∈ ALGOS := by
  by_cases hkey : (if name = [] then js "SHA1" else name).flatMap keyUnit ∈ ALGOS
  · cases (if_pos hkey).symm.trans h
    exact hkey
  · cases (if_neg hkey).symm.trans h

/-- The parameters that were written, as they are read. -/
theorem readParams_params {x : Params} {algorithm : JsString} (halgorithm : algorithm ∈ ALGOS)
    (hdigits : 6 ≤ x.digits ∧ x.digits ≤ 8)
    (hperiod : 1 ≤ x.period ∧ x.period ≤ 300) (label : JsString) :
    readParams label ((params x algorithm).map fun p => (toWellFormed p.1, toWellFormed p.2)) =
      if stripSpaces (toWellFormed (stripSpaces x.secret)) = [] then .error (.error (js "The URI carries no secret."))
      else .ok ⟨firstText [if x.issuer = [] then none else some (toWellFormed x.issuer), (readLabel label).1],
        firstText [(readLabel label).2],
        stripSpaces (toWellFormed (stripSpaces x.secret)), algorithm, x.digits, x.period⟩ := by
  have hsecret : getParam ((params x algorithm).map fun p => (toWellFormed p.1, toWellFormed p.2)) (js "secret") =
      some (toWellFormed (stripSpaces x.secret)) := rfl
  have hget : getParam ((params x algorithm).map fun p => (toWellFormed p.1, toWellFormed p.2)) (js "algorithm") =
      some (toWellFormed algorithm) := rfl
  have hdigitsText : getParam ((params x algorithm).map fun p => (toWellFormed p.1, toWellFormed p.2)) (js "digits") =
      some (toWellFormed (natText x.digits)) := rfl
  have hperiodText : getParam ((params x algorithm).map fun p => (toWellFormed p.1, toWellFormed p.2)) (js "period") =
      some (toWellFormed (natText x.period)) := rfl
  have hissuer : getParam ((params x algorithm).map fun p => (toWellFormed p.1, toWellFormed p.2)) (js "issuer") =
      if x.issuer = [] then none else some (toWellFormed x.issuer) := by
    unfold params
    split <;> rfl
  have hwf : toWellFormed algorithm = algorithm ∧ algorithm ≠ [] := by
    simp only [ALGOS, List.mem_cons, List.not_mem_nil, or_false] at halgorithm
    rcases halgorithm with rfl | rfl | rfl <;> decide
  have hnat : ∀ n, toWellFormed (natText n) = natText n := fun n => wellFormed_ofChars _
  unfold readParams
  simp only []
  rw [hsecret, hget, hdigitsText, hperiodText, hissuer, hnat, hnat, hwf.1, firstText_one, firstText_one, firstText_one,
    firstText_first hwf.2, numberOr_natText (by omega), numberOr_natText (by omega), Option.bind_some, Option.bind_some,
    wholeWithin_natCast hdigits.1 hdigits.2, wholeWithin_natCast hperiod.1 hperiod.2, normaliseAlgorithm_of_mem halgorithm]
  split
  · rfl
  · rfl

/-! ## Round trip -/

/-- What stands between the first colon of an issuer and the next. -/
def secondPart (issuer : JsString) : JsString := ((issuer.dropWhile (· ≠ colon)).drop 1).takeWhile (· ≠ colon)

/-- What comes back from its address as it was. Dots are only taken for directions where they are the whole path. -/
structure Carried (x : Params) : Prop where
  algorithm : x.algorithm ∈ ALGOS
  secret : WellFormed x.secret ∧ ∀ u ∈ x.secret, isSpace u = false
  wellFormed : WellFormed x.issuer ∧ WellFormed x.account
  apart : colon ∉ x.account
  inIssuer : colon ∈ x.issuer → x.account = secondPart x.issuer
  dots : x.issuer = [] → x.account ≠ js "." ∧ x.account ≠ js ".."

theorem wellFormed_label {issuer account : JsString} :
    WellFormed (label issuer account) ↔ WellFormed issuer ∧ WellFormed account := by
  unfold label
  split
  · rename_i hissuer
    subst hissuer
    exact (and_iff_right rfl).symm
  · exact wellFormed_append_iff (by decide)

theorem readLabel_plain {text : JsString} (h : colon ∉ text) : readLabel text = (none, some text) := if_neg h

theorem readLabel_colon {front : JsString} (h : colon ∉ front) (rest : JsString) :
    readLabel (front ++ colon :: rest) = (some front, some (rest.takeWhile (· ≠ colon))) := by
  have hsplit : (front ++ colon :: rest).splitOn colon = front :: rest.splitOn colon :=
    List.splitOn_append_cons_self_of_not_mem h rest
  rw [readLabel, if_pos (List.mem_append_right front List.mem_cons_self), hsplit,
    ← Pieces.head_splitOn, List.head?_eq_getElem?]
  rfl

theorem colon_notMem_takeWhile (s : JsString) : colon ∉ s.takeWhile (· ≠ colon) := by
  induction s with
  | nil => exact List.not_mem_nil
  | cons u s ih =>
    rw [List.takeWhile_cons]
    split
    · rename_i hu
      exact List.not_mem_cons_of_ne_of_not_mem (of_decide_eq_true hu).symm ih
    · exact List.not_mem_nil

theorem takeWhile_colon (account : JsString) : account.takeWhile (· ≠ colon) = account ↔ colon ∉ account := by
  rw [List.takeWhile_eq_self_iff]
  constructor
  · intro hall hmem
    exact of_decide_eq_true (hall colon hmem) rfl
  · intro hnot u hu
    exact decide_eq_true fun heq => hnot (heq ▸ hu)

theorem takeWhile_past (rest account : JsString) :
    (rest ++ colon :: account).takeWhile (· ≠ colon) = rest.takeWhile (· ≠ colon) := by
  induction rest with
  | nil => rfl
  | cons u rest ih => rw [List.cons_append, List.takeWhile_cons, List.takeWhile_cons, ih]

/-- An account without an issuer. -/
theorem account_alone {account : JsString} (hdots : account ≠ js "." ∧ account ≠ js "..") :
    firstText [none, (readLabel account).1] = [] ∧ firstText [(readLabel account).2] = account ↔ colon ∉ account := by
  constructor
  · rintro ⟨-, hread⟩ hmem
    obtain ⟨front, rest, rfl, hfront⟩ := List.eq_append_cons_of_mem hmem
    rw [readLabel_colon hfront, firstText_one] at hread
    -- what was read has no colon
    exact colon_notMem_takeWhile rest (hread ▸ hmem)
  · intro hnot
    rw [readLabel_plain hnot, firstText_one]
    exact ⟨rfl, rfl⟩

/-- An account after its issuer. -/
theorem account_after (issuer account : JsString) : firstText [(readLabel (issuer ++ colon :: account)).2] = account ↔
    colon ∉ account ∧ (colon ∈ issuer → account = secondPart issuer) := by
  by_cases hissuer : colon ∈ issuer
  · obtain ⟨front, rest, rfl, hfront⟩ := List.eq_append_cons_of_mem hissuer
    have hpart : secondPart (front ++ colon :: rest) = rest.takeWhile (· ≠ colon) :=
      congrArg (fun s => s.takeWhile (· ≠ colon)) (splitPair hfront rest).2
    rw [List.append_assoc, List.cons_append, readLabel_colon hfront, firstText_one, takeWhile_past, hpart]
    constructor
    · rintro rfl
      exact ⟨colon_notMem_takeWhile rest, fun _ => rfl⟩
    · rintro ⟨-, haccount⟩
      exact (haccount hissuer).symm
  · rw [readLabel_colon hissuer, firstText_one, takeWhile_colon]
    exact (and_iff_left fun hmem => absurd hmem hissuer).symm

/-- The issuer and the account, both of a text without surrogates that stand alone. -/
theorem read_iff {issuer account : JsString} (hissuer : WellFormed issuer) :
    firstText [if issuer = [] then none else some (toWellFormed issuer),
        (readLabel (if label issuer account = js "." ∨ label issuer account = js ".." then []
          else label issuer account)).1] = issuer ∧
      firstText [(readLabel (if label issuer account = js "." ∨ label issuer account = js ".." then []
        else label issuer account)).2] =
        account ↔
    colon ∉ account ∧ (colon ∈ issuer → account = secondPart issuer) ∧
      (issuer = [] → account ≠ js "." ∧ account ≠ js "..") := by
  by_cases hempty : issuer = []
  · subst hempty
    have hlabel : label [] account = account := if_pos rfl
    rw [hlabel, if_pos rfl]
    by_cases hdots : account = js "." ∨ account = js ".."
    · rw [if_pos hdots]
      constructor
      · rintro ⟨-, hread⟩
        -- nothing is left of the dots
        rcases hdots with rfl | rfl <;> cases hread
      · rintro ⟨-, -, hnot⟩
        exact absurd hdots (not_or.mpr (hnot rfl))
    · rw [if_neg hdots, account_alone (not_or.mp hdots)]
      exact ⟨fun h => ⟨h, fun hmem => absurd hmem List.not_mem_nil, fun _ => not_or.mp hdots⟩, fun h => h.1⟩
  · have hlabel : label issuer account = issuer ++ colon :: account := if_neg hempty
    have hdots : ¬ (issuer ++ colon :: account = js "." ∨ issuer ++ colon :: account = js "..") := by
      have hnot : colon ∉ js "." ∧ colon ∉ js ".." := by decide
      have hmem : colon ∈ issuer ++ colon :: account := List.mem_append_right issuer List.mem_cons_self
      rintro (heq | heq)
      · exact hnot.1 (heq ▸ hmem)
      · exact hnot.2 (heq ▸ hmem)
    rw [hlabel, if_neg hdots, if_neg hempty, hissuer, firstText_first hempty, account_after]
    constructor
    · rintro ⟨-, hread⟩
      exact ⟨hread.1, hread.2, fun h => absurd h hempty⟩
    · rintro ⟨hnot, hpart, -⟩
      exact ⟨rfl, hnot, hpart⟩

theorem stripSpaces_of_visible {s : JsString} (h : ∀ u ∈ s, isSpace u = false) : stripSpaces s = s := by
  apply List.filter_eq_self.mpr
  intro u hu
  rw [h u hu]
  rfl

/-- **An address gives back the account it was made of** exactly where the account is `Carried`. -/
theorem carried_iff {x : Params} (halgorithm : ∃ key, normaliseAlgorithm x.algorithm = .ok key) (hsecret : x.secret ≠ [])
    (hdigits : 6 ≤ x.digits ∧ x.digits ≤ 8) (hperiod : 1 ≤ x.period ∧ x.period ≤ 300) :
    (buildUri x).bind parseUri = .ok x ↔ Carried x := by
  obtain ⟨key, hkey⟩ := halgorithm
  by_cases hlabel : WellFormed (label x.issuer x.account)
  case neg =>
    have hthrown : buildUri x = .error .uriError := by
      unfold buildUri encodeURIComponent
      rw [if_neg hlabel]
      rfl
    rw [hthrown]
    constructor
    · intro h
      cases h
    · intro h
      exact absurd (wellFormed_label.mpr h.wellFormed) hlabel
  case pos =>
  obtain ⟨coded, hcoded⟩ : ∃ coded, encodeURIComponent (label x.issuer x.account) = some coded := ⟨_, if_pos hlabel⟩
  obtain ⟨hissuer, haccount⟩ := wellFormed_label.mp hlabel
  have hbuild : buildUri x = .ok (address coded (formText (params x key))) := by
    unfold buildUri
    rw [hcoded, hkey]
    rfl
  rw [hbuild]
  show parseUri (address coded (formText (params x key))) = _ ↔ _
  rw [parseUri_address hcoded, readParams_params (mem_of_normaliseAlgorithm hkey) hdigits hperiod]
  constructor
  · intro h
    split at h
    · cases h
    have hx := Except.ok.inj h
    have hstripped : stripSpaces (toWellFormed (stripSpaces x.secret)) = x.secret := congrArg Params.secret hx
    have halgorithm : key = x.algorithm := congrArg Params.algorithm hx
    have hvisible : ∀ u ∈ x.secret, isSpace u = false := by
      intro u hu
      rw [← hstripped] at hu
      have hkept : (!isSpace u) = true := (List.mem_filter.mp hu).2
      rwa [Bool.not_eq_true'] at hkept
    have hplain : stripSpaces x.secret = x.secret := stripSpaces_of_visible hvisible
    rw [hplain] at hstripped
    -- as many units as before, so that none was white space
    have hsame : stripSpaces (toWellFormed x.secret) = toWellFormed x.secret :=
      List.filter_sublist.eq_of_length ((congrArg List.length hstripped).trans (length_toWellFormed x.secret).symm)
    have hparts := (read_iff hissuer).mp ⟨congrArg Params.issuer hx, congrArg Params.account hx⟩
    exact ⟨halgorithm ▸ mem_of_normaliseAlgorithm hkey, ⟨hsame.symm.trans hstripped, hvisible⟩,
      ⟨hissuer, haccount⟩, hparts.1, hparts.2.1,
      hparts.2.2⟩
  · intro h
    have hkey' : key = x.algorithm := Except.ok.inj (hkey.symm.trans (normaliseAlgorithm_of_mem h.algorithm))
    obtain ⟨hwell, hvisible⟩ := h.secret
    have hread := (read_iff hissuer).mpr ⟨h.apart, h.inIssuer, h.dots⟩
    rw [stripSpaces_of_visible hvisible, hwell, stripSpaces_of_visible hvisible, if_neg hsecret, hread.1, hread.2, hkey']

theorem carried_plain :
    (buildUri ⟨js "Ding Ding", js "me/../é@x", js "JBSWY3DP", js "SHA256", 8, 45⟩).bind parseUri =
      .ok ⟨js "Ding Ding", js "me/../é@x", js "JBSWY3DP", js "SHA256", 8, 45⟩ := by
  refine (carried_iff ⟨js "SHA256", rfl⟩ (by decide) (by decide) (by decide)).mpr ?_
  exact ⟨by decide, by decide, by decide, by decide, fun h => absurd h (by decide), fun h => absurd h (by decide)⟩

/-- An account with a colon comes back without what follows it; one of two dots is gone. -/
theorem colon_lost :
    (buildUri ⟨js "X", js "a:b", js "JBSWY3DP", js "SHA1", 6, 30⟩).bind parseUri =
      .ok ⟨js "X", js "a", js "JBSWY3DP", js "SHA1", 6, 30⟩ ∧
    (buildUri ⟨[], js "..", js "JBSWY3DP", js "SHA1", 6, 30⟩).bind parseUri = .ok ⟨[], [], js "JBSWY3DP", js "SHA1", 6, 30⟩ ∧
    ¬ ∀ x : Params, (∃ key, normaliseAlgorithm x.algorithm = .ok key) → x.secret ≠ [] → 6 ≤ x.digits ∧ x.digits ≤ 8 →
      1 ≤ x.period ∧ x.period ≤ 300 → (buildUri x).bind parseUri = .ok x := by
  have hcolon : (buildUri ⟨js "X", js "a:b", js "JBSWY3DP", js "SHA1", 6, 30⟩).bind parseUri =
      .ok ⟨js "X", js "a", js "JBSWY3DP", js "SHA1", 6, 30⟩ := by decide +kernel
  have hdots : (buildUri ⟨[], js "..", js "JBSWY3DP", js "SHA1", 6, 30⟩).bind parseUri =
    .ok ⟨[], [], js "JBSWY3DP", js "SHA1", 6, 30⟩ := by
    decide +kernel
  refine ⟨hcolon, hdots, fun hall => ?_⟩
  have hx := hall ⟨js "X", js "a:b", js "JBSWY3DP", js "SHA1", 6, 30⟩ ⟨js "SHA1", rfl⟩ (by decide) (by decide) (by decide)
  have haccount : js "a" = js "a:b" := congrArg Params.account (Except.ok.inj (hcolon.symm.trans hx))
  exact absurd haccount (by decide)

end Totp
end MaterialOpenWebui
