import Mathlib.Data.List.Perm.Subperm
import MaterialOpenWebui.Lib.AllSome
import MaterialOpenWebui.Lib.Worklist
import MaterialOpenWebui.Ollama.Catalogue

/-!
# `Ollama.Complete` — when a catalogue is all there is (`app/js/core/ollama.js`)

A page is HTML, and its links are attributes of tags. The crawl takes another view of it: a page has further ones if a pattern
is found in its text, and their addresses are what another pattern captures. What it reports as complete is all that can be
reached by such captures.
-/

namespace MaterialOpenWebui
namespace Ollama
open Js

/-! ## Tags -/

structure Tag where
  text : JsString
  attributes : List (JsString × JsString)

inductive Reading where
  | data
  | opened
  | tagName (tag : Tag)
  | between (tag : Tag)
  | attribute (tag : Tag) (name : JsString)
  | afterAttribute (tag : Tag) (name : JsString)
  | beforeValue (tag : Tag) (name : JsString)
  | quoted (tag : Tag) (name value : JsString) (mark : UInt16)
  | unquoted (tag : Tag) (name value : JsString)

def isSpace (u : UInt16) : Bool := u == 0x20 || u == 0x09 || u == 0x0a || u == 0x0c || u == 0x0d

def isLetter (u : UInt16) : Bool := 0x61 ≤ lower u && lower u ≤ 0x7a

/-- The first attribute of a name counts. -/
def Tag.with (tag : Tag) (name value : JsString) : Tag :=
  if name ∈ tag.attributes.map Prod.fst then tag else { tag with attributes := tag.attributes ++ [(name, value)] }

/-- One character of a document, and the tag that it ends. -/
def Reading.step (r : Reading) (u : UInt16) : Reading × Option Tag :=
  let more (tag : Tag) : Tag := { tag with text := tag.text ++ [u] }
  -- a character where an attribute may begin
  let start (tag : Tag) : Reading × Option Tag :=
    if u = 0x3e then (.data, some tag)
    else if isSpace u ∨ u = 0x2f then (.between tag, none)
    else (.attribute tag [lower u], none)
  match r with
  | .data => (if u = 0x3c then .opened else .data, none)
  | .opened => (if isLetter u then .tagName ⟨[0x3c, u], []⟩ else if u = 0x3c then .opened else .data, none)
  | .tagName tag => if u = 0x3e ∨ isSpace u ∨ u = 0x2f then start (more tag) else (.tagName (more tag), none)
  | .between tag => start (more tag)
  | .attribute tag name =>
    if u = 0x3d then (.beforeValue (more tag) name, none)
    else if isSpace u then (.afterAttribute (more tag) name, none)
    else if u = 0x3e ∨ u = 0x2f then start ((more tag).with name [])
    else (.attribute (more tag) (name ++ [lower u]), none)
  | .afterAttribute tag name =>
    if u = 0x3d then (.beforeValue (more tag) name, none)
    else if isSpace u then (.afterAttribute (more tag) name, none)
    else start ((more tag).with name [])
  | .beforeValue tag name =>
    if isSpace u then (.beforeValue (more tag) name, none)
    else if u = 0x22 ∨ u = 0x27 then (.quoted (more tag) name [] u, none)
    else if u = 0x3e then start ((more tag).with name [])
    else (.unquoted (more tag) name [u], none)
  | .quoted tag name value mark =>
    if u = mark then (.between ((more tag).with name value), none) else (.quoted (more tag) name (value ++ [u]) mark, none)
  | .unquoted tag name value =>
    if u = 0x3e ∨ isSpace u then start ((more tag).with name value) else (.unquoted (more tag) name (value ++ [u]), none)

/-- The start tags in a text, read as HTML reads them; comments and scripts are not set apart, references in values stay as they are. -/
def tags : Reading → JsString → List Tag
  | _, [] => []
  | r, u :: html => (r.step u).2.toList ++ tags (r.step u).1 html

/-- Where the tags lead that the recogniser takes for links to a next page. -/
def nextLinks (html : JsString) : List JsString :=
  (tags .data html).filterMap fun tag =>
    (tag.attributes.lookup (js "href")).filter fun href =>
      decide (js "rel=\"next\"" <:+: tag.text) || decide (js "?page=" <:+: href)

/-! ## The graph of the pages -/

section
variable (URL : JsString → JsString → Option JsString) (fetch : JsString → Response) (source : JsString)

/-- A page has a capture that leads to a page. -/
def Captured (a b : JsString) : Prop :=
    ∃ p, fetch a = .page p ∧ ∃ href ∈ matchAll NEXT_PAGE 0 p.html, URL href source = some b

abbrev Reach (root : JsString) : JsString → Prop := Relation.ReflTransGen (Captured URL fetch source) root

/-- The pages that can be reached are few, all of them answer and capture nothing but URLs, the first one has names, and one of
them has pagination. -/
structure Exhaustible (root : JsString) : Prop where
  few : ∃ l : List JsString, l.length ≤ MAX_PAGES ∧ ∀ url, Reach URL fetch source root url → url ∈ l
  answers : ∀ url, Reach URL fetch source root url → ∃ p, fetch url = .page p ∧
    ∀ href ∈ matchAll NEXT_PAGE 0 p.html, ∃ v, URL href source = some v
  named : ∃ p, fetch root = .page p ∧ matchAll LINK 0 p.html ≠ []
  paginated : ∃ url p, Reach URL fetch source root url ∧ fetch url = .page p ∧ PAGINATION_MARKUP p.html = true

/-- A list has the names on the pages that were fetched. -/
def Names (names requests : List JsString) : Prop :=
  ∀ name, name ∈ names ↔ ∃ url ∈ requests, ∃ p, fetch url = .page p ∧ name ∈ matchAll LINK 0 p.html

/-- What the crawl is to tell is true: few requests, the names on the pages that came, and complete only if every link to a next
page was followed. -/
structure Truthful (outcome : List JsString × Option Catalogue) : Prop where
  limited : outcome.1.length ≤ MAX_PAGES
  united : ∀ c, outcome.2 = some c → Names fetch c.models outcome.1
  followed : ∀ c, outcome.2 = some c → c.complete = true → ∀ url ∈ outcome.1, ∀ p, fetch url = .page p →
    ∀ href ∈ nextLinks p.html, ∀ v, URL href url = some v → v ∈ outcome.1

variable (sha256 : JsString → Option JsString)

/-! ## One turn -/

variable {URL fetch source sha256}

/-- **A turn that ends the crawl** has nothing left, or fails before a request, with the request or with the page. -/
theorem turn_ended {s : Crawl} {requests : List JsString} {result : Option Catalogue}
    (h : turn sha256 URL fetch source s = .ended requests result) :
    s.queue = [] ∧ requests = s.requests ∧ result = some (s.verdict source) ∨
      ∃ next queue, s.queue = next :: queue ∧ (URL next source = none ∧ requests = s.requests ∧ result = none ∨
        ∃ url, URL next source = some url ∧ url ∉ s.seen ∧
          (MAX_PAGES ≤ s.pages ∧ requests = s.requests ∧ (∀ c, result = some c → c.models = s.models ∧ c.complete = false) ∨
            s.pages < MAX_PAGES ∧ requests = s.requests ++ [url] ∧
              ((∀ p, fetch url ≠ .page p) ∧ (∀ c, result = some c → c.models = s.models ∧ c.complete = false) ∨
                ∃ p, fetch url = .page p ∧
                  (∀ c, result = some c → c.models = (s.read sha256 p).models ∧ c.complete = false) ∧
                  (s.pages = 0 ∧ (s.read sha256 p).names.length = s.names.length ∨
                    ∃ href ∈ matchAll NEXT_PAGE 0 p.html, URL href source = none)))) := by
  unfold turn at h
  cases hqueue : s.queue with
  | nil =>
    rw [hqueue] at h
    cases h
    exact .inl ⟨rfl, rfl, rfl⟩
  | cons next queue =>
    simp only [hqueue] at h
    refine .inr ⟨next, queue, rfl, ?_⟩
    cases hurl : URL next source with
    | none =>
      rw [hurl] at h
      cases h
      exact .inl ⟨rfl, rfl, rfl⟩
    | some url =>
      simp only [hurl] at h
      by_cases hseen : url ∈ s.seen
      · rw [if_pos hseen] at h
        cases h
      rw [if_neg hseen] at h
      refine .inr ⟨url, rfl, hseen, ?_⟩
      by_cases hpages : MAX_PAGES ≤ s.pages
      · rw [if_pos hpages] at h
        cases h
        refine .inl ⟨hpages, rfl, fun c hc => ?_⟩
        cases hc
        exact ⟨rfl, rfl⟩
      rw [if_neg hpages] at h
      refine .inr ⟨Nat.lt_of_not_le hpages, ?_⟩
      cases hfetch : fetch url with
      | unreachable message =>
        rw [hfetch] at h
        cases h
        refine ⟨rfl, .inl ⟨fun p hp => (by cases hp), fun c hc => ?_⟩⟩
        cases hc
        exact ⟨rfl, rfl⟩
      | answered status =>
        rw [hfetch] at h
        cases h
        refine ⟨rfl, .inl ⟨fun p hp => (by cases hp), fun c hc => ?_⟩⟩
        cases hc
        exact ⟨rfl, rfl⟩
      | broken =>
        rw [hfetch] at h
        cases h
        exact ⟨rfl, .inl ⟨fun p hp => (by cases hp), fun c hc => (by cases hc)⟩⟩
      | page p =>
        simp only [hfetch] at h
        unfold Crawl.visit at h
        by_cases hnone : s.pages = 0 ∧ ((matchAll LINK 0 p.html).foldl addName s.names).length = s.names.length
        · simp only [Crawl.read] at h
          rw [if_pos hnone] at h
          cases h
          refine ⟨rfl, .inr ⟨p, rfl, fun c hc => ?_, .inl hnone⟩⟩
          cases hc
          exact ⟨rfl, rfl⟩
        · simp only [Crawl.read] at h
          rw [if_neg hnone] at h
          cases hlinks : (matchAll NEXT_PAGE 0 p.html).mapM fun href => URL href source with
          | some hrefs =>
            rw [hlinks] at h
            cases h
          | none =>
            rw [hlinks] at h
            cases h
            refine ⟨rfl, .inr ⟨p, rfl, fun c hc => (by cases hc), .inr ?_⟩⟩
            by_contra hall
            obtain ⟨hrefs, hsome, -⟩ := AllSome.exists_mapM (f := fun href => URL href source) (Q := fun _ _ => True)
              (l := matchAll NEXT_PAGE 0 p.html) fun href hhref => by
                cases hv : URL href source with
                | none => exact absurd ⟨href, hhref, hv⟩ hall
                | some v => exact ⟨v, rfl, trivial⟩
            rw [hlinks] at hsome
            cases hsome

/-! ## What stays true -/

theorem mem_addNames {more names : List JsString} {name : JsString} :
    name ∈ more.foldl addName names ↔ name ∈ names ∨ name ∈ more := by
  induction more generalizing names with
  | nil => simp
  | cons n more ih =>
    rw [List.foldl_cons, ih, List.mem_cons]
    unfold addName
    split
    · rename_i hn
      constructor
      · exact fun h => h.imp id .inr
      · rintro (h | rfl | h)
        · exact .inl h
        · exact .inl hn
        · exact .inr h
    · rw [List.mem_append, List.mem_singleton, or_assoc]

theorem mem_models {s : Crawl} {name : JsString} : name ∈ s.models ↔ name ∈ s.names := List.mem_insertionSort _

/-- Another page adds its names. -/
theorem Names.page {names requests : List JsString} (h : Names fetch names requests) {url : JsString} {p : Page}
    (hp : fetch url = .page p) :
    Names fetch ((matchAll LINK 0 p.html).foldl addName names) (requests ++ [url]) := by
  intro name
  rw [mem_addNames, h name]
  constructor
  · rintro (⟨url', hurl', hname⟩ | hname)
    · exact ⟨url', List.mem_append_left _ hurl', hname⟩
    · exact ⟨url, List.mem_append_right _ (List.mem_singleton_self _), p, hp, hname⟩
  · rintro ⟨url', hurl', p', hp', hname⟩
    rcases List.mem_append.mp hurl' with hurl' | hurl'
    · exact .inl ⟨url', hurl', p', hp', hname⟩
    · rw [List.mem_singleton.mp hurl', hp] at hp'
      cases hp'
      exact .inr hname

/-- What is no page adds none. -/
theorem Names.failed {names requests : List JsString} (h : Names fetch names requests) {url : JsString}
    (hno : ∀ p, fetch url ≠ .page p) :
    Names fetch names (requests ++ [url]) := by
  intro name
  rw [h name]
  constructor
  · rintro ⟨url', hurl', hname⟩
    exact ⟨url', List.mem_append_left _ hurl', hname⟩
  · rintro ⟨url', hurl', p', hp', hname⟩
    rcases List.mem_append.mp hurl' with hurl' | hurl'
    · exact ⟨url', hurl', p', hp', hname⟩
    · rw [List.mem_singleton.mp hurl'] at hp'
      exact absurd hp' (hno p')

/-- The crawl at any time: what it has asked for were pages, and what it has still to see is what they led to. -/
structure Inv (URL : JsString → JsString → Option JsString) (fetch : JsString → Response)
    (source root : JsString) (s : Crawl) : Prop where
  frontier : Worklist.Inv (Captured URL fetch source) root s.seen (s.queue.filterMap fun href => URL href source)
  asked : s.requests = s.seen
  counted : s.pages = s.seen.length
  once : s.seen.Nodup
  limited : s.pages ≤ MAX_PAGES
  answered : ∀ url ∈ s.seen, ∃ p, fetch url = .page p ∧ ∀ href ∈ matchAll NEXT_PAGE 0 p.html, ∃ v, URL href source = some v
  valid : ∀ href ∈ s.queue, ∃ v, URL href source = some v
  named : Names fetch s.names s.requests
  first : s.pages = 0 → s.queue = [source]
  begun : s.pages ≠ 0 → ∃ p, fetch root = .page p ∧ matchAll LINK 0 p.html ≠ []
  paginated : s.sawPaginationMarkup = true ↔ ∃ url ∈ s.seen, ∃ p, fetch url = .page p ∧ PAGINATION_MARKUP p.html = true

theorem Inv.names_nil {root : JsString} {s : Crawl} (h : Inv URL fetch source root s)
    (hpages : s.pages = 0) : s.names = [] := by
  rw [List.eq_nil_iff_forall_not_mem]
  intro name hname
  obtain ⟨url, hurl, -⟩ := (h.named name).mp hname
  have hseen : s.seen = [] := List.eq_nil_of_length_eq_zero (h.counted.symm.trans hpages)
  rw [h.asked, hseen] at hurl
  exact absurd hurl List.not_mem_nil

/-- The first page has no names exactly if it gives none to begin with. -/
theorem length_addNames_iff {more : List JsString} : (more.foldl addName []).length = 0 ↔ more = [] := by
  rw [List.length_eq_zero_iff]
  constructor
  · intro h
    rw [List.eq_nil_iff_forall_not_mem]
    intro name hname
    have hmem : name ∈ more.foldl addName [] := mem_addNames.mpr (.inr hname)
    rw [h] at hmem
    exact absurd hmem List.not_mem_nil
  · rintro rfl
    rfl

variable {root : JsString}

theorem inv_start (hroot : URL source source = some root) : Inv URL fetch source root
    { names := [], queue := [source], seen := [], pages := 0, sawPaginationMarkup := false, revision := none,
      revisionFrom := js "not available", requests := [] } where
  frontier := by
    show Worklist.Inv _ root [] ([source].filterMap fun href => URL href source)
    rw [List.filterMap_cons_some (f := fun href => URL href source) hroot, List.filterMap_nil]
    exact Worklist.Inv.start
  asked := rfl
  counted := rfl
  once := List.nodup_nil
  limited := Nat.zero_le _
  answered := fun _ h => absurd h List.not_mem_nil
  valid := fun href h => ⟨root, by rw [List.mem_singleton.mp h, hroot]⟩
  named := fun name => iff_of_false List.not_mem_nil fun ⟨_, h, _⟩ => absurd h List.not_mem_nil
  first := fun _ => rfl
  begun := fun h => absurd rfl h
  paginated := iff_of_false Bool.false_ne_true fun ⟨_, h, _⟩ => absurd h List.not_mem_nil

/-- **One turn** keeps all of it. -/
theorem inv_next (hagain : ∀ href base v, URL href base = some v → ∀ base', URL v base' = some v)
    (hroot : URL source source = some root)
    {s t : Crawl} (hs : Inv URL fetch source root s) (h : turn sha256 URL fetch source s =
      .next t) : Inv URL fetch source root t := by
  obtain ⟨next, queue, url, hqueue, hurl, ⟨hseen, rfl⟩ | ⟨hseen, hpages, p, hrefs, hp, hnames, hlinks, rfl⟩⟩ := turn_next h
  all_goals
    have hfrontier := hs.frontier
    rw [hqueue, List.filterMap_cons_some (f := fun href => URL href source) hurl] at hfrontier
    have hvalid := hs.valid
    rw [hqueue] at hvalid
  · have hsome : s.pages ≠ 0 := by
      rw [hs.counted]
      exact fun h => List.not_mem_nil (List.eq_nil_of_length_eq_zero h ▸ hseen)
    exact ⟨hfrontier.skip hseen, hs.asked, hs.counted, hs.once, hs.limited, hs.answered,
      fun href hhref => hvalid href (List.mem_cons_of_mem _ hhref),
      hs.named, fun h => absurd h hsome, hs.begun, hs.paginated⟩
  · obtain ⟨hall, hback⟩ := AllSome.mem_of_mapM hlinks
    -- what is captured is resolved already
    have hfix : ∀ v ∈ hrefs, URL v source = some v := fun v hv => by
      obtain ⟨href, -, hhref⟩ := hback v hv
      exact hagain href source v hhref source
    have hmore : (hrefs.filter (· ∉ s.seen ++ [url])).filterMap (fun href => URL href source) =
      hrefs.filter (· ∉ s.seen ++ [url]) := by
      rw [List.filterMap_congr fun v hv => hfix v (List.mem_filter.mp hv).1, List.filterMap_some]
    have hcaptured : ∀ v, Captured URL fetch source url v ↔ v ∈ hrefs := by
      intro v
      constructor
      · rintro ⟨p', hp', href, hhref, hv⟩
        rw [hp] at hp'
        cases hp'
        obtain ⟨v', hv', heq⟩ := hall href hhref
        rw [hv] at heq
        cases heq
        exact hv'
      · intro hv
        obtain ⟨href, hhref, heq⟩ := hback v hv
        exact ⟨p, hp, href, hhref, heq⟩
    refine ⟨?_, ?_, ?_, ?_, ?_, ?_, ?_, ?_, ?_, ?_, ?_⟩
    · show Worklist.Inv _ root (s.seen ++ [url]) ((queue ++ hrefs.filter (· ∉ s.seen ++ [url])).filterMap
        fun href => URL href source)
      rw [List.filterMap_append, hmore]
      refine hfrontier.visit (fun v hv => (hcaptured v).mpr (List.mem_filter.mp hv).1) fun v hv => ?_
      by_cases hmem : v ∈ s.seen ++ [url]
      · exact .inl hmem
      · exact .inr (List.mem_filter.mpr ⟨(hcaptured v).mp hv, decide_eq_true hmem⟩)
    · exact congrArg (· ++ [url]) hs.asked
    · show s.pages + 1 = (s.seen ++ [url]).length
      rw [List.length_append, hs.counted]
      rfl
    · exact List.nodup_append.mpr ⟨hs.once, List.nodup_singleton _,
        fun a ha b hb heq => hseen (List.mem_singleton.mp hb ▸ heq ▸ ha)⟩
    · exact hpages
    · intro url' hurl'
      rcases List.mem_append.mp hurl' with hurl' | hurl'
      · exact hs.answered url' hurl'
      · rw [List.mem_singleton.mp hurl']
        exact ⟨p, hp, fun href hhref => (hall href hhref).imp fun v hv => hv.2⟩
    · intro href hhref
      rcases List.mem_append.mp hhref with hhref | hhref
      · exact hvalid href (List.mem_cons_of_mem _ hhref)
      · exact ⟨href, hfix href (List.mem_filter.mp hhref).1⟩
    · exact hs.named.page hp
    · exact fun h => absurd h (Nat.succ_ne_zero _)
    · intro _
      by_cases hfirst : s.pages = 0
      · have hstart := hs.first hfirst
        rw [hqueue] at hstart
        cases hstart
        rw [hroot] at hurl
        cases hurl
        refine ⟨p, hp, fun hnone => hnames ⟨hfirst, ?_⟩⟩
        rw [hnone]
        rfl
      · exact hs.begun hfirst
    · show (s.sawPaginationMarkup || PAGINATION_MARKUP p.html) = true ↔ _
      rw [Bool.or_eq_true, hs.paginated]
      constructor
      · rintro (⟨url', hurl', hmarkup⟩ | hmarkup)
        · exact ⟨url', List.mem_append_left _ hurl', hmarkup⟩
        · exact ⟨url, List.mem_append_right _ (List.mem_singleton_self _), p, hp, hmarkup⟩
      · rintro ⟨url', hurl', p', hp', hmarkup⟩
        rcases List.mem_append.mp hurl' with hurl' | hurl'
        · exact .inl ⟨url', hurl', p', hp', hmarkup⟩
        · rw [List.mem_singleton.mp hurl', hp] at hp'
          cases hp'
          exact .inr hmarkup

/-! ## The crawl -/

/-- The loop comes to its end, and what its turns keep holds there. -/
theorem crawl_ends {I : Crawl → Prop}
    (hnext : ∀ s t, I s → turn sha256 URL fetch source s = .next t → I t) (s : Crawl) (hs : I s) :
    ∃ t, I t ∧ turn sha256 URL fetch source t = .ended (crawl sha256 URL fetch source s).1
      (crawl sha256 URL fetch source s).2 := by
  induction s using crawl.induct sha256 URL fetch source with
  | case1 s requests result hturn =>
    refine ⟨s, hs, ?_⟩
    rw [hturn, crawl]
    split
    · rename_i hended
      rw [hturn] at hended
      cases hended
      rfl
    · rename_i hended
      rw [hturn] at hended
      cases hended
  | case2 s t hturn ih =>
    obtain ⟨u, hu, hended⟩ := ih (hnext s t hs hturn)
    refine ⟨u, hu, ?_⟩
    rw [hended, crawl.eq_def sha256 URL fetch source s]
    split
    · rename_i hended
      rw [hturn] at hended
      cases hended
    · rename_i hended
      rw [hturn] at hended
      cases hended
      rfl

/-- At the end of a crawl: all that can be reached has been asked for, or there was a failure, which is told as such. -/
theorem Inv.ended {s : Crawl} (hs : Inv URL fetch source root s) {requests : List JsString} {result : Option Catalogue}
    (h : turn sha256 URL fetch source s = .ended requests result) :
    requests.length ≤ MAX_PAGES ∧ (∀ c, result = some c → Names fetch c.models requests) ∧
      ∀ c, result = some c → c.complete = true → s.queue = [] ∧ s.sawPaginationMarkup = true ∧ ∀ url, url ∈ requests ↔
        Reach URL fetch source root url := by
  have hlength : s.requests.length = s.pages := by rw [hs.asked, hs.counted]
  have hmodels : Names fetch s.models s.requests := fun name => mem_models.trans (hs.named name)
  rcases turn_ended h with ⟨hqueue, rfl, rfl⟩ | ⟨next, queue, hqueue, ⟨-, rfl, rfl⟩ | ⟨url, hurl, hseen, hcases⟩⟩
  · refine ⟨hlength ▸ hs.limited, fun c hc => ?_, fun c hc hcomplete => ?_⟩
    · cases hc
      exact hmodels
    · cases hc
      refine ⟨hqueue, hcomplete, fun url => ?_⟩
      have hfrontier := hs.frontier
      rw [hqueue, List.filterMap_nil] at hfrontier
      rw [hs.asked]
      exact hfrontier.seen_iff
  · exact ⟨hlength ▸ hs.limited, fun c hc => (by cases hc), fun c hc => (by cases hc)⟩
  · rcases hcases with ⟨-, rfl, hfail⟩ | ⟨hpages, rfl, ⟨hno, hfail⟩ | ⟨p, hp, hfail, -⟩⟩
    · refine ⟨hlength ▸ hs.limited, fun c hc => ?_, fun c hc hcomplete => ?_⟩
      · rw [(hfail c hc).1]
        exact hmodels
      · rw [(hfail c hc).2] at hcomplete
        cases hcomplete
    all_goals
      have hlimit : (s.requests ++ [url]).length ≤ MAX_PAGES := by
        rw [List.length_append, hlength]
        exact hpages
      refine ⟨hlimit, fun c hc => ?_, fun c hc hcomplete => ?_⟩
    · rw [(hfail c hc).1]
      exact fun name => mem_models.trans (hs.named.failed hno name)
    · rw [(hfail c hc).2] at hcomplete
      cases hcomplete
    · rw [(hfail c hc).1]
      exact fun name => mem_models.trans (hs.named.page hp name)
    · rw [(hfail c hc).2] at hcomplete
      cases hcomplete

/-- Where the pages can be exhausted, nothing fails before they are. -/
theorem Inv.exhausted (hroot : URL source source = some root) (hex : Exhaustible URL fetch source root) {s : Crawl}
    (hs : Inv URL fetch source root s) {requests : List JsString} {result : Option Catalogue}
    (h : turn sha256 URL fetch source s = .ended requests result) : ∃ c, result = some c ∧ c.complete = true := by
  rcases turn_ended h with ⟨hqueue, -, rfl⟩ | ⟨next, queue, hqueue, hcases⟩
  · obtain ⟨url, p, hreach, hp, hmarkup⟩ := hex.paginated
    have hfrontier := hs.frontier
    rw [hqueue, List.filterMap_nil] at hfrontier
    exact ⟨s.verdict source, rfl, hs.paginated.mpr ⟨url, hfrontier.seen_iff.mpr hreach, p, hp, hmarkup⟩⟩
  exfalso
  rcases hcases with ⟨hurl, -, -⟩ | ⟨url, hurl, hseen, hcases⟩
  · obtain ⟨v, hv⟩ := hs.valid next (hqueue ▸ List.mem_cons_self)
    rw [hurl] at hv
    cases hv
  have hfrontier := hs.frontier
  rw [hqueue, List.filterMap_cons_some (f := fun href => URL href source) hurl] at hfrontier
  have hreach : Reach URL fetch source root url := hfrontier.reached url (.inr List.mem_cons_self)
  obtain ⟨p, hp, hvalid⟩ := hex.answers url hreach
  rcases hcases with ⟨hpages, -, -⟩ | ⟨-, -, ⟨hno, -⟩ | ⟨p', hp', -, hfault⟩⟩
  · -- one page more than there are
    obtain ⟨l, hl, hmem⟩ := hex.few
    have hnodup : (s.seen ++ [url]).Nodup :=
      List.nodup_append.mpr ⟨hs.once, List.nodup_singleton _,
        fun a ha b hb heq => hseen (List.mem_singleton.mp hb ▸ heq ▸ ha)⟩
    have hsub : s.seen ++ [url] ⊆ l := fun a ha => by
      rcases List.mem_append.mp ha with ha | ha
      · exact hmem a (hfrontier.reached a (.inl ha))
      · exact List.mem_singleton.mp ha ▸ hmem url hreach
    have hle := (List.subperm_of_subset hnodup hsub).length_le
    rw [List.length_append, ← hs.counted] at hle
    exact absurd (hle.trans hl) (Nat.not_le_of_lt (Nat.lt_succ_of_le hpages))
  · exact hno p hp
  · rw [hp] at hp'
    cases hp'
    rcases hfault with ⟨hpages, hnames⟩ | ⟨href, hhref, hnone⟩
    · have hstart := hs.first hpages
      rw [hqueue] at hstart
      cases hstart
      rw [hroot] at hurl
      cases hurl
      obtain ⟨p', hp', hsome⟩ := hex.named
      rw [hp] at hp'
      cases hp'
      have hzero : ((matchAll LINK 0 p.html).foldl addName s.names).length = s.names.length := hnames
      rw [hs.names_nil hpages] at hzero
      exact hsome (length_addNames_iff.mp hzero)
    · obtain ⟨v, hv⟩ := hvalid href hhref
      rw [hnone] at hv
      cases hv

section
variable (fetch sha256)
variable (hagain : ∀ href base v, URL href base = some v → ∀ base', URL v base' = some v)
include hagain

/-- The crawl ends, in a state that has all of it. -/
theorem fetchCatalog_ends (hroot : URL source source = some root) : ∃ s, Inv URL fetch source root s ∧
    turn sha256 URL fetch source s = .ended (fetchCatalog sha256 URL fetch source).1
      (fetchCatalog sha256 URL fetch source).2 :=
  crawl_ends (fun _ _ hs h => inv_next hagain hroot hs h) _ (inv_start hroot)

/-- **A catalogue is reported as complete** exactly if the pages can be exhausted; and then they have been. -/
theorem complete_iff (hroot : URL source source = some root) :
    (∃ c, (fetchCatalog sha256 URL fetch source).2 = some c ∧ c.complete = true) ↔ Exhaustible URL fetch source root := by
  obtain ⟨s, hs, hended⟩ := fetchCatalog_ends fetch sha256 hagain hroot
  constructor
  · rintro ⟨c, hc, hcomplete⟩
    obtain ⟨hlimit, -, hall⟩ := hs.ended hended
    obtain ⟨hqueue, hmarkup, -⟩ := hall c hc hcomplete
    have hfrontier := hs.frontier
    rw [hqueue, List.filterMap_nil] at hfrontier
    have hpages : s.pages ≠ 0 := fun h => by
      have hstart := hs.first h
      rw [hqueue] at hstart
      cases hstart
    obtain ⟨url, hurl, p, hp, hpagination⟩ := hs.paginated.mp hmarkup
    exact
      { few := ⟨s.seen, hs.counted ▸ hs.limited, fun url => hfrontier.seen_iff.mpr⟩
        answers := fun url hreach => hs.answered url (hfrontier.seen_iff.mpr hreach)
        named := hs.begun hpages
        paginated := ⟨url, p, hfrontier.seen_iff.mp hurl, hp, hpagination⟩ }
  · exact fun hex => hs.exhausted hroot hex hended

/-! ## The law -/

/-- **What the crawl tells** is true exactly if, where the pages can be exhausted, the links to next pages on them lead to pages that
can be reached by captures. -/
theorem truthful_iff : Truthful URL fetch (fetchCatalog sha256 URL fetch source) ↔
    ∀ root, URL source source = some root → Exhaustible URL fetch source root → ∀ url, Reach URL fetch source root url →
      ∀ p, fetch url = .page p → ∀ href ∈ nextLinks p.html, ∀ v, URL href url = some v → Reach URL fetch source root v := by
  cases hroot : URL source source with
  | none =>
    have hnone : fetchCatalog sha256 URL fetch source = ([], none) := by
      unfold fetchCatalog
      rw [crawl]
      split
      · rename_i hended
        unfold turn at hended
        simp only [hroot] at hended
        cases hended
        rfl
      · rename_i hended
        unfold turn at hended
        simp only [hroot] at hended
        cases hended
    refine iff_of_true ?_ fun root h => by cases h
    rw [hnone]
    exact ⟨Nat.zero_le _, fun c hc => (by cases hc), fun c hc => (by cases hc)⟩
  | some root =>
    obtain ⟨s, hs, hended⟩ := fetchCatalog_ends fetch sha256 hagain hroot
    obtain ⟨hlimit, hunion, hall⟩ := hs.ended hended
    constructor
    · intro htrue root' hroot' hex url hreach p hp href hhref v hv
      cases hroot'
      obtain ⟨c, hc, hcomplete⟩ := (complete_iff fetch sha256 hagain hroot).mpr hex
      obtain ⟨-, -, hmem⟩ := hall c hc hcomplete
      exact (hmem v).mp (htrue.followed c hc hcomplete url ((hmem url).mpr hreach) p hp href hhref v hv)
    · intro h
      refine ⟨hlimit, hunion, fun c hc hcomplete url hurl p hp href hhref v hv => ?_⟩
      obtain ⟨-, -, hmem⟩ := hall c hc hcomplete
      have hex := (complete_iff fetch sha256 hagain hroot).mp ⟨c, hc, hcomplete⟩
      exact (hmem v).mpr (h root rfl hex url ((hmem url).mp hurl) p hp href hhref v hv)

end
end

/-! ## A site -/

/-- URLs of one site. -/
def resolved (href _base : JsString) : Option JsString :=
  if js "https://" <+: href then some href
  else if js "/" <+: href then some (js "https://ollama.com" ++ href)
  else none

theorem resolved_again (href base v : JsString) (h : resolved href base = some v) (base' : JsString) :
    resolved v base' = some v := by
  have hprefix : js "https://" <+: v := by
    unfold resolved at h
    split at h
    · rename_i hhref
      cases h
      exact hhref
    · split at h
      · cases h
        exact ⟨js "ollama.com" ++ href, rfl⟩
      · cases h
  exact if_pos hprefix

/-- The library, and what it has on its second page. -/
def site (first second : String) (url : JsString) : Response :=
  if url = js "https://ollama.com/library" then .page ⟨js first, none, none⟩
  else if url = js "https://ollama.com/library?page=2" then .page ⟨js second, none, none⟩
  else .answered 404

def linked : JsString → Response :=
  site "<a href=\"/library/llama\"></a><a rel=\"next\" href=\"/library?page=2\"></a>"
    "<a href=\"/library/phi\"></a><a rel=\"prev\" href=\"/library\"></a>"

theorem truthful_linked : Truthful resolved linked
    (fetchCatalog (fun _ => none) resolved linked (js "https://ollama.com/library")) := by
  refine (truthful_iff linked (fun _ => none) resolved_again).mpr ?_
  intro root hroot _ url hreach p hp href hhref v hv
  have hroot : js "https://ollama.com/library" = root := Option.some.inj hroot
  subst hroot
  have hcaptured : Captured resolved linked (js "https://ollama.com/library") (js "https://ollama.com/library")
      (js "https://ollama.com/library?page=2") := ⟨_, rfl, js "/library?page=2", by decide +kernel, rfl⟩
  by_cases hfirst : url = js "https://ollama.com/library"
  · subst hfirst
    cases hp
    have hlinks : nextLinks (js "<a href=\"/library/llama\"></a><a rel=\"next\" href=\"/library?page=2\"></a>") =
      [js "/library?page=2"] := by
      decide +kernel
    rw [hlinks] at hhref
    rw [List.mem_singleton.mp hhref] at hv
    cases hv
    exact .single hcaptured
  · by_cases hsecond : url = js "https://ollama.com/library?page=2"
    · subst hsecond
      cases hp
      have hlinks : nextLinks (js "<a href=\"/library/phi\"></a><a rel=\"prev\" href=\"/library\"></a>") =
        [] := by decide +kernel
      rw [hlinks] at hhref
      exact absurd hhref List.not_mem_nil
    · unfold linked site at hp
      rw [if_neg hfirst, if_neg hsecond] at hp
      cases hp

/-- The next page has a path of its own. -/
def pathed : JsString → Response :=
  site "<a href=\"/library/llama\"></a><a rel=\"next\" href=\"/library/page/2\"></a>" ""

theorem page_left : ¬ Truthful resolved pathed
    (fetchCatalog (fun _ => none) resolved pathed (js "https://ollama.com/library")) := by
  intro h
  have hcaptures : matchAll NEXT_PAGE 0
    (js "<a href=\"/library/llama\"></a><a rel=\"next\" href=\"/library/page/2\"></a>") = [] := by
    decide +kernel
  have hreach : ∀ url, Reach resolved pathed (js "https://ollama.com/library") (js "https://ollama.com/library") url →
      url = js "https://ollama.com/library" := by
    intro url hurl
    induction hurl with
    | refl => rfl
    | tail _ hedge ih =>
      obtain ⟨p, hp, href, hhref, -⟩ := hedge
      rw [ih] at hp
      cases hp
      rw [hcaptures] at hhref
      exact absurd hhref List.not_mem_nil
  have hex : Exhaustible resolved pathed (js "https://ollama.com/library") (js "https://ollama.com/library") :=
    { few := ⟨[js "https://ollama.com/library"], by decide, fun url hurl => List.mem_singleton.mpr (hreach url hurl)⟩
      answers := fun url hurl => by
        rw [hreach url hurl]
        refine ⟨_, rfl, fun href hhref => ?_⟩
        rw [hcaptures] at hhref
        exact absurd hhref List.not_mem_nil
      named := ⟨_, rfl, by decide +kernel⟩
      paginated := ⟨_, _, .refl, rfl, by decide +kernel⟩ }
  have hroot : resolved (js "https://ollama.com/library") (js "https://ollama.com/library") =
    some (js "https://ollama.com/library") := rfl
  obtain ⟨s, hs, hended⟩ := fetchCatalog_ends pathed (fun _ => none) resolved_again hroot
  obtain ⟨c, hc, hcomplete⟩ := (complete_iff pathed (fun _ => none) resolved_again hroot).mpr hex
  obtain ⟨-, -, hall⟩ := hs.ended hended
  obtain ⟨-, -, hrequests⟩ := hall c hc hcomplete
  -- the page is linked to, and was not asked for
  have hmem := h.followed c hc hcomplete (js "https://ollama.com/library") ((hrequests _).mpr .refl)
    _ rfl (js "/library/page/2")
    (by decide +kernel) (js "https://ollama.com/library/page/2") rfl
  exact absurd (hreach _ ((hrequests _).mp hmem)) (by decide)

example : nextLinks (js "<a class=x href=\"/library/page/2\" rel=\"next\">2</a><a href='?page=3'>") =
  [js "/library/page/2", js "?page=3"] := by
  decide +kernel

end Ollama
end MaterialOpenWebui
