import Mathlib.Data.List.Infix
import Mathlib.Data.List.Sort
import MaterialOpenWebui.Js.Text

/-!
# `Ollama.Catalogue` — the published catalogue (`app/js/core/ollama.js`)

`fetchCatalog` reads the names of models off a page and follows the links to further pages. That there are such links it knows by
one pattern, and which they are by another.

How URLs are resolved, what the network answers and the digests are given, and so are the clock and the cache left out.
-/

namespace MaterialOpenWebui
namespace Ollama
open Js

/-! ## Patterns -/

def lower (u : UInt16) : UInt16 := if 0x41 ≤ u ∧ u ≤ 0x5a then u + 0x20 else u

def quote : UInt16 := 0x22

/-- What follows a text, in whatever case it is written. -/
def after (text : String) (s : JsString) : Option JsString :=
  if (s.take (js text).length).map lower = js text then some (s.drop (js text).length) else none

/-- A match: what it captures, and how much of the text it takes, less one. -/
abbrev Pattern := JsString → Option (JsString × Nat)

/-- `[...text.matchAll(pattern)].map((m) => m[1])`, when a match has so much more to take. -/
def matchAll (pattern : Pattern) : Nat → JsString → List JsString
  | _, [] => []
  | n + 1, _ :: s => matchAll pattern n s
  | 0, u :: s =>
    match pattern (u :: s) with
    | some found => found.1 :: matchAll pattern found.2 s
    | none => matchAll pattern 0 s

/-- `[a-z0-9]`, in any case -/
def isAlnum (u : UInt16) : Bool := (0x30 ≤ u && u ≤ 0x39) || (0x61 ≤ lower u && lower u ≤ 0x7a)

/-- `[a-z0-9._-]`, in any case -/
def isNameUnit (u : UInt16) : Bool := isAlnum u || u == 0x2e || u == 0x5f || u == 0x2d

/-- `/href="\/library\/([a-z0-9][a-z0-9._-]*)"/gi` -/
def LINK : Pattern := fun s =>
  (after "href=\"/library/" s).bind fun rest =>
    let name := rest.takeWhile isNameUnit
    if (name.head?.any isAlnum) ∧ (rest.drop name.length).head? = some quote then
      some (name, (js "href=\"/library/").length + name.length)
    else none

/-- `[^"]*page=\d+[^"]*` -/
def hasPageNumber : JsString → Bool
  | [] => false
  | u :: s => ((after "page=" (u :: s)).any fun rest => rest.head?.any fun d => 0x30 ≤ d && d ≤ 0x39) || hasPageNumber s

/-- `/href="(\/library\?[^"]*page=\d+[^"]*)"/gi` -/
def NEXT_PAGE : Pattern := fun s =>
  (after "href=\"" s).bind fun value =>
    (after "/library?" value).bind fun rest =>
      let query := rest.takeWhile (· ≠ quote)
      if hasPageNumber query ∧ (rest.drop query.length).head? = some quote then
        some (value.take ((js "/library?").length + query.length), (js "href=\"/library?").length + query.length)
      else none

/-- `/(rel="next"|aria-label="[Pp]agination"|\?page=)/` -/
def PAGINATION_MARKUP (s : JsString) : Bool :=
  ["rel=\"next\"", "aria-label=\"Pagination\"", "aria-label=\"pagination\"", "?page="].any fun text => decide (js text <:+: s)

def MAX_PAGES : Nat := 40

/-! ## Answers -/

structure Page where
  html : JsString
  etag : Option JsString
  modified : Option JsString

inductive Response where
  /-- `fetch` throws. -/
  | unreachable (message : JsString)
  | answered (status : Nat)
  /-- `res.text()` throws. -/
  | broken
  | page (p : Page)

section
variable (sha256 : JsString → Option JsString)

/-- `etag.replace(/^W\//, '').replace(/"/g, '')` -/
def plainTag (etag : JsString) : JsString := (if js "W/" <+: etag then etag.drop 2 else etag).filter (· ≠ quote)

def revisionOf (p : Page) : Option JsString × JsString :=
  match p.etag.filter (· ≠ []), p.modified.filter (· ≠ []), sha256 p.html with
  | some etag, _, _ => (some (plainTag etag), js "ETag")
  | none, some modified, _ => (some modified, js "Last-Modified")
  | none, none, some hex => (some (hex.take 16), js "SHA-256 of the page")
  | none, none, none => (none, js "not available")

/-! ## The crawl -/

structure Catalogue where
  models : List JsString
  pages : Nat
  completeness : JsString
  complete : Bool
  basis : Option JsString
  failure : Option JsString
  revision : Option JsString
  revisionFrom : JsString
  source : JsString

structure Crawl where
  names : List JsString
  queue : List JsString
  seen : List JsString
  pages : Nat
  sawPaginationMarkup : Bool
  revision : Option JsString
  revisionFrom : JsString
  /-- What has been asked of the network. -/
  requests : List JsString

def addName (names : List JsString) (name : JsString) : List JsString := if name ∈ names then names else names ++ [name]

def Crawl.models (s : Crawl) : List JsString := s.names.insertionSort (· ≤ ·)

def Crawl.fail (s : Crawl) (source reason : JsString) : Catalogue :=
  { models := s.models, pages := s.pages, completeness := js "incomplete", complete := false, basis :=
    none, failure := some reason,
    revision := s.revision, revisionFrom := s.revisionFrom, source }

def Crawl.verdict (s : Crawl) (source : JsString) : Catalogue :=
  { models := s.models, pages := s.pages
    completeness := if s.sawPaginationMarkup then js "complete" else js "unverified"
    complete := s.sawPaginationMarkup
    basis := some (if s.sawPaginationMarkup then
        js "Followed every page the source linked to, and the last one linked to no further pages."
      else js "The source carried no pagination markup this parser recognises, so it cannot confirm whether more pages exist. Everything on the page it did read is here.")
    failure := none, revision := s.revision, revisionFrom := s.revisionFrom, source }

/-- What is taken from a page, its links apart. -/
def Crawl.read (s : Crawl) (p : Page) : Crawl :=
  { s with
    pages := s.pages + 1
    revision := if s.pages = 0 then (revisionOf sha256 p).1 else s.revision
    revisionFrom := if s.pages = 0 then (revisionOf sha256 p).2 else s.revisionFrom
    names := (matchAll LINK 0 p.html).foldl addName s.names }

variable (URL : JsString → JsString → Option JsString) (fetch : JsString → Response) (source : JsString)

/-- How a turn of the loop goes on; a result is missing where it throws. -/
inductive Turn where
  | ended (requests : List JsString) (result : Option Catalogue)
  | next (s : Crawl)

/-- A page has come that has not been seen. -/
def Crawl.visit (s : Crawl) (p : Page) : Turn :=
  let t := s.read sha256 p
  if s.pages = 0 ∧ t.names.length = s.names.length then
    .ended t.requests (some
      (t.fail source (js "The catalogue page loaded but no model links could be read from it, which means its markup changed and this parser needs updating.")))
  else
    match (matchAll NEXT_PAGE 0 p.html).mapM fun href => URL href source with
    | none => .ended t.requests none
    | some hrefs => .next { t with
        sawPaginationMarkup := t.sawPaginationMarkup || PAGINATION_MARKUP p.html
        queue := t.queue ++ hrefs.filter (· ∉ t.seen) }

/-- One turn of the loop. -/
def turn (s : Crawl) : Turn :=
  match s.queue with
  | [] => .ended s.requests (some (s.verdict source))
  | next :: queue =>
    match URL next source with
    | none => .ended s.requests none
    | some url =>
      if url ∈ s.seen then .next { s with queue }
      else
        let s := { s with queue, seen := s.seen ++ [url] }
        if MAX_PAGES ≤ s.pages then
          .ended s.requests (some (s.fail source (js "Stopped after " ++ natText MAX_PAGES ++
            js " pages. The catalogue may go further; this is a bound on the request, not the end of the list.")))
        else
          let s := { s with requests := s.requests ++ [url] }
          match fetch url with
          | .unreachable message => .ended s.requests
            (some (s.fail source (js "The catalogue could not be reached: " ++ message)))
          | .answered status => .ended s.requests (some (s.fail source
              (js "The catalogue page answered " ++ natText status ++ js " for " ++ url ++ js ".")))
          | .broken => .ended s.requests none
          | .page p => s.visit sha256 URL source p

variable {sha256 URL fetch source}

/-- **A turn that goes on** has either seen the page before or read it and its links. -/
theorem turn_next {s t : Crawl} (h : turn sha256 URL fetch source s = .next t) :
    ∃ next queue url, s.queue = next :: queue ∧ URL next source = some url ∧
      (url ∈ s.seen ∧ t = { s with queue } ∨
        url ∉ s.seen ∧ s.pages < MAX_PAGES ∧ ∃ p hrefs, fetch url = .page p ∧
          ¬ (s.pages = 0 ∧ ((matchAll LINK 0 p.html).foldl addName s.names).length = s.names.length) ∧
          ((matchAll NEXT_PAGE 0 p.html).mapM fun href => URL href source) = some hrefs ∧
          t = { Crawl.read sha256 { s with queue, seen := s.seen ++ [url], requests := s.requests ++ [url] } p with
            sawPaginationMarkup := s.sawPaginationMarkup || PAGINATION_MARKUP p.html
            queue := queue ++ hrefs.filter (· ∉ s.seen ++ [url]) }) := by
  unfold turn at h
  cases hqueue : s.queue with
  | nil =>
    rw [hqueue] at h
    cases h
  | cons next queue =>
    simp only [hqueue] at h
    cases hurl : URL next source with
    | none =>
      rw [hurl] at h
      cases h
    | some url =>
      simp only [hurl] at h
      refine ⟨next, queue, url, rfl, hurl, ?_⟩
      by_cases hseen : url ∈ s.seen
      · rw [if_pos hseen] at h
        cases h
        exact .inl ⟨hseen, rfl⟩
      · rw [if_neg hseen] at h
        by_cases hpages : MAX_PAGES ≤ s.pages
        · rw [if_pos hpages] at h
          cases h
        · rw [if_neg hpages] at h
          cases hfetch : fetch url with
          | page p =>
            simp only [hfetch] at h
            unfold Crawl.visit at h
            by_cases hnone : s.pages = 0 ∧ ((matchAll LINK 0 p.html).foldl addName s.names).length = s.names.length
            · simp only [Crawl.read] at h
              rw [if_pos hnone] at h
              cases h
            · simp only [Crawl.read] at h
              rw [if_neg hnone] at h
              cases hlinks : (matchAll NEXT_PAGE 0 p.html).mapM fun href => URL href source with
              | none =>
                rw [hlinks] at h
                cases h
              | some hrefs =>
                rw [hlinks] at h
                cases h
                exact .inr ⟨hseen, Nat.lt_of_not_le hpages, p, hrefs, rfl, hnone, hlinks, rfl⟩
          | _ =>
            rw [hfetch] at h
            cases h

/-- Pages are read at most so often, and in between the queue gets shorter. -/
theorem turn_decreases {s t : Crawl} (h : turn sha256 URL fetch source s = .next t) :
    Prod.Lex (· < ·) (· < ·) (MAX_PAGES - t.pages, t.queue.length) (MAX_PAGES - s.pages, s.queue.length) := by
  obtain ⟨next, queue, url, hqueue, -, ⟨-, rfl⟩ | ⟨-, hpages, p, hrefs, -, -, -, rfl⟩⟩ := turn_next h
  · refine .right _ ?_
    show queue.length < s.queue.length
    rw [hqueue]
    exact Nat.lt_succ_self _
  · refine .left _ _ ?_
    show MAX_PAGES - (s.pages + 1) < MAX_PAGES - s.pages
    omega

variable (sha256 URL fetch source)

/-- The loop. -/
def crawl (s : Crawl) : List JsString × Option Catalogue :=
  match _h : turn sha256 URL fetch source s with
  | .ended requests result => (requests, result)
  | .next t => crawl t
termination_by (MAX_PAGES - s.pages, s.queue.length)
decreasing_by exact turn_decreases _h

/-- The requests, and the result where nothing throws. -/
def fetchCatalog : List JsString × Option Catalogue :=
  crawl sha256 URL fetch source
    { names := [], queue := [source], seen := [], pages := 0, sawPaginationMarkup := false, revision := none,
      revisionFrom := js "not available", requests := [] }


end

end Ollama
end MaterialOpenWebui
