import MaterialOpenWebui.Js.Radix
import MaterialOpenWebui.Js.Value
import MaterialOpenWebui.Lib.StableSort
import Mathlib.Algebra.Order.Ring.Rat

/-!
# `Tabs.Model` — the tab model (`docs/assets/js/tabs.js`)

A model holds the tabs of the strip in the order they are shown, the groups, the active tab and the dock.
Every operation returns a new model; what else it returns (an error, a refusal, what it closed) is in its
`Outcome`. `normalise` repairs a model read from disk and so takes any value.

Identifiers are minted from a counter and from `Math.random()`. The counter is part of the `Mint`; the
random draws are the parameter `random`, whose `n`-th text is what `Math.random().toString(36)` has after
`0.` on the `n`-th draw.
-/

namespace MaterialOpenWebui
namespace Tabs
open Js

/-! ## The data -/

def maxTabs : Nat := 200
def maxGroups : Nat := 24
def maxNameLength : Nat := 60

inductive Dock where
  | left
  | right
  | top
  | bottom
deriving DecidableEq

def Dock.ofText (s : JsString) : Option Dock :=
  if s = js "left" then some .left
  else if s = js "right" then some .right
  else if s = js "top" then some .top
  else if s = js "bottom" then some .bottom
  else none

def defaultDock : Dock := .left

inductive GroupColour where
  | grape
  | sage
  | rose
  | slate
  | clay
deriving DecidableEq

def GroupColour.ofText (s : JsString) : Option GroupColour :=
  if s = js "grape" then some .grape
  else if s = js "sage" then some .sage
  else if s = js "rose" then some .rose
  else if s = js "slate" then some .slate
  else if s = js "clay" then some .clay
  else none

structure Tab where
  id : JsString
  page : JsString
  pinned : Bool
  group : Option JsString
deriving DecidableEq

structure Group where
  id : JsString
  name : JsString
  colour : GroupColour
  collapsed : Bool
  order : ℚ
deriving DecidableEq

structure Model where
  tabs : List Tab
  groups : List Group
  activeTab : JsString
  dock : Dock
deriving DecidableEq

/-! ## Identifiers -/

/-- How many tab identifiers were minted, and how many random numbers drawn. -/
structure Mint where
  counter : Nat
  draws : Nat
deriving DecidableEq

section
variable (random : Nat → JsString)

/-- The identifier `idFor()` returns next. -/
def nextId (mint : Mint) : JsString :=
  js "tb-" ++ radix36 (mint.counter + 1) ++ js "-" ++ (random mint.draws).take 5

def Mint.advance (mint : Mint) : Mint := ⟨mint.counter + 1, mint.draws + 1⟩

/-- The identifier `createGroup` draws next. -/
def nextGroupId (mint : Mint) : JsString := js "gp-" ++ (random mint.draws).take 6

def Mint.draw (mint : Mint) : Mint := { mint with draws := mint.draws + 1 }

/-! ## The strip order -/

/-- `groupOrder.get(id)`: of several groups with one id the last counts. -/
def groupOrder (groups : List Group) (id : JsString) : Option ℚ :=
  (groups.filter (fun g => g.id = id)).getLast?.map Group.order

def maxSafeInteger : ℚ := 9007199254740991

/-- Where a tab stands. A group with the empty id is no group here: `if (t.group)` is false of it. -/
def rank (groups : List Group) (t : Tab) : ℚ :=
  if t.pinned then -1
  else
    match t.group with
    | none => maxSafeInteger
    | some g => if g = [] then maxSafeInteger else (groupOrder groups g).getD 0

/-- The strip order: pinned first, then each group in turn, then the ungrouped; ties as they were. -/
def ordered (tabs : List Tab) (groups : List Group) : List Tab := StableSort.sortOn (rank groups) tabs

/-! ## A model read from disk -/

def empty (mint : Mint) (firstPage : JsString) : Model × Mint :=
  ({ tabs := [⟨nextId random mint, firstPage, false, none⟩]
     groups := []
     activeTab := nextId random mint
     dock := defaultDock }, mint.advance)

/-- `model && typeof model === 'object' ? model : {}`. -/
def sourceOf (model : JsValue) : JsValue := if model.isObject then model else .obj []

/-- The groups `normalise` reads: the first `maxGroups`, less what is no group. -/
def storedGroups (source : JsValue) : List JsValue :=
  ((source.get (js "groups")).elemsOrNil.take maxGroups).filter
    (fun g => g.truthy && (g.get (js "id")).asStr.isSome)

def colourOf (v : JsValue) : GroupColour := (v.asStr.bind GroupColour.ofText).getD .grape

/-- `Number.isFinite(g.order) ? g.order : i`. -/
def orderOf (g : JsValue) (i : Nat) : ℚ :=
  match g.get (js "order") with
  | .num (.finite d) => d.toRat
  | _ => i

def idOf (v : JsValue) : JsString := (v.get (js "id")).asStr.getD []

/-- `none` where `String(g.name)` throws. -/
def readGroup (g : JsValue) (i : Nat) : Option Group :=
  (((g.get (js "name")).or (.str (js "Group"))).toStr).map (fun name =>
    { id := idOf g
      name := name.take maxNameLength
      colour := colourOf (g.get (js "colour"))
      collapsed := (g.get (js "collapsed")).isTrue
      order := orderOf g i })

/-- The tabs `normalise` reads: the first `maxTabs`, less what is no tab and what shows no known page. -/
def storedTabs (source : JsValue) (knownPages : Option (List JsString)) : List JsValue :=
  ((source.get (js "tabs")).elemsOrNil.take maxTabs).filter (fun t =>
    t.truthy &&
      match (t.get (js "page")).asStr with
      | none => false
      | some page =>
        match knownPages with
        | none => true
        | some known => page ∈ known)

/-- `groupIds.has(t.group) ? t.group : null`. -/
def groupOf (groupIds : List JsString) (t : JsValue) : Option JsString :=
  match (t.get (js "group")).asStr with
  | some g => if g ∈ groupIds then some g else none
  | none => none

def readTab (groupIds : List JsString) (mint : Mint) (t : JsValue) : Tab × Mint :=
  let rest (id : JsString) : Tab :=
    { id := id
      page := ((t.get (js "page")).asStr).getD []
      pinned := (t.get (js "pinned")).isTrue
      group := groupOf groupIds t }
  if idOf t = [] then (rest (nextId random mint), mint.advance) else (rest (idOf t), mint)

def readTabs (groupIds : List JsString) : Mint → List JsValue → List Tab × Mint
  | mint, [] => ([], mint)
  | mint, t :: ts =>
    let (tab, mint) := readTab random groupIds mint t
    let (tabs, mint) := readTabs groupIds mint ts
    (tab :: tabs, mint)

/-- Identifiers must be unique or selection becomes ambiguous: one that was seen is minted anew. -/
def withUniqueIds : List JsString → Mint → List Tab → List Tab × Mint
  | _, mint, [] => ([], mint)
  | seen, mint, t :: ts =>
    if t.id ∈ seen then
      let (tabs, mint') := withUniqueIds seen mint.advance ts
      ({ t with id := nextId random mint } :: tabs, mint')
    else
      let (tabs, mint') := withUniqueIds (t.id :: seen) mint ts
      (t :: tabs, mint')

/-- The page a model without tabs opens on. -/
def firstPage (knownPages : Option (List JsString)) (defaultPage : Option JsString) : JsString :=
  let fallback :=
    match knownPages with
    | some (page :: _) => if page = [] then js "ollama" else page
    | _ => js "ollama"
  match defaultPage with
  | none => fallback
  | some page =>
    if page = [] then fallback
    else
      match knownPages with
      | none => page
      | some known => if page ∈ known then page else fallback

def dockOf (v : JsValue) : Dock := (v.asStr.bind Dock.ofText).getD defaultDock

/-- Repairs a model read from disk; `none` where it throws. -/
def normalise (mint : Mint) (model : JsValue) (knownPages : Option (List JsString))
    (defaultPage : Option JsString) : Option (Model × Mint) :=
  let source := sourceOf model
  match ((storedGroups source).zipIdx.mapM (fun g => readGroup g.1 g.2)) with
  | none => none
  | some groups =>
    let (tabs, mint) := readTabs random (groups.map Group.id) mint (storedTabs source knownPages)
    match tabs with
    | [] =>
      -- nothing to show: a new strip, on which only the dock is as stored
      let (model, mint) := empty random mint (firstPage knownPages defaultPage)
      some ({ model with dock := dockOf (source.get (js "dock")) }, mint)
    | first :: rest =>
      let (tabs, mint) := withUniqueIds random [] mint (first :: rest)
      let active := (source.get (js "activeTab")).asStr
      some
        ({ tabs := ordered tabs groups
           groups := StableSort.sortOn Group.order groups
           activeTab :=
             match active with
             | some id => if id ∈ tabs.map Tab.id then id else (tabs.head?.map Tab.id).getD []
             | none => (tabs.head?.map Tab.id).getD []
           dock := dockOf (source.get (js "dock")) }, mint)

/-! ## Operations -/

/-- What an operation returns: the model, and whatever else the one operation has to say. -/
structure Outcome where
  model : Model
  error : Option JsString := none
  refused : Option JsString := none
  opened : Option Tab := none
  closed : Option Nat := none
  wouldClose : Option Nat := none
  closedTabs : Option (List Tab) := none
  group : Option Group := none
  released : Option Nat := none

/-- `open(model, page)`. -/
def openTab (mint : Mint) (model : Model) (page : JsString) : Outcome × Mint :=
  if model.tabs.length ≥ maxTabs then
    ({ model := model, error := some (js "That is already 200 tabs, which is the limit.") }, mint)
  else
    let tab : Tab := ⟨nextId random mint, page, false, none⟩
    ({ model := { model with tabs := ordered (model.tabs ++ [tab]) model.groups, activeTab := tab.id }
       opened := some tab }, mint.advance)

end

/-- The tab to select when the one at `index` closes: the next one, else the one before. -/
def neighbour (tabs : List Tab) (index : Nat) : Option Tab :=
  match tabs[index + 1]? with
  | some t => some t
  | none => if index = 0 then none else tabs[index - 1]?

/-- Closes a tab and chooses what to select next. -/
def close (model : Model) (id : JsString) : Outcome :=
  if model.tabs.length ≤ 1 then
    { model := model, refused := some (js "The last tab cannot be closed.") }
  else
    match model.tabs.findIdx? (fun t => t.id = id) with
    | none => { model := model }
    | some index =>
      let tabs := model.tabs.filter (fun t => t.id ≠ id)
      let first := (tabs.head?.map Tab.id).getD []
      -- the neighbour is looked up by position, and taken only if it survives
      let activeTab :=
        if model.activeTab = id then
          let next := ((neighbour model.tabs index).map Tab.id).getD first
          if next ∈ tabs.map Tab.id then next else first
        else model.activeTab
      { model := { model with tabs := tabs, activeTab := activeTab }, closed := some index }

/-- The text a tab is searched by. -/
def haystack (tab : Tab) (labelFor : JsString → JsString) (groups : List Group) : JsString :=
  let group := groups.find? (fun g => some g.id = tab.group)
  JsValue.joinWith (js " ")
    ([labelFor tab.page, tab.page, (group.map Group.name).getD []].filter (fun s => s ≠ []))

/-- Closes every tab a predicate selects, except pinned ones. -/
def closeMatching (model : Model) (test : JsString → Bool) (labelFor : JsString → JsString)
    (invert : Bool) : Outcome :=
  let doomed := model.tabs.filter (fun t =>
    !t.pinned && (test (haystack t labelFor model.groups) != invert))
  if doomed.length ≥ model.tabs.length then
    { model := model
      refused := some (js "That would close every tab. At least one has to remain, so nothing was closed.")
      wouldClose := some doomed.length }
  else
    { model := doomed.foldl (fun next t => (close next t.id).model) model
      closed := some doomed.length
      closedTabs := some doomed }

def closeOthers (model : Model) (keepId : JsString) : Outcome :=
  let keep := model.tabs.filter (fun t => t.id = keepId ∨ t.pinned)
  if keep = [] then { model := model }
  else
    -- selected whether or not it is among the tabs kept
    { model := { model with tabs := ordered keep model.groups, activeTab := keepId }
      closed := some (model.tabs.length - keep.length) }

def setPinned (model : Model) (id : JsString) (pinned : Bool) : Outcome :=
  -- the group of the tab stays
  let tabs := model.tabs.map (fun t => if t.id = id then { t with pinned := pinned } else t)
  { model := { model with tabs := ordered tabs model.groups } }

/-- The region a tab belongs to, by name: a group named `pinned` or `loose` shares the name. -/
def region (t : Tab) : JsString :=
  if t.pinned then js "pinned"
  else
    match t.group with
    | none => js "loose"
    | some g => if g = [] then js "loose" else g

/-- `max(0, min(length - 1, toIndex))`. -/
def clamp (length : Nat) (toIndex : Int) : Nat := (max 0 (min ((length : Int) - 1) toIndex)).toNat

/-- `list.splice(target, 0, list.splice(source, 1)[0])`. -/
def moveWithin {α : Type} (list : List α) (source target : Nat) : List α :=
  match list[source]? with
  | some a => (list.eraseIdx source).insertIdx target a
  | none => list

/-- Moves a tab to a position within its own region. -/
def reorder (model : Model) (id : JsString) (toIndex : Int) : Outcome :=
  match model.tabs.find? (fun t => t.id = id) with
  | none => { model := model }
  | some tab =>
    let siblings := model.tabs.filter (fun t => region t = region tab)
    let others := model.tabs.filter (fun t => region t ≠ region tab)
    let moved := moveWithin siblings (siblings.findIdx (fun t => t.id = id)) (clamp siblings.length toIndex)
    { model := { model with tabs := ordered (moved ++ others) model.groups } }

/-! ## Groups -/

/-- `String(name || fallback).slice(0, 60)`. -/
def nameOr (name fallback : JsString) : JsString := (if name = [] then fallback else name).take maxNameLength

def createGroup (random : Nat → JsString) (mint : Mint) (model : Model) (name colour : JsString) :
    Outcome × Mint :=
  if model.groups.length ≥ maxGroups then
    ({ model := model, error := some (js "That is already 24 groups, which is the limit.") }, mint)
  else
    let group : Group :=
      { id := nextGroupId random mint
        name := nameOr name (js "Group")
        colour := (GroupColour.ofText colour).getD .grape
        collapsed := false
        -- how many groups there are, which a stored group may have as its number
        order := model.groups.length }
    ({ model := { model with groups := model.groups ++ [group] }, group := some group }, mint.draw)

/-- Changes the groups with an id, and nothing else. -/
def updateGroup (model : Model) (groupId : JsString) (f : Group → Group) : Model :=
  { model with groups := model.groups.map (fun g => if g.id = groupId then f g else g) }

def renameGroup (model : Model) (groupId name : JsString) : Outcome :=
  { model := updateGroup model groupId (fun g => { g with name := nameOr name g.name }) }

def setGroupColour (model : Model) (groupId colour : JsString) : Outcome :=
  match GroupColour.ofText colour with
  | none => { model := model }
  | some c => { model := updateGroup model groupId (fun g => { g with colour := c }) }

def setGroupCollapsed (model : Model) (groupId : JsString) (collapsed : Bool) : Outcome :=
  { model := updateGroup model groupId (fun g => { g with collapsed := collapsed }) }

/-- `groups.map((g, i) => ({ ...g, order: i }))`. -/
def renumber (groups : List Group) : List Group :=
  groups.zipIdx.map (fun g => { g.1 with order := g.2 })

def reorderGroup (model : Model) (groupId : JsString) (toIndex : Int) : Outcome :=
  let list := StableSort.sortOn Group.order model.groups
  match list.findIdx? (fun g => g.id = groupId) with
  | none => { model := model }
  | some index =>
    let groups := renumber (moveWithin list index (clamp list.length toIndex))
    { model := { model with groups := groups, tabs := ordered model.tabs groups } }

/-- Removes a group without removing its tabs. -/
def deleteGroup (model : Model) (groupId : JsString) : Outcome :=
  let groups := renumber (model.groups.filter (fun g => g.id ≠ groupId))
  let tabs := model.tabs.map (fun t => if t.group = some groupId then { t with group := none } else t)
  { model := { model with groups := groups, tabs := ordered tabs groups }
    released := some (model.tabs.filter (fun t => t.group = some groupId)).length }

/-- `groupId ? false : t.pinned`. -/
def pinnedUnless (groupId : Option JsString) (t : Tab) : Bool :=
  match groupId with
  | none => t.pinned
  | some g => if g = [] then t.pinned else false

/-- Moves a tab into a group, or out of any. A grouped tab is not pinned. -/
def moveToGroup (model : Model) (tabId : JsString) (groupId : Option JsString) : Outcome :=
  if groupId ≠ none ∧ groupId ∉ model.groups.map (fun g => some g.id) then { model := model }
  else
    let tabs := model.tabs.map (fun t =>
      if t.id = tabId then { t with group := groupId, pinned := pinnedUnless groupId t } else t)
    { model := { model with tabs := ordered tabs model.groups } }

/-! ## Dock and selection -/

def setDock (model : Model) (dock : JsString) : Outcome :=
  match Dock.ofText dock with
  | none => { model := model }
  | some d => { model := { model with dock := d } }

/-- How the strip selects a tab: `{ ...model, activeTab: id }`. -/
def activate (model : Model) (id : JsString) : Outcome := { model := { model with activeTab := id } }

/-! ## Runs -/

/-- One call on the model. -/
inductive Op where
  | openTab (page : JsString)
  | close (id : JsString)
  | closeMatching (test : JsString → Bool) (labelFor : JsString → JsString) (invert : Bool)
  | closeOthers (keepId : JsString)
  | setPinned (id : JsString) (pinned : Bool)
  | reorder (id : JsString) (toIndex : Int)
  | createGroup (name colour : JsString)
  | renameGroup (groupId name : JsString)
  | setGroupColour (groupId colour : JsString)
  | setGroupCollapsed (groupId : JsString) (collapsed : Bool)
  | reorderGroup (groupId : JsString) (toIndex : Int)
  | deleteGroup (groupId : JsString)
  | moveToGroup (tabId : JsString) (groupId : Option JsString)
  | setDock (dock : JsString)
  | activate (id : JsString)

/-- The model in use and what the next identifier is minted from. -/
structure State where
  model : Model
  mint : Mint

/-- The caller goes on with the model an operation returns. -/
def step (random : Nat → JsString) (s : State) : Op → State
  | .openTab page =>
    let (r, mint) := openTab random s.mint s.model page
    ⟨r.model, mint⟩
  | .close id => { s with model := (close s.model id).model }
  | .closeMatching test labelFor invert => { s with model := (closeMatching s.model test labelFor invert).model }
  | .closeOthers keepId => { s with model := (closeOthers s.model keepId).model }
  | .setPinned id pinned => { s with model := (setPinned s.model id pinned).model }
  | .reorder id toIndex => { s with model := (reorder s.model id toIndex).model }
  | .createGroup name colour =>
    let (r, mint) := createGroup random s.mint s.model name colour
    ⟨r.model, mint⟩
  | .renameGroup groupId name => { s with model := (renameGroup s.model groupId name).model }
  | .setGroupColour groupId colour => { s with model := (setGroupColour s.model groupId colour).model }
  | .setGroupCollapsed groupId collapsed =>
    { s with model := (setGroupCollapsed s.model groupId collapsed).model }
  | .reorderGroup groupId toIndex => { s with model := (reorderGroup s.model groupId toIndex).model }
  | .deleteGroup groupId => { s with model := (deleteGroup s.model groupId).model }
  | .moveToGroup tabId groupId => { s with model := (moveToGroup s.model tabId groupId).model }
  | .setDock dock => { s with model := (setDock s.model dock).model }
  | .activate id => { s with model := (activate s.model id).model }

end Tabs
end MaterialOpenWebui
