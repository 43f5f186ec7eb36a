import MaterialOpenWebui.Py.Value
import Mathlib.Data.List.Sort
import Mathlib.Order.Defs.LinearOrder

/-!
# `Knowledge.Ranking` — the best results of several queries (`backend/open_webui/retrieval/utils.py`)

Every query answers with distances, documents and metadata, of which the first list counts; a greater distance is a better
one. `merge_and_sort_query_results` keeps the best entry of each chunk, sorts what it kept, and cuts it after `k` entries. So
what is left out is no better than what is returned, chunk by chunk (`merge_and_sort_query_results_law`).

Texts, hashes and distances are of any type, the distances in a linear order; `_content_hash` is a parameter.
-/

namespace MaterialOpenWebui
namespace Ranking
open Py

/-! ## Results -/

structure Metadata (Hash : Type) where
  /-- Under `CHUNK_HASH_KEY`. -/
  _chunk_hash : Option Hash
  others : Obj

/-- One answer; a document is a text or something else. -/
structure QueryResult (Distance Text Other Hash : Type) where
  distances : List (List Distance)
  documents : List (List (Text ⊕ Other))
  metadatas : List (List (Option (Metadata Hash)))

structure Entry (Distance Text Hash : Type) where
  distance : Distance
  document : Text
  metadata : Option (Metadata Hash)

section
variable {Distance Text Other Hash : Type} [LinearOrder Distance] [DecidableEq Hash]
variable (truthy : Hash → Bool) (_content_hash : Text → Hash)

/-- `(metadata or {}).get(CHUNK_HASH_KEY) or _content_hash(document)` -/
def docHash (e : Entry Distance Text Hash) : Hash :=
  ((e.metadata.bind Metadata._chunk_hash).filter truthy).getD (_content_hash e.document)

/-- `zip(distances, documents, metadatas)`, less the documents that are no texts. -/
def zipped : List Distance → List (Text ⊕ Other) → List (Option (Metadata Hash)) → List (Entry Distance Text Hash)
  | distance :: distances, .inl document :: documents, metadata :: metadatas =>
    ⟨distance, document, metadata⟩ :: zipped distances documents metadatas
  | _ :: distances, .inr _ :: documents, _ :: metadatas => zipped distances documents metadatas
  | _, _, _ => []

/-- The entries of one answer, if none of its lists is empty. -/
def entriesOf (data : QueryResult Distance Text Other Hash) : List (Entry Distance Text Hash) :=
  match data.distances, data.documents, data.metadatas with
  | distances :: _, documents :: _, metadatas :: _ => zipped distances documents metadatas
  | _, _, _ => []

def entries (query_results : List (QueryResult Distance Text Other Hash)) : List (Entry Distance Text Hash) :=
  query_results.flatMap entriesOf

/-! ## Merging -/

/-- One round of the loop. -/
def improve (combined : Dict Hash (Entry Distance Text Hash)) (e : Entry Distance Text Hash) :
    Dict Hash (Entry Distance Text Hash) :=
  let doc_hash := docHash truthy _content_hash e
  match combined.get? doc_hash with
  | none => combined.set doc_hash e
  | some best => if best.distance < e.distance then combined.set doc_hash e else combined

def combined (query_results : List (QueryResult Distance Text Other Hash)) : Dict Hash (Entry Distance Text Hash) :=
  (entries query_results).foldl (improve truthy _content_hash) .empty

/-- `sort(key=lambda x: x[0], reverse=True)`: entries with one distance stay in the order they had. -/
def sortedEntries (es : List (Entry Distance Text Hash)) : List (Entry Distance Text Hash) :=
  es.insertionSort fun a b => b.distance ≤ a.distance

/-- What is returned, each part in a list. -/
structure Merged (Distance Text Hash : Type) where
  distances : List (List Distance)
  documents : List (List Text)
  metadatas : List (List (Option (Metadata Hash)))

def Merged.of (top : List (Entry Distance Text Hash)) : Merged Distance Text Hash where
  distances := [top.map Entry.distance]
  documents := [top.map Entry.document]
  metadatas := [top.map Entry.metadata]

/-- `none` where it raises: nothing of something cannot be taken apart into three. -/
def merge_and_sort_query_results (query_results : List (QueryResult Distance Text Other Hash)) (k : Nat) :
    Option (Merged Distance Text Hash) :=
  let es := (combined truthy _content_hash query_results).items.map Prod.snd
  let top := (sortedEntries es).take k
  if es ≠ [] ∧ top = [] then none else some (.of top)

/-! ## The best of each chunk -/

variable {truthy _content_hash}

/-- For every hash of the entries, there is one of them, and none with the hash is better. -/
structure Best (truthy : Hash → Bool) (_content_hash : Text → Hash) (es : List (Entry Distance Text Hash))
    (d : Dict Hash (Entry Distance Text Hash)) : Prop where
  found : ∀ h e, d.get? h = some e →
    e ∈ es ∧ docHash truthy _content_hash e = h ∧ ∀ e' ∈ es, docHash truthy _content_hash e' = h → e'.distance ≤ e.distance
  missing : ∀ h, d.get? h = none → ∀ e ∈ es, docHash truthy _content_hash e ≠ h

/-- One more entry. -/
theorem Best.improve {es : List (Entry Distance Text Hash)} {d : Dict Hash (Entry Distance Text Hash)}
    (hd : Best truthy _content_hash es d) (e : Entry Distance Text Hash) :
    Best truthy _content_hash (es ++ [e]) (improve truthy _content_hash d e) := by
  -- what is set is the best of its hash
  have hset : (∀ e' ∈ es, docHash truthy _content_hash e' = docHash truthy _content_hash e → e'.distance ≤ e.distance) →
      Best truthy _content_hash (es ++ [e]) (d.set (docHash truthy _content_hash e) e) := by
    intro hbest
    constructor
    · intro h f hf
      rw [Dict.get?_set] at hf
      by_cases hh : h = docHash truthy _content_hash e
      · rw [if_pos hh] at hf
        cases hf
        refine ⟨List.mem_append_right _ (List.mem_singleton_self _), hh.symm, ?_⟩
        intro e' he' hhash
        rcases List.mem_append.mp he' with he' | he'
        · exact hbest e' he' (hhash.trans hh)
        · rw [List.mem_singleton.mp he']
      · rw [if_neg hh] at hf
        obtain ⟨hmem, hhash, hmax⟩ := hd.found h f hf
        refine ⟨List.mem_append_left _ hmem, hhash, ?_⟩
        intro e' he' hhash'
        rcases List.mem_append.mp he' with he' | he'
        · exact hmax e' he' hhash'
        · rw [List.mem_singleton.mp he'] at hhash'
          exact absurd hhash'.symm hh
    · intro h hnone
      rw [Dict.get?_set] at hnone
      by_cases hh : h = docHash truthy _content_hash e
      · rw [if_pos hh] at hnone
        cases hnone
      · rw [if_neg hh] at hnone
        intro e' he'
        rcases List.mem_append.mp he' with he' | he'
        · exact hd.missing h hnone e' he'
        · rw [List.mem_singleton.mp he']
          exact Ne.symm hh
  rw [Ranking.improve]
  cases hget : d.get? (docHash truthy _content_hash e) with
  | none =>
    apply hset
    intro e' he' hhash
    exact absurd hhash (hd.missing _ hget e' he')
  | some best =>
    obtain ⟨hmem, hhash, hmax⟩ := hd.found _ best hget
    dsimp only
    by_cases hlt : best.distance < e.distance
    · rw [if_pos hlt]
      exact hset fun e' he' hhash' => (hmax e' he' hhash').trans hlt.le
    · rw [if_neg hlt]
      constructor
      · intro h f hf
        obtain ⟨hfmem, hfhash, hfmax⟩ := hd.found h f hf
        refine ⟨List.mem_append_left _ hfmem, hfhash, ?_⟩
        intro e' he' hhash'
        rcases List.mem_append.mp he' with he' | he'
        · exact hfmax e' he' hhash'
        · rw [List.mem_singleton.mp he'] at hhash' ⊢
          rw [← hhash', hget] at hf
          cases hf
          exact not_lt.mp hlt
      · intro h hnone e' he'
        rcases List.mem_append.mp he' with he' | he'
        · exact hd.missing h hnone e' he'
        · rw [List.mem_singleton.mp he']
          rintro rfl
          rw [hget] at hnone
          cases hnone

/-- **What is combined** is the best of each chunk. -/
theorem best_combined (query_results : List (QueryResult Distance Text Other Hash)) :
    Best truthy _content_hash (entries query_results) (combined truthy _content_hash query_results) := by
  have hfold : ∀ (es front : List (Entry Distance Text Hash)) (d : Dict Hash (Entry Distance Text Hash)),
      Best truthy _content_hash front d →
        Best truthy _content_hash (front ++ es) (es.foldl (Ranking.improve truthy _content_hash) d) := by
    intro es
    induction es with
    | nil =>
      intro front d hd
      rwa [List.append_nil]
    | cons e es ih =>
      intro front d hd
      have h := ih (front ++ [e]) _ (hd.improve e)
      rwa [List.append_assoc] at h
  refine hfold (entries query_results) [] .empty ⟨fun h e he => ?_, fun h _ e he => ?_⟩
  · cases he
  · cases he

/-- The entries that are combined have their keys for hashes. -/
theorem hashes_combined (query_results : List (QueryResult Distance Text Other Hash)) :
    ((combined truthy _content_hash query_results).items.map Prod.snd).map (docHash truthy _content_hash) =
      (combined truthy _content_hash query_results).keys := by
  rw [List.map_map]
  apply List.map_congr_left
  rintro ⟨h, e⟩ hp
  exact ((best_combined query_results).found h e (Dict.get?_eq_some_iff.mpr hp)).2.1

/-! ## The best of all -/

instance total_better : Std.Total fun a b : Entry Distance Text Hash => b.distance ≤ a.distance :=
  ⟨fun a b => le_total b.distance a.distance⟩

instance trans_better : IsTrans (Entry Distance Text Hash) fun a b => b.distance ≤ a.distance :=
  ⟨fun _ _ _ hab hbc => le_trans hbc hab⟩

/-- **The returned entries** `top` of all those of the results. -/
structure Top (truthy : Hash → Bool) (_content_hash : Text → Hash) (es : List (Entry Distance Text Hash)) (k : Nat)
    (top : List (Entry Distance Text Hash)) : Prop where
  length_le : top.length ≤ k
  distinct : (top.map (docHash truthy _content_hash)).Nodup
  descending : top.Pairwise fun a b => b.distance ≤ a.distance
  best : ∀ e ∈ top, e ∈ es ∧
    ∀ e' ∈ es, docHash truthy _content_hash e' = docHash truthy _content_hash e → e'.distance ≤ e.distance
  /-- A hash that is left out: there are `k` entries, the last of them too at least as good. -/
  leftOut : ∀ e ∈ es, docHash truthy _content_hash e ∉ top.map (docHash truthy _content_hash) →
    top.length = k ∧ ∀ e' ∈ top, e.distance ≤ e'.distance

/-- **The best `k` chunks** are returned, each with its best entry, in three lists side by side. -/
theorem merge_and_sort_query_results_law (truthy : Hash → Bool) (_content_hash : Text → Hash)
    (query_results : List (QueryResult Distance Text Other Hash)) {k : Nat} (hk : 1 ≤ k) :
    ∃ top, merge_and_sort_query_results truthy _content_hash query_results k = some (.of top) ∧
      Top truthy _content_hash (entries query_results) k top := by
  have hbest := @best_combined _ _ _ _ _ _ truthy _content_hash query_results
  have hhashes := @hashes_combined _ _ _ _ _ _ truthy _content_hash query_results
  generalize hes : (combined truthy _content_hash query_results).items.map Prod.snd = es at hhashes
  have hperm : (sortedEntries es).Perm es := List.perm_insertionSort _ es
  have hsorted : (sortedEntries es).Pairwise fun a b => b.distance ≤ a.distance := List.pairwise_insertionSort _ es
  have hsplit := List.take_append_drop k (sortedEntries es)
  have hfound : ∀ e ∈ es, (combined truthy _content_hash query_results).get? (docHash truthy _content_hash e) = some e := by
    intro e he
    rw [← hes] at he
    obtain ⟨⟨h, e⟩, hp, rfl⟩ := List.mem_map.mp he
    have hget := Dict.get?_eq_some_iff.mpr hp
    rwa [(hbest.found h e hget).2.1]
  have htake : ∀ e ∈ (sortedEntries es).take k, e ∈ es := fun e he => hperm.mem_iff.mp (List.mem_of_mem_take he)
  refine ⟨(sortedEntries es).take k, ?_, ?_, ?_, ?_, ?_, ?_⟩
  · rw [merge_and_sort_query_results, hes, if_neg]
    rintro ⟨hne, htop⟩
    rw [List.take_eq_nil_iff] at htop
    rcases htop with hzero | hnil
    · omega
    · rw [hnil] at hperm
      exact hne hperm.nil_eq.symm
  · exact List.length_take_le _ _
  · have hnodup : ((sortedEntries es).map (docHash truthy _content_hash)).Nodup := by
      rw [(hperm.map _).nodup_iff, hhashes]
      exact Dict.nodup_keys _
    exact hnodup.sublist ((List.take_sublist _ _).map _)
  · exact hsorted.sublist (List.take_sublist _ _)
  · intro e he
    obtain ⟨hmem, -, hmax⟩ := hbest.found _ e (hfound e (htake e he))
    exact ⟨hmem, hmax⟩
  · intro e he hout
    -- the best entry of its chunk is among those that were cut off
    obtain ⟨f, hf⟩ : ∃ f, (combined truthy _content_hash query_results).get? (docHash truthy _content_hash e) = some f := by
      cases hget : (combined truthy _content_hash query_results).get? (docHash truthy _content_hash e) with
      | none => exact absurd rfl (hbest.missing _ hget e he)
      | some f => exact ⟨f, rfl⟩
    obtain ⟨-, hhash, hmax⟩ := hbest.found _ f hf
    have hmem : f ∈ sortedEntries es := by
      rw [hperm.mem_iff, ← hes]
      exact List.mem_map.mpr ⟨_, Dict.get?_eq_some_iff.mp hf, rfl⟩
    have hdrop : f ∈ (sortedEntries es).drop k := by
      rw [← hsplit, List.mem_append] at hmem
      refine hmem.resolve_left fun htop => hout ?_
      rw [← hhash]
      exact List.mem_map_of_mem htop
    rw [← hsplit, List.pairwise_append] at hsorted
    refine ⟨?_, fun e' he' => (hmax e he rfl).trans (hsorted.2.2 e' he' f hdrop)⟩
    have hlength : 0 < ((sortedEntries es).drop k).length := List.length_pos_of_mem hdrop
    rw [List.length_drop] at hlength
    rw [List.length_take]
    omega

end

/-- Two answers that have a document in common. -/
def twoAnswers : List (QueryResult Nat Str Val Str) :=
  [⟨[[3, 1]], [[.inl (py "a"), .inl (py "b")]], [[none, none]]⟩, ⟨[[2, 5]], [[.inl (py "a"), .inr .none]], [[none, none]]⟩]

/-- The best of them. -/
theorem merge_and_sort_query_results_law_two :
    ∃ top, merge_and_sort_query_results (fun h => h ≠ []) id twoAnswers 1 = some (.of top) ∧
      Top (fun h => h ≠ []) id (entries twoAnswers) 1 top :=
  merge_and_sort_query_results_law (fun h => h ≠ []) id twoAnswers (by decide)

end Ranking
end MaterialOpenWebui
