import MaterialOpenWebui.Prompts.Template
import Mathlib.Data.List.Nodup

/-!
# `Prompts.Rag` — the prompt of a question about documents (`rag_template`, `backend/open_webui/utils/task.py`)

A template has places for the context and for the query, each written in two ways. They are filled one after another, so what
was put in for one place may be taken for another. Against this, where the context has a place for the query, those of the
template are given other names for a while; but it is the template's that then stay open, and the context's that are filled.

The generated ids are given. What is logged is left out.
-/

namespace MaterialOpenWebui
namespace Prompts
open Py Rewrite

/-! ## The template -/

def line (s : String) : Str := py s ++ [⟨10, by decide⟩]

def DEFAULT_RAG_TEMPLATE : Str :=
  line "### Task:" ++
  line "Respond to the user query using the provided context, incorporating inline citations in the format [id] **only when the <source> tag includes an explicit id attribute** (e.g., <source id=\"1\">)." ++
  line "" ++
  line "### Guidelines:" ++
  line "- If you don't know the answer, clearly state that." ++
  line "- If uncertain, ask the user for clarification." ++
  line "- Respond in the same language as the user's query." ++
  line "- If the context is unreadable or of poor quality, inform the user and provide the best possible answer." ++
  line "- If the answer isn't present in the context but you possess the knowledge, explain this to the user and provide the answer using your own understanding." ++
  line "- **Only include inline citations using [id] (e.g., [1], [2]) when the <source> tag includes an id attribute.**" ++
  line "- Do not cite if the <source> tag does not contain an id attribute." ++
  line "- Do not use XML tags in your response." ++
  line "- Ensure citations are concise and directly related to the information provided." ++
  line "" ++
  line "### Example of Citation:" ++
  line "If the user asks about a specific topic and the information is found in a source with a provided id attribute, the response should include the citation like in the following example:" ++
  line "* \"According to the study, the proposed method increases efficiency by 20% [1].\"" ++
  line "" ++
  line "### Output:" ++
  line "Provide a clear and direct response to the user's query, including inline citations in the format [id] only when the <source> tag with id attribute is present in the context." ++
  line "" ++
  line "<context>" ++
  line "\x7b\x7bCONTEXT\x7d\x7d" ++
  line "</context>"

/-- The template, or the default one for a blank. -/
def effective (template : Str) : Str := if strip template = [] then DEFAULT_RAG_TEMPLATE else template

/-! ## The filling -/

def contextPlace : Str := py "[context]"

def contextPlace' : Str := braced (py "CONTEXT")

def queryPlace : Str := py "[query]"

def queryPlace' : Str := braced (py "QUERY")

/-- The places of the query that occur in the context, with the names that the template's get for a while. -/
def hidden (uuid uuid' context : Str) : List (Str × Str) :=
  (if queryPlace <:+: context then [(queryPlace, braced (py "QUERY" ++ uuid))] else []) ++
    (if queryPlace' <:+: context then [(queryPlace', braced (py "QUERY" ++ uuid'))] else [])

/-- What is put in. -/
def places (context query : Str) : List (Str × Str) :=
  [(contextPlace, context), (contextPlace', context), (queryPlace, query), (queryPlace', query)]

def rag_template (now : Clock) (uuid uuid' template context query : Str) : Str :=
  let template := prompt_template now (effective template) none
  let query_placeholders := hidden uuid uuid' context
  let template := replaceAll query_placeholders template
  let template := replaceAll (places context query) template
  replaceAll (query_placeholders.map Prod.swap) template

/-- What is meant: the places of the template are filled, and nothing else is looked at. -/
def filled (template context query : Str) : Str := fill (places context query) (effective template)

/-! ## The law -/

/-- Nothing that is put in is taken for a place, neither by itself nor with what stands around it, and no place is hidden. -/
structure Verbatim (template context query : Str) : Prop where
  shown : ∀ place ∈ [queryPlace, queryPlace'], place <:+: context → ¬ place <:+: effective template
  passes : LocalAll ((places context query).map fun sub => literal sub.1 sub.2) ((effective template).map .own)

theorem places_ne_nil {context query : Str} : ∀ sub ∈ places context query, sub.1 ≠ [] := by
  intro sub hsub
  simp only [places, List.mem_cons, List.not_mem_nil, or_false] at hsub
  rcases hsub with rfl | rfl | rfl | rfl <;> exact List.cons_ne_nil _ _

theorem places_apart {context query : Str} :
    ∀ p ∈ places context query, ∀ q ∈ places context query, p ≠ q → Apart p.1 q.1 := by
  have hall : ∀ a ∈ [contextPlace, contextPlace', queryPlace, queryPlace'],
      ∀ b ∈ [contextPlace, contextPlace', queryPlace, queryPlace'], a ≠ b → Apart a b := by decide
  have hnodup : ((places context query).map Prod.fst).Nodup := by
    show [contextPlace, contextPlace', queryPlace, queryPlace'].Nodup
    decide
  intro p hp q hq hne
  exact hall p.1 (List.mem_map_of_mem (f := Prod.fst) hp) q.1 (List.mem_map_of_mem (f := Prod.fst) hq)
    fun heq => hne (List.inj_on_of_nodup_map hnodup hp hq heq)

/-- What is hidden is a place of the query that occurs in the context, under a name with one of the ids. -/
theorem mem_hidden {uuid uuid' context : Str} {sub : Str × Str} (h : sub ∈ hidden uuid uuid' context) :
    sub.1 ∈ [queryPlace, queryPlace'] ∧ sub.1 <:+: context ∧ ∃ id ∈ [uuid, uuid'], sub.2 = braced (py "QUERY" ++ id) := by
  rw [hidden, List.mem_append] at h
  rcases h with h | h
  · split at h
    · rename_i hinfix
      rw [List.mem_singleton.mp h]
      exact ⟨by simp, hinfix, uuid, by simp, rfl⟩
    · cases h
  · split at h
    · rename_i hinfix
      rw [List.mem_singleton.mp h]
      exact ⟨by simp, hinfix, uuid', by simp, rfl⟩
    · cases h

theorem filled_eq {template context query : Str} (h : Verbatim template context query) :
    replaceAll (places context query) (effective template) = filled template context query := by
  have hlawful : ∀ m ∈ (places context query).map fun sub => literal sub.1 sub.2, Lawful m := by
    intro m hm
    obtain ⟨sub, hsub, rfl⟩ := List.mem_map.mp hm
    exact lawful_literal (places_ne_nil sub hsub) sub.2
  rw [replaceAll_eq places_ne_nil, filled, fill_eq places_ne_nil places_apart, ← rewriteAll_text hlawful h.passes, text_own]

/-- **The law of the documents' prompt**: where it is verbatim, and the ids are fresh, the places of the template are filled and
nothing else is changed. -/
theorem rag_template_eq {now : Clock} {uuid uuid' template context query : Str}
    (hvariables : ∀ sub ∈ legacy now none [], ¬ sub.1 <:+: effective template) (hverbatim : Verbatim template context query)
    (hfresh : ∀ id ∈ [uuid, uuid'], ¬ id <:+: filled template context query) :
    rag_template now uuid uuid' template context query = filled template context query := by
  have hhidden : replaceAll (hidden uuid uuid' context) (effective template) = effective template := by
    refine replaceAll_of_not_infix (fun sub hsub => ?_) fun sub hsub => ?_
    · obtain ⟨hplace, -⟩ := mem_hidden hsub
      rintro hnil
      rw [hnil] at hplace
      simp [queryPlace, queryPlace', braced, py] at hplace
    · obtain ⟨hplace, hinfix, -⟩ := mem_hidden hsub
      exact hverbatim.shown sub.1 hplace hinfix
  have hback : replaceAll ((hidden uuid uuid' context).map Prod.swap) (filled template context query) =
      filled template context query := by
    refine replaceAll_of_not_infix (fun sub hsub => ?_) fun sub hsub hinfix => ?_
    · obtain ⟨sub, hmem, rfl⟩ := List.mem_map.mp hsub
      obtain ⟨-, -, id, -, hid⟩ := mem_hidden hmem
      rw [Prod.fst_swap, hid]
      exact braced_ne_nil _
    · obtain ⟨sub, hsub', rfl⟩ := List.mem_map.mp hsub
      obtain ⟨-, -, id, hmem, hid⟩ := mem_hidden hsub'
      rw [Prod.fst_swap, hid] at hinfix
      -- the name has the id in it
      have hin : id <:+: braced (py "QUERY" ++ id) :=
        ⟨py "\x7b\x7b" ++ py "QUERY", py "\x7d\x7d", by rw [braced, List.append_assoc (py "\x7b\x7b") (py "QUERY") id]⟩
      exact hfresh id hmem (hin.trans hinfix)
  rw [rag_template, prompt_template_of_not_infix hvariables]
  simp only [hhidden, filled_eq hverbatim, hback]

def noon : Clock := ⟨py "2025-06-01", py "12:00:00 PM", py "Sunday"⟩

theorem rag_template_of_plain :
    rag_template noon (py "123e4567-e89b-42d3-a456-426614174000") (py "9b2f1d6e-0c47-4f7a-8a51-5d0e6c3b7f21")
        (py "[context] Q: [query]") (py "doc") (py "why?") = filled (py "[context] Q: [query]") (py "doc") (py "why?") :=
  rag_template_eq (by decide +kernel) ⟨by decide +kernel, by decide +kernel⟩ (by decide +kernel)

/-- A document that quotes the place of the query: it gets the query, and the template does not. -/
theorem rag_template_of_quoted :
    rag_template noon (py "123e4567-e89b-42d3-a456-426614174000") (py "9b2f1d6e-0c47-4f7a-8a51-5d0e6c3b7f21")
        (py "[context] [query]") (py "see [query]") (py "why?") = py "see why? [query]" ∧
      filled (py "[context] [query]") (py "see [query]") (py "why?") = py "see [query] why?" := by
  constructor <;> decide +kernel

end Prompts
end MaterialOpenWebui
