import MaterialOpenWebui.Prompts.Variables
import MaterialOpenWebui.Py.JsonRoundTrip

/-!
# `Prompts.System` — system prompts (`resolve_system_prompt`, `backend/open_webui/utils/payload.py`)

A system prompt is resolved in four stages: the variables of the chat and of the user, by their names in the prompt; those that
come with the request, by any text; and the date, the time and the user. Each stage reads what the stages before it have put in,
so a value is taken for a placeholder if it looks like one of a later stage.
-/

namespace MaterialOpenWebui
namespace Prompts
open Py Rewrite

/-! ## The stages -/

/-- What comes with a request. -/
structure Metadata where
  chat_variables : Val
  values : List (Str × Str)

structure User where
  values : Val
  profile : Profile

section
variable (fl : Floats) (str_ : Val → Str)

/-- The variables of the chat and of the user, by their names. -/
def named (system : Str) (metadata : Option Metadata) (user : Option User) : Str :=
  let system := metadata.elim system fun m => render_chat_variables fl str_ system m.chat_variables false
  render_user_variables system (user.elim (.dict []) User.values)

def resolve_system_prompt (now : Clock) (system : Option Str) (metadata : Option Metadata) (user : Option User) : Str :=
  match system with
  | none | some [] => []
  | some system =>
    let system := named fl str_ system metadata user
    -- Metadata (WebUI Usage)
    let system := metadata.elim system fun m => prompt_variables_template system m.values
    -- Legacy (API Usage)
    prompt_template now system (user.map User.profile)

/-! ## What is meant -/

/-- What the stages look for before the last, in their order. -/
def stages (system : Str) (metadata : Option Metadata) (user : Option User) : List (Matcher CodePoint) :=
  metadata.elim [] (fun m => [variableMatcher chatStem (chatValue fl str_ system m.chat_variables false)]) ++
    [variableMatcher userStem (userValue (user.elim (.dict []) User.values))] ++
    metadata.elim [] (fun m => m.values.map fun sub => literal sub.1 sub.2)

/-- What all stages look for: the groups are those of the user. -/
def allStages (now : Clock) (system : Str) (metadata : Option Metadata) (user : Option User) : List (Matcher CodePoint) :=
  stages fl str_ system metadata user ++
    (legacy now (user.map User.profile) (user.elim [] fun u => u.profile.groups)).map fun sub => literal sub.1 sub.2

/-- The prompt with the values of its own placeholders. -/
def substituted (now : Clock) (system : Str) (metadata : Option Metadata) (user : Option User) : Str :=
  text (markAll (allStages fl str_ now system metadata user) (system.map .own))

/-! ## The law -/

/-- No stage takes for a placeholder what was put in, or what reaches into it, and no variable of the request is without a
name. -/
structure Opaque (now : Clock) (system : Str) (metadata : Option Metadata) (user : Option User) : Prop where
  passes : LocalAll (allStages fl str_ now system metadata user) (system.map .own)
  names : ∀ m ∈ metadata, ∀ sub ∈ m.values, sub.1 ≠ []

end

section
variable {fl : Floats} {str_ : Val → Str} {now : Clock} {system : Str} {metadata : Option Metadata} {user : Option User}

theorem lawful_literals {subs : List (Str × Str)} (hne : ∀ sub ∈ subs, sub.1 ≠ []) :
    ∀ m ∈ subs.map fun sub => literal sub.1 sub.2, Lawful m := by
  intro m hm
  obtain ⟨sub, hsub, rfl⟩ := List.mem_map.mp hm
  exact lawful_literal (hne sub hsub) sub.2

theorem lawful_stages (h : ∀ m ∈ metadata, ∀ sub ∈ m.values, sub.1 ≠ []) :
    ∀ m ∈ stages fl str_ system metadata user, Lawful m := by
  intro m hm
  cases metadata with
  | none =>
    rw [List.mem_singleton.mp hm]
    exact lawful_variableMatcher _ _
  | some given =>
    rcases List.mem_append.mp hm with hm | hm
    · simp only [Option.elim, List.cons_append, List.nil_append, List.mem_cons, List.not_mem_nil, or_false] at hm
      rcases hm with rfl | rfl <;> exact lawful_variableMatcher _ _
    · exact lawful_literals (h given rfl) m hm

/-- The stages before the last are passes over the text. -/
theorem stages_eq (h : ∀ m ∈ metadata, ∀ sub ∈ m.values, sub.1 ≠ []) :
    (metadata.elim (named fl str_ system metadata user) fun m =>
      prompt_variables_template (named fl str_ system metadata user) m.values) =
      rewriteAll (stages fl str_ system metadata user) system := by
  cases metadata with
  | none => rfl
  | some given =>
    show replaceAll given.values _ = rewriteAll ([_] ++ [_] ++ given.values.map fun sub => literal sub.1 sub.2) system
    rw [replaceAll_eq (h given rfl), rewriteAll_append]
    rfl

/-- The last stage, where it is local: a prompt that does not name the groups is not looked at for them. -/
theorem prompt_template_text {profile : Option Profile} {ts : List (Token CodePoint)}
    (h : LocalAll ((legacy now profile (profile.elim [] Profile.groups)).map fun sub => literal sub.1 sub.2) ts) :
    prompt_template now (text ts) profile =
      text (markAll ((legacy now profile (profile.elim [] Profile.groups)).map fun sub => literal sub.1 sub.2) ts) := by
  rw [prompt_template, replaceAll_eq legacy_ne_nil]
  by_cases hgroups : userGroups <:+: text ts
  · rw [groupsFor, if_pos hgroups, rewriteAll_text (lawful_literals legacy_ne_nil) h]
  · rw [groupsFor, if_neg hgroups]
    have hsplit : ∀ groups, ((legacy now profile groups).map fun sub => literal sub.1 sub.2) =
        ((dates now ++ Prompts.profile profile).map fun sub => literal sub.1 sub.2) ++ [literal userGroups groups] :=
      fun groups => List.map_append
    rw [hsplit] at h
    rw [hsplit, hsplit, markAll_append, rewriteAll_append]
    have hlawful : ∀ m ∈ (dates now ++ Prompts.profile profile).map fun sub => literal sub.1 sub.2, Lawful m := by
      have hne : ∀ sub ∈ legacy now profile [], sub.1 ≠ [] := legacy_ne_nil
      exact lawful_literals fun sub hsub => hne sub (List.mem_append_left _ hsub)
    have huser : userGroups ≠ [] := braced_ne_nil _
    obtain ⟨hbefore, hlast, -⟩ := localAll_append.mp h
    rw [rewriteAll_text hlawful hbefore]
    -- the groups are not named by what the stages before leave
    have hnot : ¬ userGroups.map Token.own <:+: markAll
      ((dates now ++ Prompts.profile profile).map fun sub => literal sub.1 sub.2) ts :=
      fun hinfix => hgroups (infix_text (infix_of_markAll huser hinfix))
    show rewrite (literal userGroups []) 0 _ = text (mark (literal userGroups _) 0 _)
    rw [rewrite_text (lawful_literal huser _) (Nat.zero_le _) (local_literal [] hlast), mark_of_not_infix hnot,
      mark_of_not_infix hnot]

/-- **The law of system prompts.** Where the values are opaque, each placeholder of the prompt gives way to its value, and
nothing else is changed. -/
theorem resolve_system_prompt_eq (h : Opaque fl str_ now system metadata user) :
    resolve_system_prompt fl str_ now (some system) metadata user = substituted fl str_ now system metadata user := by
  cases system with
  | nil =>
    show [] = text (markAll _ [])
    rw [markAll_nil]
    rfl
  | cons c system =>
    show prompt_template now _ (user.map User.profile) = _
    obtain ⟨hstages, hlast⟩ := localAll_append.mp h.passes
    have hgroups : (user.elim [] fun u => u.profile.groups) = (user.map User.profile).elim [] Profile.groups := by
      cases user <;> rfl
    have htext := rewriteAll_text (lawful_stages h.names) hstages
    rw [text_own] at htext
    rw [hgroups] at hlast
    rw [stages_eq h.names, htext, prompt_template_text hlast, substituted, allStages, markAll_append, hgroups]

end

def sunday : Clock := ⟨py "2025-06-01", py "12:00:00 PM", py "Sunday"⟩

/-- A user who has stored a role. -/
def someone (role : Str) : User where
  values := .dict [(py "role", .str role)]
  profile := ⟨py "Ann", py "ann@example.org", py "None", py "None", py "None", py "None", py "None", []⟩

def plainStr : Val → Str := fun _ => []

theorem resolve_system_prompt_of_plain :
    resolve_system_prompt wholeFloats plainStr sunday (some (py "{{USER_NAME}}, {{ user.variables.role }}"))
        (some ⟨.dict [], [(py "{{CHAT}}", py "c1")]⟩) (some (someone (py "nurse"))) =
      substituted wholeFloats plainStr sunday (py "{{USER_NAME}}, {{ user.variables.role }}")
        (some ⟨.dict [], [(py "{{CHAT}}", py "c1")]⟩) (some (someone (py "nurse"))) :=
  resolve_system_prompt_eq ⟨by decide +kernel, by decide +kernel⟩

/-- A role that reads like the place of the e-mail address: the prompt gets the address. -/
theorem resolve_system_prompt_of_nested :
    resolve_system_prompt wholeFloats plainStr sunday (some (py "Role: {{ user.variables.role }}")) none
        (some (someone (py "{{USER_EMAIL}}"))) = py "Role: ann@example.org" ∧
      substituted wholeFloats plainStr sunday (py "Role: {{ user.variables.role }}") none
        (some (someone (py "{{USER_EMAIL}}"))) = py "Role: {{USER_EMAIL}}" := by
  constructor <;> decide +kernel

end Prompts
end MaterialOpenWebui
