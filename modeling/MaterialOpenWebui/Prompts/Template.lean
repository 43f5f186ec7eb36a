import MaterialOpenWebui.Py.Text
import MaterialOpenWebui.Lib.Rewrite

/-!
# `Prompts.Template` — placeholders of prompts (`prompt_template`, `backend/open_webui/utils/task.py`)

A prompt names the date, the time and the user by placeholders, which are replaced one after another. The groups of the user are
asked for only if the prompt names them.

The texts of the date and the time, and those that `str` gives for what is known of a user, are given.
-/

namespace MaterialOpenWebui
namespace Prompts
open Py Rewrite

/-! ## `str.replace` -/

/-- `s.replace(old, new)`: the empty text is found around every character. -/
def replace (old new s : Str) : Str :=
  if old = [] then new ++ s.flatMap fun c => c :: new else rewrite (literal old new) 0 s

theorem replace_of_ne {old : Str} (h : old ≠ []) (new s : Str) : replace old new s = rewrite (literal old new) 0 s := if_neg h

theorem replace_eq_self {old s : Str} (hne : old ≠ []) (h : ¬ old <:+: s) (new : Str) : replace old new s = s := by
  rw [replace_of_ne hne, rewrite_of_not_infix h]

/-- Replacements one after another. -/
def replaceAll (subs : List (Str × Str)) (s : Str) : Str := subs.foldl (fun s sub => replace sub.1 sub.2 s) s

theorem replaceAll_eq {subs : List (Str × Str)} (hne : ∀ sub ∈ subs, sub.1 ≠ []) (s : Str) :
    replaceAll subs s = rewriteAll (subs.map fun sub => literal sub.1 sub.2) s := by
  induction subs generalizing s with
  | nil => rfl
  | cons sub subs ih =>
    have ⟨hsub, hsubs⟩ := List.forall_mem_cons.mp hne
    show replaceAll subs (replace sub.1 sub.2 s) = rewriteAll _ (rewrite (literal sub.1 sub.2) 0 s)
    rw [replace_of_ne hsub, ih hsubs]

theorem replaceAll_of_not_infix {subs : List (Str × Str)} (hne : ∀ sub ∈ subs, sub.1 ≠ []) {s : Str}
    (h : ∀ sub ∈ subs, ¬ sub.1 <:+: s) : replaceAll subs s = s := by
  induction subs with
  | nil => rfl
  | cons sub subs ih =>
    have ⟨hsub, hsubs⟩ := List.forall_mem_cons.mp hne
    have ⟨hnot, hnots⟩ := List.forall_mem_cons.mp h
    show replaceAll subs (replace sub.1 sub.2 s) = s
    rw [replace_eq_self hsub hnot, ih hsubs hnots]

/-! ## The placeholders -/

/-- A name in double braces. -/
def braced (name : Str) : Str := py "\x7b\x7b" ++ name ++ py "\x7d\x7d"

theorem braced_ne_nil (name : Str) : braced name ≠ [] := List.cons_ne_nil _ _

structure Clock where
  formatted_date : Str
  formatted_time : Str
  formatted_weekday : Str

/-- `USER_VARIABLES`, with the names of all groups. -/
structure Profile where
  name : Str
  email : Str
  location : Str
  bio : Str
  gender : Str
  birth_date : Str
  age : Str
  groups : Str

/-- A value of `USER_VARIABLES`, or that for users of whom nothing is known. -/
def known (user : Option Profile) (field : Profile → Str) : Str := user.elim (py "Unknown") field

def dates (now : Clock) : List (Str × Str) :=
  [(braced (py "CURRENT_DATE"), now.formatted_date), (braced (py "CURRENT_TIME"), now.formatted_time),
    (braced (py "CURRENT_DATETIME"), now.formatted_date ++ py " " ++ now.formatted_time),
    (braced (py "CURRENT_WEEKDAY"), now.formatted_weekday)]

def profile (user : Option Profile) : List (Str × Str) :=
  [(braced (py "USER_NAME"), known user Profile.name), (braced (py "USER_EMAIL"), known user Profile.email),
    (braced (py "USER_BIO"), known user Profile.bio), (braced (py "USER_GENDER"), known user Profile.gender),
    (braced (py "USER_BIRTH_DATE"), known user Profile.birth_date), (braced (py "USER_AGE"), known user Profile.age),
    (braced (py "USER_LOCATION"), known user Profile.location)]

def userGroups : Str := braced (py "USER_GROUPS")

/-- The replacements, given the names of the groups. -/
def legacy (now : Clock) (user : Option Profile) (groups : Str) : List (Str × Str) :=
  dates now ++ profile user ++ [(userGroups, groups)]

/-- The names of the user's groups, asked for only if the template names them. -/
def groupsFor (user : Option Profile) (template : Str) : Str :=
    if userGroups <:+: template then user.elim [] Profile.groups else []

def prompt_template (now : Clock) (template : Str) (user : Option Profile) : Str :=
  replaceAll (legacy now user (groupsFor user template)) template

def prompt_variables_template (template : Str) (values : List (Str × Str)) : Str := replaceAll values template

theorem legacy_ne_nil {now : Clock} {user : Option Profile} {groups : Str} : ∀ sub ∈ legacy now user groups, sub.1 ≠ [] := by
  intro sub hsub
  simp only [legacy, dates, profile, List.cons_append, List.nil_append, List.mem_cons, List.not_mem_nil, or_false] at hsub
  rcases hsub with rfl | rfl | rfl | rfl | rfl | rfl | rfl | rfl | rfl | rfl | rfl | rfl <;> exact braced_ne_nil _

/-- A template without placeholders is left as it is. -/
theorem prompt_template_of_not_infix {now : Clock} {user : Option Profile} {template : Str}
    (h : ∀ sub ∈ legacy now user [], ¬ sub.1 <:+: template) : prompt_template now template user = template := by
  have hgroups : groupsFor user template = [] := by
    refine if_neg (h (userGroups, []) ?_)
    exact List.mem_append_right _ (List.mem_singleton_self _)
  rw [prompt_template, hgroups, replaceAll_of_not_infix legacy_ne_nil h]

end Prompts
end MaterialOpenWebui
