import MaterialOpenWebui.Lib.Nested
import MaterialOpenWebui.Lib.Pieces
import MaterialOpenWebui.Py.Text

/-!
# `Access.Permissions` — what a user's groups allow (`backend/open_webui/utils/access_control/__init__.py`)

A permission tree is a dictionary of booleans and of dictionaries again. `get_permissions` merges the defaults with the trees
of a user's groups, the most permissive value first; it is what the interface shows. `has_permission` looks for one dotted
path, in each group's tree and then in the defaults; it is what the endpoints enforce.

Both functions are given the defaults as an object; what it is afterwards is returned beside the result. There is no result
where the code raises: a boolean is no dictionary to look a key up in. The values of the constants that the source's
defaults are made of come from the environment, and are a parameter.
-/

namespace MaterialOpenWebui
namespace Access
open Py
open Nested (Entry)

/-! ## Trees -/

abbrev Permissions := Nested Str Bool

/-- A group, of which only the permissions are read. -/
structure Group where
  permissions : Option Permissions
  wf : ∀ p, permissions = some p → p.Wf

/-- `group.permissions or {}`. -/
def Group.tree (group : Group) : Permissions := group.permissions.getD .nil

theorem Group.wf_tree (group : Group) : group.tree.Wf := by
  obtain ⟨permissions, hwf⟩ := group
  cases permissions with
  | none => exact trivial
  | some p => exact hwf p rfl

/-- A dictionary of booleans and dictionaries. -/
structure Defaults where
  tree : Permissions
  wf : tree.Wf

/-! ## The defaults of the source -/

/-- The keys, and the constants that are their values. -/
def default_user_permissions : List (String × List (String × String)) :=
  [("workspace",
    [("models", "USER_PERMISSIONS_WORKSPACE_MODELS_ACCESS"), ("knowledge", "USER_PERMISSIONS_WORKSPACE_KNOWLEDGE_ACCESS"),
      ("prompts", "USER_PERMISSIONS_WORKSPACE_PROMPTS_ACCESS"), ("tools", "USER_PERMISSIONS_WORKSPACE_TOOLS_ACCESS"),
      ("skills", "USER_PERMISSIONS_WORKSPACE_SKILLS_ACCESS"), ("models_import", "USER_PERMISSIONS_WORKSPACE_MODELS_IMPORT"),
      ("models_export", "USER_PERMISSIONS_WORKSPACE_MODELS_EXPORT"),
      ("prompts_import", "USER_PERMISSIONS_WORKSPACE_PROMPTS_IMPORT"),
      ("prompts_export", "USER_PERMISSIONS_WORKSPACE_PROMPTS_EXPORT"),
      ("tools_import", "USER_PERMISSIONS_WORKSPACE_TOOLS_IMPORT"),
        ("tools_export", "USER_PERMISSIONS_WORKSPACE_TOOLS_EXPORT"),
      ("skills_import", "USER_PERMISSIONS_WORKSPACE_SKILLS_IMPORT"),
      ("skills_export", "USER_PERMISSIONS_WORKSPACE_SKILLS_EXPORT")]),
    ("sharing",
      [("models", "USER_PERMISSIONS_WORKSPACE_MODELS_ALLOW_SHARING"),
        ("public_models", "USER_PERMISSIONS_WORKSPACE_MODELS_ALLOW_PUBLIC_SHARING"),
        ("knowledge", "USER_PERMISSIONS_WORKSPACE_KNOWLEDGE_ALLOW_SHARING"),
        ("public_knowledge", "USER_PERMISSIONS_WORKSPACE_KNOWLEDGE_ALLOW_PUBLIC_SHARING"),
        ("prompts", "USER_PERMISSIONS_WORKSPACE_PROMPTS_ALLOW_SHARING"),
        ("public_prompts", "USER_PERMISSIONS_WORKSPACE_PROMPTS_ALLOW_PUBLIC_SHARING"),
        ("tools", "USER_PERMISSIONS_WORKSPACE_TOOLS_ALLOW_SHARING"),
        ("public_tools", "USER_PERMISSIONS_WORKSPACE_TOOLS_ALLOW_PUBLIC_SHARING"),
        ("skills", "USER_PERMISSIONS_WORKSPACE_SKILLS_ALLOW_SHARING"),
        ("public_skills", "USER_PERMISSIONS_WORKSPACE_SKILLS_ALLOW_PUBLIC_SHARING"),
        ("notes", "USER_PERMISSIONS_NOTES_ALLOW_SHARING"), ("public_notes", "USER_PERMISSIONS_NOTES_ALLOW_PUBLIC_SHARING"),
        ("folders", "USER_PERMISSIONS_FOLDERS_ALLOW_SHARING"),
        ("public_chats", "USER_PERMISSIONS_CHAT_ALLOW_PUBLIC_SHARING"),
        ("open_chats", "USER_PERMISSIONS_CHAT_ALLOW_OPEN_SHARING"),
        ("public_calendars", "USER_PERMISSIONS_CALENDAR_ALLOW_PUBLIC_SHARING")]),
    ("access_grants",
      [("allow_users", "USER_PERMISSIONS_ACCESS_GRANTS_ALLOW_USERS"),
        ("allow_groups", "USER_PERMISSIONS_ACCESS_GRANTS_ALLOW_GROUPS")]),
    ("chat",
      [("controls", "USER_PERMISSIONS_CHAT_CONTROLS"), ("valves", "USER_PERMISSIONS_CHAT_VALVES"),
        ("system_prompt", "USER_PERMISSIONS_CHAT_SYSTEM_PROMPT"), ("params", "USER_PERMISSIONS_CHAT_PARAMS"),
        ("file_upload", "USER_PERMISSIONS_CHAT_FILE_UPLOAD"), ("web_upload", "USER_PERMISSIONS_CHAT_WEB_UPLOAD"),
        ("delete", "USER_PERMISSIONS_CHAT_DELETE"), ("delete_message", "USER_PERMISSIONS_CHAT_DELETE_MESSAGE"),
        ("continue_response", "USER_PERMISSIONS_CHAT_CONTINUE_RESPONSE"),
        ("regenerate_response", "USER_PERMISSIONS_CHAT_REGENERATE_RESPONSE"),
        ("rate_response", "USER_PERMISSIONS_CHAT_RATE_RESPONSE"), ("edit", "USER_PERMISSIONS_CHAT_EDIT"),
        ("share", "USER_PERMISSIONS_CHAT_SHARE"), ("export", "USER_PERMISSIONS_CHAT_EXPORT"),
        ("import", "USER_PERMISSIONS_CHAT_IMPORT"), ("stt", "USER_PERMISSIONS_CHAT_STT"),
          ("tts", "USER_PERMISSIONS_CHAT_TTS"),
        ("call", "USER_PERMISSIONS_CHAT_CALL"), ("multiple_models", "USER_PERMISSIONS_CHAT_MULTIPLE_MODELS"),
        ("temporary", "USER_PERMISSIONS_CHAT_TEMPORARY"),
        ("temporary_enforced", "USER_PERMISSIONS_CHAT_TEMPORARY_ENFORCED")]),
    ("features",
      [("api_keys", "USER_PERMISSIONS_FEATURES_API_KEYS"), ("notes", "USER_PERMISSIONS_FEATURES_NOTES"),
        ("folders", "USER_PERMISSIONS_FEATURES_FOLDERS"), ("channels", "USER_PERMISSIONS_FEATURES_CHANNELS"),
        ("direct_tool_servers", "USER_PERMISSIONS_FEATURES_DIRECT_TOOL_SERVERS"),
        ("web_search", "USER_PERMISSIONS_FEATURES_WEB_SEARCH"),
        ("image_generation", "USER_PERMISSIONS_FEATURES_IMAGE_GENERATION"),
        ("code_interpreter", "USER_PERMISSIONS_FEATURES_CODE_INTERPRETER"),
        ("memories", "USER_PERMISSIONS_FEATURES_MEMORIES"), ("automations", "USER_PERMISSIONS_FEATURES_AUTOMATIONS"),
        ("calendar", "USER_PERMISSIONS_FEATURES_CALENDAR"), ("webhooks", "USER_PERMISSIONS_FEATURES_USER_WEBHOOKS")]),
    ("settings", [("interface", "USER_PERMISSIONS_SETTINGS_INTERFACE")])]

def DEFAULT_USER_PERMISSIONS (constant : String → Bool) : Permissions :=
  default_user_permissions.foldr (fun category rest =>
    .node (py category.1)
      (category.2.foldr (fun permission rest => .leaf (py permission.1) (constant permission.2) rest) .nil)
      rest) .nil

/-! ## Merging -/

/-- `fill_missing_permissions`. -/
def fill_missing_permissions (permissions default_permissions : Permissions) : Permissions :=
  permissions.fill default_permissions

/-- `permissions[key] or value`, or the value where the key is not there. -/
def most_permissive (old : Option (Entry Str Bool)) (value : Bool) : Entry Str Bool :=
  match old with
  | none => .leaf value
  | some (.leaf b) => .leaf (b || value)
  | some (.node sub) => if sub = .nil then .leaf value else .node sub

def combine_permissions (permissions : Permissions) : Permissions → Option Permissions
  | .nil => some permissions
  | .leaf key value rest => combine_permissions (permissions.set key (most_permissive (permissions.get? key) value)) rest
  | .node key sub rest =>
      match permissions.get? key with
      | none => (combine_permissions .nil sub).bind fun s => combine_permissions (permissions.set key (.node s)) rest
      | some (.node old) =>
          (combine_permissions old sub).bind fun s => combine_permissions (permissions.set key (.node s)) rest
      -- the loop over an empty dictionary looks nothing up in the boolean
      | some (.leaf _) => if sub = .nil then combine_permissions permissions rest else none

/-- The trees of the groups, one after the other. -/
def combine_groups (permissions : Permissions) : List Group → Option Permissions
  | [] => some permissions
  | group :: groups => (combine_permissions permissions group.tree).bind fun p => combine_groups p groups

/-- The defaults are copied first, so they stay as they are. -/
def get_permissions (get_groups_by_member_id : Str → List Group) (user_id : Str) (default_permissions : Permissions) :
    Option Permissions × Permissions :=
  ((combine_groups default_permissions (get_groups_by_member_id user_id)).map fun permissions =>
    fill_missing_permissions permissions default_permissions, default_permissions)

/-! ## Searching -/

/-- `bool(permissions)`. -/
def truthy : Entry Str Bool → Bool
  | .leaf b => b
  | .node sub => sub ≠ .nil

/-- The loop of `get_permission`. -/
def get_permission : Entry Str Bool → List Str → Option Bool
  | permissions, [] => some (truthy permissions)
  | .leaf _, _ :: _ => none
  | .node t, key :: keys =>
      match t.get? key with
      | none => some false
      | some permissions => get_permission permissions keys

def has_permission (constant : String → Bool) (get_groups_by_member_id : Str → List Group) (user_id permission_key : Str)
    (default_permissions : Permissions) : Option Bool × Permissions :=
  let permission_hierarchy := permission_key.splitOn (ofChar '.')
  let rec search : List Group → Option Bool × Permissions
    | [] =>
        let default_permissions := fill_missing_permissions default_permissions (DEFAULT_USER_PERMISSIONS constant)
        (get_permission (.node default_permissions) permission_hierarchy, default_permissions)
    | group :: groups =>
        match get_permission (.node group.tree) permission_hierarchy with
        | none => (none, default_permissions)
        | some true => (some true, default_permissions)
        | some false => search groups
  search (get_groups_by_member_id user_id)

end Access
end MaterialOpenWebui
