import MaterialOpenWebui.Tabs.Invariant

/-!
# `Tabs.Closing` — closing what a predicate selects

`closeMatching` closes the doomed tabs one after the other, by `close`, which selects a neighbour of the tab it closes. So the
strip that is left is read off at once (`tabs_closeEach`), and the selection is followed from close to close.
-/

namespace MaterialOpenWebui
namespace Tabs
open Js

/-! ## One tab -/

/-- A tab stays: it is pinned, or does not match, or does if the matching ones are to stay. -/
def keeps (groups : List Group) (test : JsString → Bool) (labelFor : JsString → JsString) (invert : Bool) (t : Tab) : Bool :=
  t.pinned || (if invert then test (haystack t labelFor groups) else !test (haystack t labelFor groups))

end Tabs
end MaterialOpenWebui
