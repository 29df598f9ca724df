import LiveMarkup.Tree.Html

set_option autoImplicit false

/-!
Options of rendering and of writing HTML.
-/

namespace LiveMarkup

structure RenderConfig where
  style : Html.Style := {}
  /-- Refuse updates whose number of values is not the number of holes. Otherwise missing values are
  null and extra ones are ignored. -/
  strictValueCount : Bool := false
  /-- Read HTML that starts with a doctype or an `html` tag as a full document. -/
  detectDocuments : Bool := true
  deriving DecidableEq, Repr, Inhabited

end LiveMarkup
