set_option autoImplicit false

/-!
The two kinds of templates, and the places where a template's value cannot go.
-/

namespace LiveMarkup

/-- What the markup of a template is read as. -/
inductive TemplateKind where
  | html
  /-- SVG content, read as foreign elements. -/
  | svg
  deriving DecidableEq, Repr, Inhabited

def TemplateKind.name : TemplateKind → String
  | .html => "Html"
  | .svg => "Svg"

/-- Where in markup no value is accepted. -/
inductive ClosedPlace where
  | rawText
  | comment
  | declaration
  | tag
  deriving DecidableEq, Repr

def ClosedPlace.name : ClosedPlace → String
  | .rawText => "raw text element"
  | .comment => "comment"
  | .declaration => "declaration or end tag"
  | .tag => "tag or attribute name"

end LiveMarkup
