import LiveMarkup.Template.Kind

set_option autoImplicit false

/-!
The literal fragments of a template. Values go between them, so there is one fragment more than
there are holes. Fragments have an identity: templates written at one place share it, and equal
fragments written twice do not.
-/

namespace LiveMarkup

/-- Stands for a hole in markup. -/
def marker : String := "\x7b\x7bssr-hole\x7d\x7d"

/-- A hole between nodes, in markup. -/
def nodeMarker : String := "<!--" ++ marker ++ "-->"

structure StringsId where
  index : Nat
  deriving DecidableEq, Repr, Inhabited

structure TemplateStrings where
  identity : StringsId
  first : String
  rest : List String
  deriving DecidableEq, Repr, Inhabited

namespace TemplateStrings

/-- No fragments at all are one empty fragment. -/
def ofFragments (identity : StringsId) : List String → TemplateStrings
  | [] => ⟨identity, "", []⟩
  | first :: rest => ⟨identity, first, rest⟩

def fragments (s : TemplateStrings) : List String := s.first :: s.rest

def holeCount (s : TemplateStrings) : Nat := s.rest.length

/-- The fragments with a marker for every hole: what templates of one content have in common. -/
def joined (s : TemplateStrings) : String := String.intercalate marker s.fragments

end TemplateStrings

end LiveMarkup
