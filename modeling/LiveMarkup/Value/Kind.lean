set_option autoImplicit false

/-!
The kinds of values, by the names they are reported under.
-/

namespace LiveMarkup

inductive ValueKind where
  | primitive
  | template
  | iterable
  | node
  | pending
  | placeholder
  | absent
  | display
  deriving DecidableEq, Repr

def ValueKind.name : ValueKind → String
  | .primitive => "primitive"
  | .template => "template"
  | .iterable => "iterable"
  | .node => "node"
  | .pending => "pending"
  | .placeholder => "until"
  | .absent => "absent"
  | .display => "display"

end LiveMarkup
