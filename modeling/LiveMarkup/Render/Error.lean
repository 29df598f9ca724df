import LiveMarkup.Markup.Error

set_option autoImplicit false

/-!
What can go wrong when a template is rendered.
-/

namespace LiveMarkup

/-- What a part has to be bound to. -/
inductive Anchor where
  /-- Any node at the part's place. -/
  | node
  /-- A text that has a parent. -/
  | text
  | element
  deriving DecidableEq, Repr

def Anchor.name : Anchor → String
  | .node => "node at part index"
  | .text => "anchor text"
  | .element => "element"

inductive RenderError where
  | parse (errors : List Markup.SyntaxError)
  /-- A part landed on a node of the wrong kind. -/
  | partMismatch (index : Nat) (expected : Anchor)
  /-- The number of values is not the number of holes, where it has to be. -/
  | valueCount (expected found : Nat)
  /-- A deferred value's outcome leads back to the deferred value. -/
  | endlessValue
  deriving DecidableEq, Repr

def RenderError.message : RenderError → String
  | .parse errors => "parse errors: " ++ String.intercalate "; " (errors.map (·.text))
  | .partMismatch index expected =>
    "part at node " ++ toString index ++ " expected " ++ expected.name
  | .valueCount expected found =>
    "template expects " ++ toString expected ++ " values, got " ++ toString found
  | .endlessValue => "value never ends"

end LiveMarkup
