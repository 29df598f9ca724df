import LiveMarkup.Decimal.Layout
import LiveMarkup.Text.Quoted

set_option autoImplicit false

/-!
Scalar values, which are shown as text.
-/

namespace LiveMarkup

inductive Primitive where
  | null
  | bool (b : Bool)
  /-- Integers are kept exact. -/
  | int (n : Int)
  | number (x : Decimal.Binary64)
  | str (s : String)
  deriving DecidableEq, Repr, Inhabited

namespace Primitive

def boolText (b : Bool) : String := if b then "true" else "false"

/-- The text in output; nothing is shown for null. -/
def text : Primitive → String
  | .null => ""
  | .bool b => boolText b
  | .int n => toString n
  | .number x => x.text
  | .str s => s

/-- Equality of scalars of one kind; numbers compare as numbers, so NaN differs from itself. -/
def same : Primitive → Primitive → Bool
  | .number x, .number y => x.sameNumber y
  | a, b => a == b

/-- The scalar as a developer reads it. -/
def literal : Primitive → String
  | .null => "Null"
  | .bool b => "Bool(" ++ boolText b ++ ")"
  | .int n => "Int(" ++ toString n ++ ")"
  | .number x => "Number(" ++ x.literal ++ ")"
  | .str s => "Str(" ++ Text.quoted s ++ ")"

end Primitive

end LiveMarkup
