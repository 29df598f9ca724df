import LiveMarkup.Markup.CharacterReference
import LiveMarkup.Markup.Names
import LiveMarkup.Tree.Branch

set_option autoImplicit false

/-!
Nodes written as HTML. Text is escaped unless it is a child of an element whose text is raw, void
elements have neither content nor end tag, and a fragment or document is its children.
-/

namespace LiveMarkup.Html

open Markup (isVoid isRawText)
open Markup.CharacterReference (escapeText escapeAttribute)

/-- How HTML is written. -/
structure Style where
  /-- Void elements are written `<br/>` instead of `<br>`. -/
  selfCloseVoid : Bool := false
  deriving DecidableEq, Repr, Inhabited

def attributeText (a : Attribute) : String :=
  " " ++ a.name ++ "=\"" ++ escapeAttribute a.value ++ "\""

/-- A start tag without its closing bracket. -/
def openTag (name : String) (attributes : List Attribute) : String :=
  "<" ++ name ++ String.join (attributes.map attributeText)

mutual

/-- Writes a branch; `raw` says that the parent's text is written as it stands. -/
def write (style : Style) (raw : Bool) : Branch NodeKind → String
  | .node .fragment bs | .node .document bs => writeAll style false bs
  | .node (.doctype name) _ => "<!DOCTYPE " ++ name ++ ">"
  | .node (.comment content) _ => "<!--" ++ content ++ "-->"
  | .node (.text content) _ => if raw then content else escapeText content
  | .node (.element name attributes) bs =>
    if isVoid name then openTag name attributes ++ if style.selfCloseVoid then "/>" else ">"
    else
      openTag name attributes ++ ">" ++ writeAll style (isRawText name) bs ++ "</" ++ name ++ ">"

def writeAll (style : Style) (raw : Bool) : List (Branch NodeKind) → String
  | [] => ""
  | b :: bs => write style raw b ++ writeAll style raw bs

end

end LiveMarkup.Html

namespace LiveMarkup.Tree

/-- The subtree at `id` as HTML. -/
def toHtml (t : Tree) (id : NodeId) (style : Html.Style) : String :=
  Html.write style false (t.content id)

end LiveMarkup.Tree
