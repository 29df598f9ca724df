set_option autoImplicit false

/-!
What the names of elements decide. Names compare without regard to ASCII case.
-/

namespace LiveMarkup.Markup

/-- Elements that never have content or an end tag. -/
def voidNames : List String :=
  ["area", "base", "br", "col", "embed", "hr", "img", "input", "link", "meta", "param", "source",
    "track", "wbr"]

/-- Elements that start foreign content. -/
def foreignRootNames : List String := ["svg", "math"]

/-- Elements whose text children are written without escaping. -/
def rawTextNames : List String :=
  ["style", "script", "xmp", "iframe", "noembed", "noframes", "plaintext", "noscript"]

def isVoid (name : String) : Bool := voidNames.contains name.toLower

def isForeignRoot (name : String) : Bool := foreignRootNames.contains name.toLower

def isRawText (name : String) : Bool := rawTextNames.contains name.toLower

/-- How the content of an element is read when it is not markup. -/
inductive TextMode where
  /-- As it stands, up to the end tag of the same name. -/
  | raw
  /-- As it stands, except that character references are decoded. -/
  | escapable
  deriving DecidableEq, Repr

/-- Elements whose content is one text. -/
def textMode (name : String) : Option TextMode :=
  let name := name.toLower
  if ["script", "style", "xmp", "iframe", "noembed", "noframes", "noscript"].contains name then
    some .raw
  else if ["textarea", "title"].contains name then some .escapable
  else none

end LiveMarkup.Markup
