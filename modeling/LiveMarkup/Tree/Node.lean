set_option autoImplicit false

/-!
Nodes: what a node is, its attributes, and its record in the arena of a tree. Links are numbers, so
a tree can be copied into another arena without sharing.
-/

namespace LiveMarkup

/-- The number of a node in its arena. -/
structure NodeId where
  index : Nat
  deriving DecidableEq, Repr, Inhabited

structure Attribute where
  name : String
  value : String
  deriving DecidableEq, Repr, Inhabited

/-- What a node is. -/
inductive NodeKind where
  /-- A container without a parent, whose children are the content. -/
  | fragment
  /-- The root of a full document. -/
  | document
  | doctype (name : String)
  | element (name : String) (attributes : List Attribute)
  | text (content : String)
  | comment (content : String)
  deriving DecidableEq, Repr, Inhabited

namespace NodeKind

def isElement : NodeKind → Bool
  | .element .. => true
  | _ => false

def isText : NodeKind → Bool
  | .text _ => true
  | _ => false

def isDocument : NodeKind → Bool
  | .document => true
  | _ => false

def text? : NodeKind → Option String
  | .text content => some content
  | _ => none

def comment? : NodeKind → Option String
  | .comment content => some content
  | _ => none

def elementName? : NodeKind → Option String
  | .element name _ => some name
  | _ => none

/-- The attributes of an element, none for every other kind. -/
def attributes : NodeKind → List Attribute
  | .element _ attributes => attributes
  | _ => []

end NodeKind

/-- A slot of the arena. A dead slot waits to be used again. -/
structure Node where
  kind : NodeKind := .fragment
  parent : Option NodeId := none
  children : List NodeId := []
  /-- Where the node was last put among its parent's children; a hint for finding it there. -/
  hint : Nat := 0
  live : Bool := true
  deriving DecidableEq, Repr, Inhabited

end LiveMarkup
