import LiveMarkup.Markup.Parse

set_option autoImplicit false

/-!
The tree builder without an arena. A draft is what the innermost open element holds so far, and the
open elements around it, each with the branches before it; closing them all gives the branches of
the finished tree.
-/

namespace LiveMarkup

/-- Branches put inside nodes, the innermost first, behind the branches that each follows. -/
def Branch.enclose {α : Type} (inner : List (Branch α)) :
    List (α × List (Branch α)) → List (Branch α)
  | [] => inner
  | (a, left) :: path => Branch.enclose (left ++ [.node a inner]) path

namespace Markup

/-- An open element with the branches before it. -/
structure Frame where
  name : String
  attributes : List Attribute
  foreign : Bool
  left : List (Branch NodeKind)

def Frame.kind (f : Frame) : NodeKind := .element f.name f.attributes

structure Draft where
  root : NodeKind
  inner : List (Branch NodeKind) := []
  /-- Open elements, the innermost first. -/
  frames : List Frame := []

namespace Draft

def foreign (d : Draft) : Bool := (d.frames.head?.map Frame.foreign).getD false

def put (d : Draft) (kind : NodeKind) : Draft := { d with inner := d.inner ++ [.node kind []] }

def addText (d : Draft) (content : String) : Draft :=
  if content.isEmpty then d
  else
    match d.inner.getLast? with
    | some (.node (.text before) below) =>
      { d with inner := d.inner.dropLast ++ [.node (.text (before ++ content)) below] }
    | _ => d.put (.text content)

def startElement (d : Draft) (tag : StartTag) : Draft :=
  let foreign := d.foreign || isForeignRoot tag.name
  let (name, attributes) := Builder.elementOf tag foreign
  if if foreign then tag.selfClosing else isVoid name then d.put (.element name attributes)
  else { d with inner := [], frames := ⟨name, attributes, foreign, d.inner⟩ :: d.frames }

/-- Closes elements up to the nearest one of a name. -/
def closeThrough (name : String) (inner : List (Branch NodeKind)) :
    List Frame → Option (List (Branch NodeKind) × List Frame)
  | [] => none
  | f :: fs =>
    let closed := f.left ++ [.node f.kind inner]
    if Text.sameName f.name name then some (closed, fs) else closeThrough name closed fs

def endElement (d : Draft) (name : String) : Draft :=
  match closeThrough name d.inner d.frames with
  | some (inner, frames) => { d with inner, frames }
  | none => d

def add (d : Draft) : Token → Draft
  | .text content | .rawText _ content => d.addText content
  | .comment content => d.put (.comment content)
  | .doctype name => if d.frames.isEmpty && d.root.isDocument then d.put (.doctype name) else d
  | .startTag tag => d.startElement tag
  | .endTag name => d.endElement name

def ofTokens (root : NodeKind) (tokens : List Token) : Draft := tokens.foldl add { root }

/-- All open elements closed. -/
def branches (d : Draft) : List (Branch NodeKind) :=
  Branch.enclose d.inner (d.frames.map fun f => (f.kind, f.left))

def content (d : Draft) : Branch NodeKind := .node d.root d.branches

end Draft

end Markup

end LiveMarkup
