import LiveMarkup.Markup.DocumentStart
import LiveMarkup.Markup.Parse
import LiveMarkup.Template.Hole

set_option autoImplicit false

/-!
Compiled templates: a prototype tree and the parts found in it. The markup of the fragments is
parsed once. Marker comments become empty texts that anchor a node part; attributes that hold
markers are taken away and become attribute parts. Parts name their node by its place in pre-order,
so the same walk over a copy of the tree finds it again.
-/

namespace LiveMarkup

/-- How the value of an attribute is put together. -/
inductive AttributeStrings where
  /-- It is one value. -/
  | whole
  /-- Literal segments with a value between each two. -/
  | interpolated (segments : List String)
  deriving DecidableEq, Repr

namespace AttributeStrings

def ofSegments (segments : List String) : AttributeStrings :=
  if segments = ["", ""] then .whole else .interpolated segments

/-- How many values the attribute takes. -/
def size : AttributeStrings → Nat
  | .whole => 1
  | .interpolated segments => segments.length - 1

end AttributeStrings

inductive TemplatePartKind where
  | node
  | attribute (name : String) (strings : AttributeStrings)
  deriving DecidableEq, Repr

/-- A place of a template that takes values. -/
structure TemplatePart where
  kind : TemplatePartKind
  /-- The place of its node in pre-order, the root being 0. -/
  index : Nat
  /-- The first value it takes. -/
  valueIndex : Nat
  deriving DecidableEq, Repr

/-- How many values a part takes; node parts take one and have no size. -/
def TemplatePart.size (p : TemplatePart) : Option Nat :=
  match p.kind with
  | .node => none
  | .attribute _ strings => some strings.size

structure Template where
  prototype : Markup.Rooted
  parts : List TemplatePart
  kind : TemplateKind
  /-- How many values one render supplies. -/
  valueCount : Nat
  deriving Repr

def Template.isDocument (t : Template) : Bool :=
  (t.prototype.tree.kind t.prototype.root).isDocument

/-- A hole in an attribute that waits to be found: the attribute's name as written, the value. -/
structure AttributeHole where
  name : String
  value : Nat
  deriving DecidableEq, Repr

/-- Takes the first `count` holes of a name out of a list: their values, and the other holes. -/
def AttributeHole.takeNamed (name : String) :
    Nat → List AttributeHole → List Nat × List AttributeHole
  | 0, holes => ([], holes)
  | _, [] => ([], [])
  | count + 1, hole :: holes =>
    if Text.sameName hole.name name then
      let taken := takeNamed name count holes
      (hole.value :: taken.1, taken.2)
    else
      let taken := takeNamed name (count + 1) holes
      (taken.1, hole :: taken.2)

/-- A prototype while its parts are being found. -/
structure Binding where
  tree : Tree
  /-- Elements met so far. -/
  elements : Nat := 0
  /-- Values that go between nodes and have not been met. -/
  nodeHoles : List Nat
  parts : List TemplatePart := []
  events : List Event := []
  deriving Repr

namespace Binding

def report (b : Binding) (e : Event) : Binding := { b with events := b.events ++ [e] }

/-- Binds one attribute that holds markers; returns the holes that are left. -/
def bindAttribute (b : Binding) (node : NodeId) (index : Nat) (holes : List AttributeHole)
    (a : Attribute) : Binding × List AttributeHole :=
  let segments := (Text.splitOn marker.toList a.value.toList).map String.ofList
  let needed := segments.length - 1
  match AttributeHole.takeNamed a.name needed holes with
  | ([], _) => (b.report (.staticMarker a.name), holes)
  | (first :: values, left) =>
    let b := { b with tree := (b.tree.removeAttribute node a.name).1 }
    let found := values.length + 1
    if found = needed then
      ({ b with
          parts := b.parts ++
            [⟨.attribute a.name (.ofSegments segments), index, first⟩] }, left)
    else (b.report (.markerMismatch a.name needed found), holes)

/-- Binds the attributes of one element that hold markers. -/
def bindAttributes (b : Binding) (node : NodeId) (index : Nat) (holes : List AttributeHole) :
    Binding :=
  let marked := (b.tree.attributes node).filter fun a =>
    (Text.breakOn marker.toList a.value.toList).isSome
  let (b, left) := marked.foldl
    (fun (b, holes) a => b.bindAttribute node index holes a) (b, holes)
  left.foldl (fun b h => b.report (.unboundAttributeValue h.value h.name)) b

/-- Binds what is at one node. -/
def visit (holes : List Hole) (b : Binding) (node : NodeId) (index : Nat) : Binding :=
  match b.tree.kind node with
  | .element .. =>
    let here := holes.zipIdx.filterMap fun (hole, value) =>
      match hole with
      | .attribute element name => if element = b.elements then some ⟨name, value⟩ else none
      | _ => none
    { b with elements := b.elements + 1 }.bindAttributes node index here
  | .comment content =>
    match b.nodeHoles with
    | value :: rest =>
      if content = marker then
        { b with
          tree := b.tree.setKind node (.text "")
          nodeHoles := rest
          parts := b.parts ++ [⟨.node, index, value⟩] }
      else b
    | [] => b
  | _ => b

end Binding

/-- Values that go where no value is accepted. -/
def misplaced (holes : List Hole) : List Event :=
  holes.zipIdx.filterMap fun (hole, value) =>
    match hole with
    | .closed place => some (.misplacedValue value place)
    | _ => none

/-- Values of attributes of elements that the tree does not have. -/
def beyondElements (holes : List Hole) (elements : Nat) : List Event :=
  holes.zipIdx.filterMap fun (hole, value) =>
    match hole with
    | .attribute element _ => if elements ≤ element then some (.unboundValue value) else none
    | _ => none

namespace Template

/-- Finds the parts of a parsed prototype. -/
def bind (prototype : Markup.Rooted) (holes : List Hole) : Binding :=
  let nodeHoles := holes.zipIdx.filterMap fun (hole, value) =>
    if hole = .node then some value else none
  let unbound : Binding := { tree := prototype.tree, nodeHoles, events := misplaced holes }
  let b := (prototype.tree.preorder prototype.root).zipIdx.foldl
    (fun b (node, index) => b.visit holes node index) unbound
  { b with
    events := b.events ++ b.nodeHoles.map .unboundValue ++ beyondElements holes b.elements }

/-- Parses the markup of a template. With `detectDocuments`, HTML that starts like a document is
one. -/
def parse (kind : TemplateKind) (detectDocuments : Bool) (markup : String) :
    Markup.Reported Markup.Rooted :=
  match kind with
  | .html =>
    if detectDocuments && Markup.looksLikeDocument markup then Markup.parseDocument markup
    else Markup.parseFragment markup
  | .svg => Markup.parseSvgFragment markup

def compile (strings : TemplateStrings) (kind : TemplateKind) (detectDocuments : Bool) :
    Markup.Reported Template :=
  let scan := Scan.ofStrings strings kind
  let parsed := parse kind detectDocuments scan.markup
  match parsed.outcome with
  | .error errors => { outcome := .error errors, events := parsed.events }
  | .ok prototype =>
    let b := bind prototype scan.holes
    { outcome := .ok
        { prototype := { prototype with tree := b.tree }, parts := b.parts, kind
          valueCount := strings.holeCount }
      events := parsed.events ++ b.events ++
        [.compiled kind b.parts.length strings.holeCount b.tree.size] }

end Template

end LiveMarkup
