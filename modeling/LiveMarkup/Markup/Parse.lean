import LiveMarkup.Event
import LiveMarkup.Markup.Token
import LiveMarkup.Tree.Move
import LiveMarkup.Tree.Branch
import LiveMarkup.Tree.Remove

set_option autoImplicit false

/-!
Trees from markup. A stack of open elements decides where each token lands. An end tag closes the
nearest open element of its name and everything inside, and is ignored if there is none, so
unbalanced markup still gives a tree.
-/

namespace LiveMarkup.Markup

/-- An element whose end tag may still come. -/
structure OpenElement where
  node : NodeId
  name : String
  /-- Inside foreign content, where names keep their case. -/
  foreign : Bool
  deriving DecidableEq, Repr

/-- A tree under construction below `root`. -/
structure Builder where
  tree : Tree
  root : NodeId
  /-- Open elements, the innermost first. -/
  opened : List OpenElement := []
  events : List Event := []
  deriving Repr

namespace Builder

/-- Where the next node goes. -/
def parent (b : Builder) : NodeId := (b.opened.head?.map (·.node)).getD b.root

def foreign (b : Builder) : Bool := (b.opened.head?.map (·.foreign)).getD false

def report (b : Builder) (e : Event) : Builder := { b with events := b.events ++ [e] }

def appendNode (b : Builder) (kind : NodeKind) : Builder × NodeId :=
  let parent := b.parent
  let (tree, id) := b.tree.create kind
  ({ b with tree := tree.append parent id }, id)

/-- Appends text; it continues a text that stands right before it. -/
def appendText (b : Builder) (content : String) : Builder :=
  if content.isEmpty then b
  else
    let last := (b.tree.children b.parent).getLast?
    match last, last.bind fun id => (b.tree.kind id).text? with
    | some id, some before => { b with tree := (b.tree.setText id (before ++ content)).1 }
    | _, _ => (b.appendNode (.text content)).1

/-- Of attributes with one name the first counts. -/
def distinct (attributes : List Attribute) : List Attribute :=
  attributes.foldl (fun seen a => if seen.any (·.name == a.name) then seen else seen ++ [a]) []

/-- Element and attribute names lose their case outside foreign content; the element that starts
foreign content loses it too, but its attributes do not. -/
def elementOf (tag : StartTag) (foreign : Bool) : String × List Attribute :=
  let root := isForeignRoot tag.name
  (if foreign && !root then tag.name else tag.name.toLower,
    distinct (tag.attributes.map fun a => if foreign then a else { a with name := a.name.toLower }))

/-- Appends an element and leaves it open, unless it is self-closed foreign content or a void
element of HTML. -/
def startElement (b : Builder) (tag : StartTag) : Builder :=
  let foreign := b.foreign || isForeignRoot tag.name
  let (name, attributes) := elementOf tag foreign
  let (b, node) := b.appendNode (.element name attributes)
  if if foreign then tag.selfClosing else isVoid name then b
  else { b with opened := ⟨node, name, foreign⟩ :: b.opened }

/-- Closes the nearest open element of a name and everything inside it. -/
def endElement (b : Builder) (name : String) : Builder :=
  match b.opened.dropWhile fun e => !Text.sameName e.name name with
  | _ :: opened => { b with opened }
  | [] => b.report (.ignoredEndTag name)

def add (b : Builder) : Token → Builder
  | .text content | .rawText _ content => b.appendText content
  | .comment content => (b.appendNode (.comment content)).1
  | .doctype name =>
    if b.opened.isEmpty && (b.tree.kind b.root).isDocument then (b.appendNode (.doctype name)).1
    else b.report .ignoredDoctype
  | .startTag tag => b.startElement tag
  | .endTag name => b.endElement name

end Builder

/-- Appends the nodes of tokens below `root`. -/
def build (tree : Tree) (root : NodeId) (tokens : List (Token × Span)) : Builder :=
  tokens.foldl (fun b t => b.add t.1) { tree, root }

/-- What scanning reports: every content that was read as one text. -/
def Lexing.events (l : Lexing) : List Event :=
  l.tokens.filterMap fun
    | (.rawText element _, span) => some (.readRawText element (span.stop - span.start))
    | _ => none

/-- The outcome of an activity, with what it reported on the way. -/
structure Reported (α : Type) where
  outcome : Except (List SyntaxError) α
  events : List Event := []

/-- Parses markup into the children of `parent`. -/
def parseInto (tree : Tree) (parent : NodeId) (markup : String) : Reported Tree :=
  let lexing := Lexing.ofMarkup markup
  if lexing.errors.isEmpty then
    let built := build tree parent lexing.tokens
    { outcome := .ok built.tree, events := lexing.events ++ built.events }
  else { outcome := .error lexing.errors, events := lexing.events }

/-- A tree with the node that stands for all of it. -/
structure Rooted where
  tree : Tree
  root : NodeId
  deriving Repr

namespace Rooted

def content (r : Rooted) : Branch NodeKind := r.tree.content r.root

end Rooted

def parseRooted (kind : NodeKind) (markup : String) : Reported Rooted :=
  let (tree, root) := ({} : Tree).create kind
  let parsed := parseInto tree root markup
  { parsed with outcome := parsed.outcome.map (Rooted.mk · root) }

def parseFragment (markup : String) : Reported Rooted := parseRooted .fragment markup

def parseDocument (markup : String) : Reported Rooted := parseRooted .document markup

def svgOpen : String := "<svg>"

def svgClose : String := "</svg>"

/-- Puts the children of the first `svg` child in its place. -/
def Rooted.unwrapSvg (r : Rooted) : Rooted :=
  match (r.tree.children r.root).find? fun n => (r.tree.kind n).elementName? == some "svg" with
  | some wrapper =>
    { r with tree := (r.tree.moveChildren wrapper r.root (some wrapper)).remove wrapper }
  | none => r

/-- Parses SVG content. It is read inside an `svg` element, which is taken away again; the errors'
places are those in the markup itself. -/
def parseSvgFragment (markup : String) : Reported Rooted :=
  let parsed := parseFragment (svgOpen ++ markup ++ svgClose)
  { parsed with
    outcome := (parsed.outcome.map Rooted.unwrapSvg).mapError
      (·.map (·.earlier svgOpen.utf8ByteSize)) }

end LiveMarkup.Markup
