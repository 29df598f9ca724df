import LiveMarkup.Part.Basic
import LiveMarkup.Render.Error
import LiveMarkup.Tree.Import

set_option autoImplicit false

/-!
Copies of a compiled template in a live tree: the prototype is copied, and each part is bound to the
node that stands at its place in the copy.
-/

namespace LiveMarkup

/-- Binds a compiled part to its node. A node part ends at the next sibling, or at an empty text
that is added behind it. -/
def Part.bind (tree : Tree) (part : TemplatePart) (node : NodeId) :
    Tree × Except RenderError Part :=
  match part.kind with
  | .node =>
    match tree.parent node, (tree.kind node).isText with
    | some parent, true =>
      match tree.nextSibling node with
      | some next => (tree, .ok (.node (.mk node next .empty)))
      | none =>
        let (tree, stop) := tree.create (.text "")
        (tree.append parent stop, .ok (.node (.mk node stop .empty)))
    | _, _ => (tree, .error (.partMismatch part.index .text))
  | .attribute name strings =>
    if (tree.kind node).isElement then
      (tree, .ok (.attribute { element := node, name, strings }))
    else (tree, .error (.partMismatch part.index .element))

/-- Binds parts one after the other, each to its node. -/
def Part.bindAll (tree : Tree) :
    List (TemplatePart × NodeId) → Tree × Except RenderError (List Part)
  | [] => (tree, .ok [])
  | (part, anchor) :: places =>
    match Part.bind tree part anchor with
    | (tree, .error e) => (tree, .error e)
    | (tree, .ok bound) =>
      let (tree, others) := Part.bindAll tree places
      (tree, others.map (bound :: ·))

/-- The node at the place of each part, for the nodes from an index on in pre-order. The parts of a
node are those that come next. -/
def TemplatePart.placesFrom (index : Nat) :
    List NodeId → List TemplatePart → Except RenderError (List (TemplatePart × NodeId))
  | [], [] => .ok []
  | [], part :: _ => .error (.partMismatch part.index .node)
  | node :: order, parts =>
    let (here, later) := parts.span (·.index == index)
    (placesFrom (index + 1) order later).map (here.map (·, node) ++ ·)

/-- The node at the place of each part, the nodes being given in pre-order. -/
def Template.places (t : Template) (order : List NodeId) :
    Except RenderError (List (TemplatePart × NodeId)) :=
  TemplatePart.placesFrom 0 order t.parts

/-- A copy of a template: its parts, and the unlinked root whose children are its content. -/
structure Copied where
  parts : List Part
  root : NodeId

/-- Copies a template. The tree is what it has become, also after an error. -/
def Template.copyInto (t : Template) (tree : Tree) : Tree × Except RenderError Copied :=
  let (tree, root) := tree.importFrom t.prototype.tree t.prototype.root
  match t.places (tree.preorder root) with
  | .error e => (tree, .error e)
  | .ok places =>
    let (tree, parts) := Part.bindAll tree places
    (tree, parts.map (⟨·, root⟩))

end LiveMarkup
