import LiveMarkup.Tree.Position

set_option autoImplicit false

/-!
Linking and unlinking nodes without creating or freeing any.
-/

namespace LiveMarkup.Tree

/-- Makes a node the child of `parent` at an index. -/
def link (t : Tree) (parent id : NodeId) (index : Nat) : Tree :=
  (t.modify id fun n => { n with parent := some parent, hint := index }).modify parent fun n =>
    { n with children := n.children.insertIdx index id }

/-- Unlinks a node from its parent. -/
def detach (t : Tree) (id : NodeId) : Tree :=
  match t.position id with
  | some (p, i) =>
    ((t.modify p fun n => { n with children := n.children.eraseIdx i }).modify id fun n =>
      { n with parent := none }).touched
  | none => t

/-- Makes a node the last child of `parent`. -/
def append (t : Tree) (parent id : NodeId) : Tree :=
  let t := t.detach id
  (t.link parent id (t.children parent).length).touched

/-- Puts a node right before `reference`. It is taken from its old place in any case; where
`reference` has no parent there is no new one, and the answer is `false`. -/
def insertBefore (t : Tree) (reference id : NodeId) : Tree × Bool :=
  let t := t.detach id
  match t.position reference with
  | some (p, i) => ((t.link p id i).touched, true)
  | none => (t, false)

/-- Links nodes one after the other from an index on. -/
def linkAll (t : Tree) (parent : NodeId) : List NodeId → Nat → Tree
  | [], _ => t
  | id :: ids, index => (t.link parent id index).linkAll parent ids (index + 1)

/-- Moves all children of `source` under `target`, in front of `before` or to the end. -/
def moveChildren (t : Tree) (source target : NodeId) (before : Option NodeId) : Tree :=
  let moved := t.children source
  if moved.isEmpty then t
  else
    let t := t.modify source fun n => { n with children := [] }
    let siblings := t.children target
    let index := (before.bind fun b => siblings.findIdx? (· == b)).getD siblings.length
    (t.linkAll target moved index).touched

/-- Moves all children of `source` right before `reference`, if that has a parent. -/
def moveChildrenBefore (t : Tree) (source reference : NodeId) : Tree × Bool :=
  match t.parent reference with
  | some p => (t.moveChildren source p (some reference), true)
  | none => (t, false)

end LiveMarkup.Tree
