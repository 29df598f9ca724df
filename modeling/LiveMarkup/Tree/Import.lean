import LiveMarkup.Tree.Branch

set_option autoImplicit false

/-!
Copying a subtree into another arena. Copies are created in pre-order and share nothing with what
they were copied from.
-/

namespace LiveMarkup.Tree

mutual

/-- Creates the nodes of a branch; returns the number of its root, which has no parent. -/
def graft (t : Tree) : Branch NodeKind → Tree × NodeId
  | .node kind bs =>
    let (t, id) := t.create kind
    let (t, ids) := graftAll t id 0 bs
    (t.modify id fun n => { n with children := ids }, id)

/-- Creates branches that are to become the children of `parent` from an index on. -/
def graftAll (t : Tree) (parent : NodeId) (index : Nat) :
    List (Branch NodeKind) → Tree × List NodeId
  | [] => (t, [])
  | b :: bs =>
    let (t, id) := t.graft b
    let t := t.modify id fun n => { n with parent := some parent, hint := index }
    let (t, ids) := graftAll t parent (index + 1) bs
    (t, id :: ids)

end

/-- Copies the subtree at `id` of `source`; the copy of `id` is unlinked. -/
def importFrom (t source : Tree) (id : NodeId) : Tree × NodeId := t.graft (source.content id)

end LiveMarkup.Tree
