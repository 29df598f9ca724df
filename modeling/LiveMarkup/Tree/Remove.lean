import LiveMarkup.Tree.Move

set_option autoImplicit false

/-!
Removing nodes together with what is below them. A removed node leaves a dead slot behind.
-/

namespace LiveMarkup.Tree

/-- Frees one node. -/
def bury (t : Tree) (id : NodeId) : Tree :=
  let t := t.modify id fun n =>
    { n with live := false, parent := none, kind := .fragment, children := [] }
  { t with free := id :: t.free, size := t.size - 1 }

theorem countP_bury {t : Tree} {id : NodeId} (h : t.contains id = true) :
    (t.bury id).nodes.countP (·.live) < t.nodes.countP (·.live) := by
  have hi := lt_size_of_contains h
  have hl : t.nodes[id.index].live = true := by
    simpa [contains, node, Array.getD_eq_getD_getElem?, hi] using h
  have hp : 0 < t.nodes.countP (·.live) :=
    Array.countP_pos_iff.2 ⟨t.nodes[id.index], Array.getElem_mem hi, hl⟩
  simp only [bury, modify, put, Array.setIfInBounds, hi, dif_pos, Array.countP_set, hl]
  simp only [↓reduceIte, Bool.false_eq_true]
  omega

/-- Frees the nodes of a stack and all below them: the children of a freed node go on top of the
stack, the last of them first. Dead nodes are skipped. -/
def release (t : Tree) : List NodeId → Tree
  | [] => t
  | id :: stack =>
    let below := t.children id
    if _h : t.contains id then (t.bury id).release (below.reverse ++ stack)
    else t.release stack
termination_by stack => (t.nodes.countP (·.live), stack.length)
decreasing_by
  · exact Prod.Lex.left _ _ (countP_bury _h)
  · exact Prod.Lex.right _ (by simp)

/-- Unlinks a node and frees it with all below it. -/
def remove (t : Tree) (id : NodeId) : Tree := (t.detach id).release [id]

/-- Frees unlinked siblings, each with all below it. -/
def removeAll (t : Tree) : List NodeId → Tree
  | [] => t
  | id :: ids => ((t.modify id fun n => { n with parent := none }).remove id).removeAll ids

/-- Removes `first` and its following siblings up to, not including, `stop`, or to the last one
where `stop` is no later sibling; without a parent only `first`. Returns how many it took. -/
def removeRange (t : Tree) (first stop : NodeId) : Tree × Nat :=
  if first = stop then (t, 0)
  else
    match t.position first with
    | none => (t.remove first, 1)
    | some (p, start) =>
      let siblings := t.children p
      let limit :=
        match t.position stop with
        | some (q, i) => if q = p ∧ start < i then i else siblings.length
        | none => siblings.length
      let doomed := (siblings.take limit).drop start
      let t := t.modify p fun n => { n with children := siblings.take start ++ siblings.drop limit }
      (t.touched.removeAll doomed, doomed.length)

/-- Removes the siblings strictly between two nodes. -/
def removeBetween (t : Tree) (start stop : NodeId) : Tree × Nat :=
  match t.nextSibling start with
  | some first => if first = stop then (t, 0) else t.removeRange first stop
  | none => (t, 0)

end LiveMarkup.Tree
