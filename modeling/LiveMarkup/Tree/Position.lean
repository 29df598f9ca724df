import LiveMarkup.Tree.Basic

set_option autoImplicit false

/-!
Where a node stands among its siblings. The search starts at the place where the node was last put
and goes outward from there, so it is short when little has moved; the place it starts from decides
nothing else.
-/

namespace LiveMarkup

/-- The index of `x`, looked for at the distances 0, 1, 2, … from `start`, after it and before it. -/
def indexOutward {α : Type} [DecidableEq α] (xs : List α) (x : α) (start : Nat) : Option Nat :=
  (List.range (xs.length + 1)).findSome? fun distance =>
    let after := start + distance
    if xs[after]? = some x then some after
    else
      let before := start - (distance + 1)
      if distance < start ∧ xs[before]? = some x then some before else none

/-- Whatever the search finds is there. -/
theorem getElem?_of_indexOutward {α : Type} [DecidableEq α] {xs : List α} {x : α} {start i : Nat}
    (h : indexOutward xs x start = some i) : xs[i]? = some x := by
  obtain ⟨d, _, hd⟩ := List.exists_of_findSome?_eq_some h
  simp only at hd
  split at hd
  · cases hd
    assumption
  · split at hd
    · cases hd
      rename_i hb
      exact hb.2
    · cases hd

namespace Tree

/-- The parent of a node and the index of the node among the children. -/
def position (t : Tree) (id : NodeId) : Option (NodeId × Nat) :=
  match t.parent id with
  | none => none
  | some p =>
    let siblings := t.children p
    (indexOutward siblings id (min (t.node id).hint siblings.length)).map (p, ·)

def nextSibling (t : Tree) (id : NodeId) : Option NodeId :=
  (t.position id).bind fun (p, i) => (t.children p)[i + 1]?

def prevSibling (t : Tree) (id : NodeId) : Option NodeId :=
  (t.position id).bind fun (p, i) => if i = 0 then none else (t.children p)[i - 1]?

end Tree

end LiveMarkup
