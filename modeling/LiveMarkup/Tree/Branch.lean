import LiveMarkup.Tree.Basic

set_option autoImplicit false

/-!
The subtree below a node as a value of its own, without an arena. Everything that only looks at a
tree (order, text, written form, dump) is a recursion on branches.
-/

namespace LiveMarkup

/-- A label and the branches below it. -/
inductive Branch (α : Type) where
  | node (label : α) (branches : List (Branch α))
  deriving Repr

namespace Branch

variable {α β : Type}

def label : Branch α → α
  | .node a _ => a

def branches : Branch α → List (Branch α)
  | .node _ bs => bs

mutual

/-- The labels in pre-order, the root first. -/
def labels : Branch α → List α
  | .node a bs => a :: labelsOfAll bs

def labelsOfAll : List (Branch α) → List α
  | [] => []
  | b :: bs => b.labels ++ labelsOfAll bs

end

mutual

def map (f : α → β) : Branch α → Branch β
  | .node a bs => .node (f a) (mapAll f bs)

def mapAll (f : α → β) : List (Branch α) → List (Branch β)
  | [] => []
  | b :: bs => b.map f :: mapAll f bs

end

mutual

/-- The labels in pre-order, each with its depth below the root. -/
def rows (depth : Nat) : Branch α → List (Nat × α)
  | .node a bs => (depth, a) :: rowsOfAll (depth + 1) bs

def rowsOfAll (depth : Nat) : List (Branch α) → List (Nat × α)
  | [] => []
  | b :: bs => b.rows depth ++ rowsOfAll depth bs

end

mutual

theorem labels_map (f : α → β) (b : Branch α) : (b.map f).labels = b.labels.map f := by
  cases b with
  | node a bs => simp [map, labels, labelsOfAll_mapAll f bs]

theorem labelsOfAll_mapAll (f : α → β) (bs : List (Branch α)) :
    labelsOfAll (mapAll f bs) = (labelsOfAll bs).map f := by
  cases bs with
  | nil => rfl
  | cons b bs => simp [mapAll, labelsOfAll, labels_map f b, labelsOfAll_mapAll f bs]

end

end Branch

namespace Tree

/-- The nodes below `id`, down to `depth` levels. -/
def branchWithin (t : Tree) : Nat → NodeId → Branch NodeId
  | 0, id => .node id []
  | depth + 1, id => .node id ((t.children id).map (t.branchWithin depth))

/-- The subtree at `id`. No path in an arena of `n` nodes is longer than `n`. -/
def branch (t : Tree) (id : NodeId) : Branch NodeId := t.branchWithin t.nodes.size id

/-- What the nodes of the subtree at `id` are. -/
def content (t : Tree) (id : NodeId) : Branch NodeKind := (t.branch id).map t.kind

/-- The nodes of the subtree at `id` in pre-order. -/
def preorder (t : Tree) (id : NodeId) : List NodeId := (t.branch id).labels

/-- The first element of a name in the subtree at `id`. -/
def findElement (t : Tree) (id : NodeId) (name : String) : Option NodeId :=
  (t.preorder id).find? fun n => (t.kind n).elementName? == some name

/-- The text of all text nodes in the subtree at `id`. -/
def textContent (t : Tree) (id : NodeId) : String :=
  String.join ((t.preorder id).filterMap fun n => (t.kind n).text?)

end Tree

end LiveMarkup
