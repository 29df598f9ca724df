import LiveMarkup.Tree.Node

set_option autoImplicit false

/-!
A tree is an arena of nodes. Removed nodes leave dead slots, which are used again before the arena
grows, the latest first. Every change of structure or content is counted; creation is not.

Operations are total: they do not ask whether a number names a live node. What callers promise is
`Tree.WellFormed`.
-/

namespace LiveMarkup

structure Tree where
  nodes : Array Node := #[]
  /-- Dead slots, the latest first. -/
  free : List NodeId := []
  /-- How many nodes are live. -/
  size : Nat := 0
  /-- How many changes were made. -/
  mutations : Nat := 0
  deriving DecidableEq, Repr, Inhabited

namespace Tree

/-- The node of a number; a dead one where the arena has none. -/
def node (t : Tree) (id : NodeId) : Node := t.nodes.getD id.index { live := false }

def kind (t : Tree) (id : NodeId) : NodeKind := (t.node id).kind

def parent (t : Tree) (id : NodeId) : Option NodeId := (t.node id).parent

def children (t : Tree) (id : NodeId) : List NodeId := (t.node id).children

/-- Whether a number names a live node. -/
def contains (t : Tree) (id : NodeId) : Bool := (t.node id).live

def isEmpty (t : Tree) : Bool := t.size == 0

/-- What callers of the operations keep: links agree in both directions, and the dead slots are the
free ones. -/
structure WellFormed (t : Tree) : Prop where
  /-- A live node with a parent stands exactly once among the children of a live node. -/
  listed : ∀ id p, t.contains id → t.parent id = some p → t.contains p ∧ (t.children p).count id = 1
  /-- The children of a live node are live and name it as their parent. -/
  owned : ∀ p id, t.contains p → id ∈ t.children p → t.contains id ∧ t.parent id = some p
  /-- Following parents ends. -/
  grounded : ∀ id, Acc (fun p c => t.parent c = some p) id
  /-- The free slots are the dead ones, each once. -/
  free_nodup : t.free.Nodup
  mem_free : ∀ id, id ∈ t.free ↔ id.index < t.nodes.size ∧ ¬ t.contains id
  size_eq : t.size = t.nodes.countP (·.live)

/-- Replaces the record of a node. -/
def put (t : Tree) (id : NodeId) (n : Node) : Tree :=
  { t with nodes := t.nodes.setIfInBounds id.index n }

def modify (t : Tree) (id : NodeId) (f : Node → Node) : Tree := t.put id (f (t.node id))

/-- Counts one change. -/
def touched (t : Tree) : Tree := { t with mutations := t.mutations + 1 }

/-- Creates a node without parent and children. -/
def create (t : Tree) (kind : NodeKind) : Tree × NodeId :=
  match t.free with
  | id :: free => ({ t.put id { kind } with free, size := t.size + 1 }, id)
  | [] =>
    let id : NodeId := ⟨t.nodes.size⟩
    ({ t with nodes := t.nodes.push { kind }, size := t.size + 1 }, id)

/-- Replaces what a node is; its place and its children stay. -/
def setKind (t : Tree) (id : NodeId) (kind : NodeKind) : Tree :=
  (t.modify id fun n => { n with kind }).touched

/-- Replaces the content of a text node; other nodes are left alone. -/
def setText (t : Tree) (id : NodeId) (content : String) : Tree × Bool :=
  match t.kind id with
  | .text _ => (t.setKind id (.text content), true)
  | _ => (t, false)

def attributes (t : Tree) (id : NodeId) : List Attribute := (t.kind id).attributes

def attribute? (t : Tree) (id : NodeId) (name : String) : Option String :=
  ((t.attributes id).find? (·.name == name)).map (·.value)

/-- The attributes with one overwritten where it stands, or added at the end. -/
def overwrite (name value : String) : List Attribute → List Attribute
  | [] => [⟨name, value⟩]
  | a :: as => if a.name == name then ⟨name, value⟩ :: as else a :: overwrite name value as

/-- Sets an attribute of an element; other nodes are left alone. -/
def setAttribute (t : Tree) (id : NodeId) (name value : String) : Tree × Bool :=
  match t.kind id with
  | .element tag attributes => (t.setKind id (.element tag (overwrite name value attributes)), true)
  | _ => (t, false)

/-- Takes an attribute away and returns it. -/
def removeAttribute (t : Tree) (id : NodeId) (name : String) : Tree × Option Attribute :=
  match t.kind id with
  | .element tag attributes =>
    match attributes.find? (·.name == name) with
    | some a => (t.setKind id (.element tag (attributes.eraseP (·.name == name))), some a)
    | none => (t, none)
  | _ => (t, none)

@[simp] theorem size_put (t : Tree) (id : NodeId) (n : Node) :
    (t.put id n).nodes.size = t.nodes.size := by simp [put]

theorem node_put (t : Tree) (id other : NodeId) (n : Node) :
    (t.put id n).node other =
      if other = id ∧ id.index < t.nodes.size then n else t.node other := by
  obtain ⟨i⟩ := id
  obtain ⟨j⟩ := other
  simp only [node, put, Array.getD_eq_getD_getElem?, Array.getElem?_setIfInBounds, NodeId.mk.injEq]
  by_cases h : i = j
  · subst h
    by_cases hi : i < t.nodes.size <;> simp [hi]
  · simp [h, Ne.symm h]

theorem lt_size_of_contains {t : Tree} {id : NodeId} (h : t.contains id = true) :
    id.index < t.nodes.size := by
  by_cases hi : id.index < t.nodes.size
  · exact hi
  · simp [contains, node, Array.getD_eq_getD_getElem?, hi] at h

end Tree

end LiveMarkup
