import LiveMarkup.Proofs.Tree.Editing
import LiveMarkup.Tree.Import

set_option autoImplicit false

/-!
An arena without hints. Where a node stands is found by looking through its siblings from the first
on, and nothing is kept of it. What the operations do is said as for `Tree`, so that the two can be
compared call by call.
-/

namespace LiveMarkup

/-- What a slot of the arena holds besides a hint. -/
structure Hintless.Slot where
  kind : NodeKind := .fragment
  parent : Option NodeId := none
  children : List NodeId := []
  live : Bool := true
  deriving DecidableEq, Repr, Inhabited

structure Hintless where
  slots : Array Hintless.Slot := #[]
  free : List NodeId := []
  size : Nat := 0
  mutations : Nat := 0
  deriving DecidableEq, Repr, Inhabited

namespace Hintless

def slot (a : Hintless) (id : NodeId) : Slot := a.slots.getD id.index { live := false }

def kind (a : Hintless) (id : NodeId) : NodeKind := (a.slot id).kind

def parent (a : Hintless) (id : NodeId) : Option NodeId := (a.slot id).parent

def children (a : Hintless) (id : NodeId) : List NodeId := (a.slot id).children

def contains (a : Hintless) (id : NodeId) : Bool := (a.slot id).live

def modify (a : Hintless) (id : NodeId) (f : Slot → Slot) : Hintless :=
  { a with slots := a.slots.setIfInBounds id.index (f (a.slot id)) }

def touched (a : Hintless) : Hintless := { a with mutations := a.mutations + 1 }

def create (a : Hintless) (kind : NodeKind) : Hintless × NodeId :=
  match a.free with
  | id :: free => ({ a.modify id fun _ => { kind } with free, size := a.size + 1 }, id)
  | [] => ({ a with slots := a.slots.push { kind }, size := a.size + 1 }, ⟨a.slots.size⟩)

/-- The parent of a node and the first place among the children where the node stands. -/
def position (a : Hintless) (id : NodeId) : Option (NodeId × Nat) :=
  match a.parent id with
  | some p => ((a.children p).findIdx? (· == id)).map (p, ·)
  | none => none

def nextSibling (a : Hintless) (id : NodeId) : Option NodeId :=
  (a.position id).bind fun (p, i) => (a.children p)[i + 1]?

def prevSibling (a : Hintless) (id : NodeId) : Option NodeId :=
  (a.position id).bind fun (p, i) => if i = 0 then none else (a.children p)[i - 1]?

/-! ## Linking and unlinking -/

def link (a : Hintless) (parent id : NodeId) (index : Nat) : Hintless :=
  (a.modify id fun s => { s with parent := some parent }).modify parent fun s =>
    { s with children := s.children.insertIdx index id }

def detach (a : Hintless) (id : NodeId) : Hintless :=
  match a.position id with
  | some (p, i) =>
    ((a.modify p fun s => { s with children := s.children.eraseIdx i }).modify id fun s =>
      { s with parent := none }).touched
  | none => a

def append (a : Hintless) (parent id : NodeId) : Hintless :=
  let a := a.detach id
  (a.link parent id (a.children parent).length).touched

def insertBefore (a : Hintless) (reference id : NodeId) : Hintless × Bool :=
  let a := a.detach id
  match a.position reference with
  | some (p, i) => ((a.link p id i).touched, true)
  | none => (a, false)

def linkAll (a : Hintless) (parent : NodeId) : List NodeId → Nat → Hintless
  | [], _ => a
  | id :: ids, index => (a.link parent id index).linkAll parent ids (index + 1)

def moveChildren (a : Hintless) (source target : NodeId) (before : Option NodeId) : Hintless :=
  let moved := a.children source
  if moved.isEmpty then a
  else
    let a := a.modify source fun s => { s with children := [] }
    let siblings := a.children target
    let index := (before.bind fun b => siblings.findIdx? (· == b)).getD siblings.length
    (a.linkAll target moved index).touched

def moveChildrenBefore (a : Hintless) (source reference : NodeId) : Hintless × Bool :=
  match a.parent reference with
  | some p => (a.moveChildren source p (some reference), true)
  | none => (a, false)

/-! ## Freeing -/

def bury (a : Hintless) (id : NodeId) : Hintless :=
  let a := a.modify id fun _ => { live := false }
  { a with free := id :: a.free, size := a.size - 1 }

theorem countP_bury {a : Hintless} {id : NodeId} (h : a.contains id = true) :
    (a.bury id).slots.countP (·.live) < a.slots.countP (·.live) := by
  by_cases hi : id.index < a.slots.size
  · have hl : a.slots[id.index].live = true := by
      simpa [contains, slot, Array.getD_eq_getD_getElem?, hi] using h
    have hp : 0 < a.slots.countP (·.live) :=
      Array.countP_pos_iff.2 ⟨a.slots[id.index], Array.getElem_mem hi, hl⟩
    simp only [bury, modify, Array.setIfInBounds, hi, dif_pos, Array.countP_set, hl]
    simp only [↓reduceIte, Bool.false_eq_true]
    omega
  · simp [contains, slot, Array.getD_eq_getD_getElem?, hi] at h

/-- The children of a freed node go on top of the stack, the last of them first. -/
def release (a : Hintless) : List NodeId → Hintless
  | [] => a
  | id :: stack =>
    let below := a.children id
    if _h : a.contains id then (a.bury id).release (below.reverse ++ stack)
    else a.release stack
termination_by stack => (a.slots.countP (·.live), stack.length)
decreasing_by
  · exact Prod.Lex.left _ _ (countP_bury _h)
  · exact Prod.Lex.right _ (by simp)

def remove (a : Hintless) (id : NodeId) : Hintless := (a.detach id).release [id]

def removeAll (a : Hintless) : List NodeId → Hintless
  | [] => a
  | id :: ids => ((a.modify id fun s => { s with parent := none }).remove id).removeAll ids

def removeRange (a : Hintless) (first stop : NodeId) : Hintless × Nat :=
  if first = stop then (a, 0)
  else
    match a.position first with
    | none => (a.remove first, 1)
    | some (p, start) =>
      let siblings := a.children p
      let limit :=
        match a.position stop with
        | some (q, i) => if q = p ∧ start < i then i else siblings.length
        | none => siblings.length
      let doomed := (siblings.take limit).drop start
      let a := a.modify p fun s => { s with children := siblings.take start ++ siblings.drop limit }
      (a.touched.removeAll doomed, doomed.length)

def removeBetween (a : Hintless) (start stop : NodeId) : Hintless × Nat :=
  match a.nextSibling start with
  | some first => if first = stop then (a, 0) else a.removeRange first stop
  | none => (a, 0)

/-! ## Editing and copying -/

def setKind (a : Hintless) (id : NodeId) (kind : NodeKind) : Hintless :=
  (a.modify id fun s => { s with kind }).touched

def setText (a : Hintless) (id : NodeId) (content : String) : Hintless × Bool :=
  match a.kind id with
  | .text _ => (a.setKind id (.text content), true)
  | _ => (a, false)

def setAttribute (a : Hintless) (id : NodeId) (name value : String) : Hintless × Bool :=
  match a.kind id with
  | .element tag attributes =>
    (a.setKind id (.element tag (Tree.overwrite name value attributes)), true)
  | _ => (a, false)

def removeAttribute (a : Hintless) (id : NodeId) (name : String) : Hintless × Option Attribute :=
  match a.kind id with
  | .element tag attributes =>
    match attributes.find? (·.name == name) with
    | some x => (a.setKind id (.element tag (attributes.eraseP (·.name == name))), some x)
    | none => (a, none)
  | _ => (a, none)

mutual

def graft (a : Hintless) : Branch NodeKind → Hintless × NodeId
  | .node kind bs =>
    let (a, id) := a.create kind
    let (a, ids) := graftAll a id bs
    (a.modify id fun s => { s with children := ids }, id)

def graftAll (a : Hintless) (parent : NodeId) : List (Branch NodeKind) → Hintless × List NodeId
  | [] => (a, [])
  | b :: bs =>
    let (a, id) := a.graft b
    let a := a.modify id fun s => { s with parent := some parent }
    let (a, ids) := graftAll a parent bs
    (a, id :: ids)

end

/-- What the nodes below `id` are, down to `depth` levels. -/
def contentWithin (a : Hintless) : Nat → NodeId → Branch NodeKind
  | 0, id => .node (a.kind id) []
  | depth + 1, id => .node (a.kind id) ((a.children id).map (a.contentWithin depth))

def importFrom (a source : Hintless) (id : NodeId) : Hintless × NodeId :=
  a.graft (source.contentWithin source.slots.size id)

end Hintless

/-! ## Calls -/

/-- A record without its hint. -/
def Node.unhinted (n : Node) : Hintless.Slot := ⟨n.kind, n.parent, n.children, n.live⟩

def Tree.unhinted (t : Tree) : Hintless := ⟨t.nodes.map Node.unhinted, t.free, t.size, t.mutations⟩

/-- What an operation leaves, without hints, and what it answers. -/
def Tree.unhintedWith {α : Type} (x : Tree × α) : Hintless × α := (x.1.unhinted, x.2)

/-- What a call answers. -/
inductive Answer where
  | nothing
  | node (id : NodeId)
  | neighbour (id : Option NodeId)
  | done (whether : Bool)
  | count (n : Nat)
  | attribute (found : Option Attribute)
  deriving DecidableEq, Repr

namespace Tree

/-- All hints are written over. -/
def rehint (t : Tree) (hint : NodeId → Nat) : Tree :=
  { t with nodes := t.nodes.mapIdx fun i n => { n with hint := hint ⟨i⟩ } }

/-- A change with what it answers. -/
def Edit.perform (t : Tree) : Edit → Tree × Answer
  | .create kind => (t.create kind).map id .node
  | .append parent id => (t.append parent id, .nothing)
  | .insertBefore reference node => (t.insertBefore reference node).map id .done
  | .detach id => (t.detach id, .nothing)
  | .remove id => (t.remove id, .nothing)
  | .removeRange first stop => (t.removeRange first stop).map id .count
  | .removeBetween start stop => (t.removeBetween start stop).map id .count
  | .moveChildren source target before => (t.moveChildren source target before, .nothing)
  | .moveChildrenBefore source reference => (t.moveChildrenBefore source reference).map id .done
  | .setKind id kind => (t.setKind id kind, .nothing)
  | .setText node content => (t.setText node content).map id .done
  | .setAttribute node name value => (t.setAttribute node name value).map id .done
  | .removeAttribute node name => (t.removeAttribute node name).map id .attribute
  | .importFrom source root => (t.importFrom source root).map id .node

/-- A change, a look at a neighbour, or hints written over: what a look writes down is that. -/
inductive Call where
  | edit (e : Edit)
  | nextSibling (id : NodeId)
  | prevSibling (id : NodeId)
  | rehint (hint : NodeId → Nat)

def Call.perform (t : Tree) : Call → Tree × Answer
  | .edit e => e.perform t
  | .nextSibling id => (t, .neighbour (t.nextSibling id))
  | .prevSibling id => (t, .neighbour (t.prevSibling id))
  | .rehint hint => (t.rehint hint, .nothing)

/-- All nodes that a change names are live. It may put a node under itself or a node below it. -/
def Edit.OnLive (t : Tree) : Edit → Prop
  | .create _ => True
  | .append parent id => t.contains parent ∧ t.contains id
  | .insertBefore reference id => t.contains reference ∧ t.contains id
  | .detach id | .remove id | .setKind id _ | .setText id _ | .setAttribute id _ _
  | .removeAttribute id _ => t.contains id
  | .removeRange first stop => t.contains first ∧ t.contains stop
  | .removeBetween start stop => t.contains start ∧ t.contains stop
  | .moveChildren source target before =>
    t.contains source ∧ t.contains target ∧ ∀ b, before = some b → t.contains b
  | .moveChildrenBefore source reference => t.contains source ∧ t.contains reference
  | .importFrom source root => source.contains root

def Call.OnLive (t : Tree) : Call → Prop
  | .edit e => e.OnLive t
  | .nextSibling id | .prevSibling id => t.contains id
  | .rehint _ => True

/-- The arena after some calls, and their answers. -/
def perform (t : Tree) : List Call → Tree × List Answer
  | [] => (t, [])
  | c :: cs =>
    let (t, answer) := c.perform t
    let (t, answers) := t.perform cs
    (t, answer :: answers)

/-- The nodes that each call of a list names are live when its turn comes. -/
def Takes (t : Tree) : List Call → Prop
  | [] => True
  | c :: cs => c.OnLive t ∧ (c.perform t).1.Takes cs

end Tree

namespace Hintless

def edit (a : Hintless) : Tree.Edit → Hintless × Answer
  | .create kind => (a.create kind).map id .node
  | .append parent id => (a.append parent id, .nothing)
  | .insertBefore reference node => (a.insertBefore reference node).map id .done
  | .detach id => (a.detach id, .nothing)
  | .remove id => (a.remove id, .nothing)
  | .removeRange first stop => (a.removeRange first stop).map id .count
  | .removeBetween start stop => (a.removeBetween start stop).map id .count
  | .moveChildren source target before => (a.moveChildren source target before, .nothing)
  | .moveChildrenBefore source reference => (a.moveChildrenBefore source reference).map id .done
  | .setKind id kind => (a.setKind id kind, .nothing)
  | .setText node content => (a.setText node content).map id .done
  | .setAttribute node name value => (a.setAttribute node name value).map id .done
  | .removeAttribute node name => (a.removeAttribute node name).map id .attribute
  | .importFrom source root => (a.importFrom source.unhinted root).map id .node

/-- There is nothing to be written over where there are no hints. -/
def call (a : Hintless) : Tree.Call → Hintless × Answer
  | .edit e => a.edit e
  | .nextSibling id => (a, .neighbour (a.nextSibling id))
  | .prevSibling id => (a, .neighbour (a.prevSibling id))
  | .rehint _ => (a, .nothing)

def perform (a : Hintless) : List Tree.Call → Hintless × List Answer
  | [] => (a, [])
  | c :: cs =>
    let (a, answer) := a.call c
    let (a, answers) := a.perform cs
    (a, answer :: answers)

end Hintless

end LiveMarkup
