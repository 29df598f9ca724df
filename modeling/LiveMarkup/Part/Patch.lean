import LiveMarkup.Part.Attribute
import LiveMarkup.Part.Bind

set_option autoImplicit false

/-!
Bringing a region in step with a value, touching as few nodes as possible. What a region already
shows is compared with what it should show: equal scalars change nothing, a text is changed in
place, a template of the same kind keeps its copy, a list keeps the parts of its items.

A value may be made of values, and a deferred value's outcome may be any value, even one that leads
back to the same deferred value. So the step below takes the function for the values inside as an
argument, and the recursion is cut off at a depth that no value reaches that ends.
-/

namespace LiveMarkup

/-- What is fixed while values are applied. -/
structure Setting where
  deferreds : Deferreds := {}
  /-- Whether the number of values has to be the number of holes. -/
  strictValueCount : Bool := false
  /-- What exists besides the part and the value at hand. -/
  holders : Holders := {}

def Setting.holding (s : Setting) (values : List Value) : Setting :=
  { s with holders := { s.holders with values := values ++ s.holders.values } }

/-- What changes while values are applied. -/
structure World where
  tree : Tree
  cache : TemplateCache
  events : List Event := []

namespace World

@[inline] def report (w : World) (e : Event) : World := { w with events := w.events ++ [e] }

@[inline] def withTree (w : World) (tree : Tree) : World := { w with tree }

end World

/-- What applying a value gives. After an error the parts are as far as they came. -/
structure Applied (α : Type) where
  part : α
  world : World
  error : Option RenderError := none

def Applied.map {α β : Type} (f : α → β) (a : Applied α) : Applied β :=
  { part := f a.part, world := a.world, error := a.error }

/-- A way to apply a value to a node part. -/
abbrev Patch := Setting → World → NodePart → Value → Applied NodePart

namespace NodePart

/-- The only node of the region, if it is a text. -/
def loneText (part : NodePart) (tree : Tree) : Option NodeId :=
  match tree.nextSibling part.start with
  | some first =>
    if first ≠ part.stop ∧ tree.nextSibling first = some part.stop ∧ (tree.kind first).isText then
      some first
    else none
  | none => none

/-- Removes everything in the region. -/
def clear (part : NodePart) (tree : Tree) : Tree := (tree.removeBetween part.start part.stop).1

/-- Shows a text: in the only text of the region, or instead of all that is there. -/
def setText (part : NodePart) (w : World) (shown : Primitive) : Applied NodePart :=
  let world :=
    match part.loneText w.tree with
    | some node => (w.withTree (w.tree.setText node shown.text).1).report .updatedText
    | none =>
      let (tree, node) := (part.clear w.tree).create (.text shown.text)
      w.withTree (tree.insertBefore part.stop node).1
  { part := part.withState (.text shown), world }

def showsPrimitive (part : NodePart) (p : Primitive) : Bool :=
  match part.state with
  | .text shown => shown.same p
  | _ => false

def setPrimitive (part : NodePart) (w : World) (p : Primitive) : Applied NodePart :=
  if part.showsPrimitive p then { part, world := w.report .primitiveUnchanged }
  else part.setText w p

/-- Shows a copy of prebuilt nodes. -/
def setNode (part : NodePart) (w : World) (fragment : Fragment) : Applied NodePart :=
  let same :=
    match part.state with
    | .node shown => shown.identity == fragment.identity
    | _ => false
  if same then { part, world := w }
  else
    let (tree, copy) := (part.clear w.tree).importFrom fragment.nodes.tree fragment.nodes.root
    let tree :=
      match tree.kind copy with
      | .fragment | .document => (tree.moveChildrenBefore copy part.stop).1.remove copy
      | _ => (tree.insertBefore part.stop copy).1
    { part := part.withState (.node fragment), world := w.withTree tree }

end NodePart

/-- Values by their index, each of which can be taken once. -/
abbrev Slots := List (Option Value)

namespace Slots

/-- A value that is not there, or not there any more, is null. -/
def take (slots : Slots) (index : Nat) : Value × Slots :=
  ((slots[index]?.join).getD .null, slots.set index none)

def takeMany (slots : Slots) (index : Nat) : Nat → List Value × Slots
  | 0 => ([], slots)
  | n + 1 =>
    let (value, slots) := slots.take index
    let (values, slots) := takeMany slots (index + 1) n
    (value :: values, slots)

def left (slots : Slots) : List Value := slots.filterMap id

end Slots

namespace Patch

/-- Gives every part its values. `done` are the parts that have theirs, the latest first. -/
def parts (patch : Patch) (s : Setting) (w : World) (done : List Part) :
    List Part → List TemplatePart → Slots → Applied (List Part)
  | .node part :: ps, compiled :: cs, slots =>
    let (value, slots) := slots.take compiled.valueIndex
    let applied := patch
      (s.holding (slots.left ++ Part.heldByAll done ++ Part.heldByAll ps)) w part value
    match applied.error with
    | some _ => applied.map fun p => done.reverse ++ .node p :: ps
    | none => parts patch s applied.world (.node applied.part :: done) ps cs slots
  | .attribute part :: ps, compiled :: cs, slots =>
    let (values, slots) := slots.takeMany compiled.valueIndex part.strings.size
    let (part, tree, events) := part.setValues w.tree values
    let w := { w with tree, events := w.events ++ events }
    parts patch s w (.attribute part :: done) ps cs slots
  | ps, _, _ => { part := done.reverse ++ ps, world := w }

/-- Gives the parts of a copy of a template their values. -/
def update (patch : Patch) (s : Setting) (w : World) (template : Template) (ps : List Part)
    (values : List Value) : Applied (List Part) :=
  let expected := template.valueCount
  let found := values.length
  if expected ≠ found ∧ s.strictValueCount then
    { part := ps, world := w, error := some (.valueCount expected found) }
  else
    let w := if expected = found then w else w.report (.valueCount expected found)
    parts patch s w [] ps template.parts (values.map some)

/-- Shows a template: in the copy that is there, if it is of the same template, or in a new one. -/
def template (patch : Patch) (s : Setting) (w : World) (part : NodePart) (r : TemplateResult) :
    Applied NodePart :=
  let holders := s.holders ++ ⟨[r.strings.identity], r.values ++ part.held⟩
  let answer := w.cache.getOrCompile (holders.holdsStrings s.deferreds) r.strings r.kind
  let w := { w with cache := answer.cache, events := w.events ++ answer.events }
  match answer.outcome with
  | .error errors => { part, world := w, error := some (.parse errors) }
  | .ok shared =>
    let fresh := fun (_ : Unit) =>
      match shared.template.copyInto (part.clear w.tree) with
      | (tree, .error e) => { part, world := w.withTree tree, error := some e }
      | (tree, .ok copy) =>
        let tree := (tree.moveChildrenBefore copy.root part.stop).1.remove copy.root
        let w := (w.withTree tree).report (.clonedTemplate copy.parts.length)
        (update patch s w shared.template copy.parts r.values).map fun ps =>
          part.withState (.nested shared ps)
    match part.state with
    | .nested shown ps =>
      if shown.id = shared.id then
        (update patch s (w.report .reusedInstance) shared.template ps r.values).map fun ps =>
          part.withState (.nested shown ps)
      else fresh ()
    | _ => fresh ()

/-- Gives every item its part. `done` are the parts that have their item, the latest first; `left`
are those that the list had before. Where none is left, a new one is put in front of the end of the
list, behind an empty text that ends the part before it. -/
def items (patch : Patch) (s : Setting) (start stop : NodeId) (w : World) (done : List NodePart) :
    List NodePart → List Value → Applied (List NodePart × List NodePart)
  | left, [] => { part := (done, left), world := w }
  | part :: left, value :: values =>
    let applied := patch
      (s.holding (values ++ NodePart.heldByAll done ++ NodePart.heldByAll left)) w part value
    match applied.error with
    | some _ => applied.map fun p => (p :: done, left)
    | none => items patch s start stop applied.world (applied.part :: done) left values
  | [], value :: values =>
    let (w, done, start) :=
      match done with
      | [] => (w, [], start)
      | last :: before =>
        let (tree, separator) := w.tree.create (.text "")
        (w.withTree (tree.insertBefore stop separator).1, last.withStop separator :: before,
          separator)
    let applied := patch (s.holding (values ++ NodePart.heldByAll done)) w
      (.mk start stop .empty) value
    match applied.error with
    | some _ => applied.map fun p => (p :: done, [])
    | none => items patch s start stop applied.world (applied.part :: done) [] values

/-- Shows a list, item by item; parts without an item are dropped. -/
def iterable (patch : Patch) (s : Setting) (w : World) (part : NodePart) (values : List Value) :
    Applied NodePart :=
  let (w, before) :=
    match part.state with
    | .items ps => (w, ps)
    | _ => (w.withTree (part.clear w.tree), [])
  let applied := items patch s part.start part.stop w [] before values
  let (done, left) := applied.part
  match applied.error, done with
  | some _, _ => applied.map fun _ => part.withState (.items (done.reverse ++ left))
  | none, [] =>
    { part := part.withState .empty
      world := applied.world.withTree (part.clear applied.world.tree) }
  | none, last :: others =>
    if left.isEmpty then applied.map fun _ => part.withState (.items done.reverse)
    else
      let w := applied.world.report (.droppedItems left.length)
      { part := part.withState (.items (others.reverse ++ [last.withStop part.stop]))
        world := w.withTree (w.tree.removeRange last.stop part.stop).1 }

/-- Shows a value until a deferred one settles. A part that already waits for it is left alone, and
the outcome of one that is fulfilled is shown at once. -/
def placeholder (patch : Patch) (s : Setting) (w : World) (part : NodePart) (d : DeferredId)
    (shown : Value) : Applied NodePart :=
  let waits :=
    match part.state with
    | .pending current => current == d
    | _ => false
  if waits then { part, world := w.report .stillWaiting }
  else
    match s.deferreds.poll d with
    | .fulfilled value => patch (s.holding [.pending d, shown]) w part value
    | _ =>
      let applied := patch (s.holding [.pending d]) w part shown
      match applied.error with
      | some _ => applied
      | none => applied.map fun p => p.withState (.pending d)

/-- Applies a value, given how to apply the values inside it. -/
def step (patch : Patch) : Patch := fun s w part value =>
  match value with
  | .primitive p => part.setPrimitive w p
  | .template strings values kind => template patch s w part ⟨strings, values, kind⟩
  | .iterable values => iterable patch s w part values
  | .node fragment => part.setNode w fragment
  | .pending d => { part := part.withState (.pending d), world := w }
  | .placeholder d shown => placeholder patch s w part d shown
  | .absent => part.setPrimitive w .null
  | .display object => part.setText w (.str object.text)

/-- Applies a value that is at most `depth` levels deep, outcomes counted in. -/
def within : Nat → Patch
  | 0 => fun _ w part _ => { part, world := w, error := some .endlessValue }
  | depth + 1 => step (within depth)

/-- A depth that no value reaches that ends. Along the parts that exist, at most one level of which
is left at a time, and then along new ones, no value occurs twice unless it does so forever. -/
def depthFor (s : Setting) (partDepth weight : Nat) : Nat :=
  (partDepth + 2) * (weight + s.deferreds.weight + 1)

end Patch

namespace NodePart

/-- Brings a part in step with a value. -/
def setValue (s : Setting) (w : World) (part : NodePart) (value : Value) : Applied NodePart :=
  Patch.within (Patch.depthFor s part.depth value.weight) s w part value

end NodePart

/-- Brings the parts of a copy of a template in step with values. -/
def Part.update (s : Setting) (w : World) (template : Template) (parts : List Part)
    (values : List Value) : Applied (List Part) :=
  Patch.update (.within (Patch.depthFor s (Part.depthOfAll parts) (Value.weights values))) s w
    template parts values

end LiveMarkup
