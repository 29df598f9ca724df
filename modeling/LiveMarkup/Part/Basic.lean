import LiveMarkup.Template.Cache
import LiveMarkup.Value.Deferred

set_option autoImplicit false

/-!
Parts: the holes of a template in a live tree. A node part owns the siblings strictly between two
boundary nodes and knows what they show; an attribute part owns one attribute of one element.
-/

namespace LiveMarkup

/-- An attribute that is computed from one or more values. -/
structure AttributePart where
  element : NodeId
  name : String
  strings : AttributeStrings
  /-- The values it was last computed from. -/
  previous : Option (List Value) := none

mutual

/-- A region of siblings between the boundaries `start` and `stop`. -/
inductive NodePart where
  | mk (start stop : NodeId) (state : NodeState)

/-- What a region shows. -/
inductive NodeState where
  | empty
  | text (shown : Primitive)
  /-- A copy of a template, with its parts. -/
  | nested (template : SharedTemplate) (parts : List Part)
  /-- One part per item, each ending where the next begins. -/
  | items (parts : List NodePart)
  | node (fragment : Fragment)
  /-- Whatever it showed before, until the deferred value settles. -/
  | pending (deferred : DeferredId)

inductive Part where
  | node (part : NodePart)
  | attribute (part : AttributePart)

end

namespace NodePart

def start : NodePart → NodeId
  | .mk start _ _ => start

def stop : NodePart → NodeId
  | .mk _ stop _ => stop

def state : NodePart → NodeState
  | .mk _ _ state => state

def withState (part : NodePart) (state : NodeState) : NodePart := .mk part.start part.stop state

def isPending (part : NodePart) : Bool :=
  match part.state with
  | .pending _ => true
  | _ => false

end NodePart

/-- How many values a part takes; node parts take one and have no size. -/
def Part.size : Part → Option Nat
  | .node _ => none
  | .attribute part => some part.strings.size

mutual

/-- The values that a part still refers to. -/
def NodePart.held : NodePart → List Value
  | .mk _ _ (.nested _ parts) => Part.heldByAll parts
  | .mk _ _ (.items parts) => NodePart.heldByAll parts
  | .mk _ _ (.pending deferred) => [.pending deferred]
  | .mk _ _ _ => []

def NodePart.heldByAll : List NodePart → List Value
  | [] => []
  | p :: ps => p.held ++ NodePart.heldByAll ps

def Part.held : Part → List Value
  | .node part => part.held
  | .attribute part => part.previous.getD []

def Part.heldByAll : List Part → List Value
  | [] => []
  | p :: ps => p.held ++ Part.heldByAll ps

end

mutual

/-- How deep parts are nested in a part. -/
def NodePart.depth : NodePart → Nat
  | .mk _ _ (.nested _ parts) => Part.depthOfAll parts + 1
  | .mk _ _ (.items parts) => NodePart.depthOfAll parts + 1
  | .mk _ _ _ => 0

def NodePart.depthOfAll : List NodePart → Nat
  | [] => 0
  | p :: ps => max p.depth (NodePart.depthOfAll ps)

def Part.depth : Part → Nat
  | .node part => part.depth
  | .attribute _ => 0

def Part.depthOfAll : List Part → Nat
  | [] => 0
  | p :: ps => max p.depth (Part.depthOfAll ps)

end

mutual

/-- Moves the end of a region, together with the end of its last item if that is the same. -/
def NodePart.withStop (stop : NodeId) : NodePart → NodePart
  | .mk start old (.items parts) => .mk start stop (.items (NodePart.withLastStop old stop parts))
  | .mk start _ state => .mk start stop state

/-- Moves the end of the last item, if it is `old`. -/
def NodePart.withLastStop (old stop : NodeId) : List NodePart → List NodePart
  | [] => []
  | [p] => [if p.stop = old then p.withStop stop else p]
  | p :: q :: ps => p :: NodePart.withLastStop old stop (q :: ps)

end

end LiveMarkup
