import LiveMarkup.Render.Renderer
import LiveMarkup.Session.Named

set_option autoImplicit false

/-!
A session: everything that a host of live templates holds, under names. It gives out identities, so
that no two objects made in one session are the same by accident, and it knows what still exists:
what stands under a name, and what the parts of roots and the outcomes of deferred values refer to.
-/

namespace LiveMarkup

structure Session where
  /-- The configuration of renderers that come without one. -/
  config : RenderConfig := {}
  strings : Named TemplateStrings := {}
  fragments : Named Fragment := {}
  displays : Named Display := {}
  deferreds : Named DeferredId := {}
  /-- Deferred values that can still be settled. -/
  resolvers : Named DeferredId := {}
  templates : Named SharedTemplate := {}
  renderers : Named Renderer := {}
  roots : Named RenderRoot := {}
  outcomes : Deferreds := {}
  /-- The next identity. -/
  fresh : Nat := 0

namespace Session

/-- What exists because of the session's names, without what the root `besides` refers to. -/
def holders (s : Session) (besides : Option String) : Holders :=
  let roots := besides.elim s.roots s.roots.erase
  { strings := s.strings.values.map (·.identity)
    values := s.deferreds.values.map Value.pending ++ roots.values.flatMap RenderRoot.held }

/-! Objects with an identity of their own -/

def makeStrings (s : Session) (fragments : List String) : TemplateStrings × Session :=
  (.ofFragments ⟨s.fresh⟩ fragments, { s with fresh := s.fresh + 1 })

def makeFragment (s : Session) (nodes : Markup.Rooted) : Fragment × Session :=
  (⟨s.fresh, nodes⟩, { s with fresh := s.fresh + 1 })

def makeDisplay (s : Session) (text : String) : Display × Session :=
  (⟨s.fresh, text⟩, { s with fresh := s.fresh + 1 })

/-- A deferred value that is fulfilled from the beginning. -/
def makeResolved (s : Session) (value : Value) : DeferredId × Session :=
  let (outcomes, d) := s.outcomes.create (.fulfilled value)
  (d, { s with outcomes })

/-! Names -/

def defineStrings (s : Session) (name : String) (fragments : List String) : Session :=
  let (strings, s) := s.makeStrings fragments
  { s with strings := s.strings.set name strings }

/-- Forgets a name; the answer is whether there was one. -/
def dropStrings (s : Session) (name : String) : Bool × Session :=
  (s.strings.contains name, { s with strings := s.strings.erase name })

def defineFragment (s : Session) (name : String) (nodes : Markup.Rooted) : Session :=
  let (fragment, s) := s.makeFragment nodes
  { s with fragments := s.fragments.set name fragment }

def defineDisplay (s : Session) (name text : String) : Session :=
  let (display, s) := s.makeDisplay text
  { s with displays := s.displays.set name display }

/-! Deferred values -/

/-- Rejects a deferred value that can still be settled; the answer is whether it could. -/
def reject (s : Session) (name : String) : Bool × Session :=
  match s.resolvers.get? name with
  | some d =>
    (true, { s with
      resolvers := s.resolvers.erase name, outcomes := s.outcomes.settle d .rejected })
  | none => (false, s)

/-- A new deferred value under a name. One that had the name before can no longer be settled and
counts as rejected. -/
def defineDeferred (s : Session) (name : String) : Session :=
  let s := (s.reject name).2
  let (outcomes, d) := s.outcomes.create .waiting
  { s with
    outcomes, deferreds := s.deferreds.set name d, resolvers := s.resolvers.set name d }

/-- Fulfils a deferred value that can still be settled. The value is lost if nothing refers to the
deferred one any more. -/
def resolve (s : Session) (name : String) (value : Value) : Option (List Event × Session) :=
  (s.resolvers.get? name).map fun d =>
    let s := { s with resolvers := s.resolvers.erase name }
    let h := s.holders none
    if { h with values := value :: h.values }.holdsDeferred s.outcomes d then
      ([], { s with outcomes := s.outcomes.settle d (.fulfilled value) })
    else ([.unheldDeferred], s)

def dropDeferred (s : Session) (name : String) : Bool × Session :=
  (s.deferreds.contains name, { s with deferreds := s.deferreds.erase name })

end Session

end LiveMarkup
