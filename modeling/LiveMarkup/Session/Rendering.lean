import LiveMarkup.Session.Basic

set_option autoImplicit false

/-!
Rendering in a session: work on renderers and roots by their names. A renderer comes into being when
it is first mentioned. A failing update keeps the root as far as it came; a failing rendering of a
new root keeps the old root of that name.
-/

namespace LiveMarkup.Session

/-- What an action in a session gives. -/
structure Done (α : Type) where
  result : α
  session : Session
  events : List Event := []

/-- Makes sure that there is a renderer of a name. -/
def mention (s : Session) (name : String) (config : RenderConfig) : Session :=
  if s.renderers.contains name then s
  else { s with renderers := s.renderers.set name (.new s.renderers.size config) }

def renderer (s : Session) (name : String) : Renderer :=
  (s.renderers.get? name).getD (.new s.renderers.size s.config)

/-- What values are applied under, outside the root `besides`. -/
def setting (s : Session) (besides : Option String) : Setting :=
  { deferreds := s.outcomes, holders := s.holders besides }

/-- Keeps the renderer that has done some work. -/
def afterWork {α : Type} (s : Session) (name : String) (work : Work α) : Done α :=
  { result := work.result
    session := { s with renderers := s.renderers.set name work.renderer }
    events := work.events }

def keepRoot (s : Session) (name : String) (root : RenderRoot) : Session :=
  { s with roots := s.roots.set name root }

/-- Keeps the root that an update leaves behind. -/
def afterUpdate (s : Session) (renderer root : String) (work : Work Updated) :
    Done (Option RenderError) :=
  let done := s.afterWork renderer work
  { done with result := done.result.error, session := done.session.keepRoot root work.result.root }

/-- Renders to HTML; no root is kept. -/
def render (s : Session) (renderer : String) (t : TemplateResult) :
    Done (Except RenderError String) :=
  s.afterWork renderer ((s.renderer renderer).render (s.setting none) t)

/-- Renders into a new root. -/
def renderRoot (s : Session) (renderer root : String) (t : TemplateResult) :
    Done (Option RenderError) :=
  let done := s.afterWork renderer ((s.renderer renderer).renderRoot (s.setting none) t)
  match done.result with
  | .ok new => { done with result := none, session := done.session.keepRoot root new }
  | .error e => { done with result := some e }

/-- The compiled template of a result, which may be kept under a name. -/
def compile (s : Session) (renderer : String) (t : TemplateResult) (name : Option String) :
    Done (Except RenderError SharedTemplate) :=
  let done := s.afterWork renderer ((s.renderer renderer).compile (s.setting none) t)
  match done.result, name with
  | .ok shared, some name =>
    { done with
      session := { done.session with templates := done.session.templates.set name shared } }
  | _, _ => done

/-- A root without values. -/
def instantiate (s : Session) (root : String) (shared : SharedTemplate) :
    Done (Option RenderError) :=
  match Renderer.instantiate shared with
  | .ok new =>
    { result := none, session := s.keepRoot root new, events := [Renderer.instantiated new] }
  | .error e => { result := some e, session := s }

/-- A root without values, of a template that is compiled first. -/
def compileRoot (s : Session) (renderer root : String) (t : TemplateResult) :
    Done (Option RenderError) :=
  let compiled := s.compile renderer t none
  match compiled.result with
  | .error e => { compiled with result := some e }
  | .ok shared =>
    let done := compiled.session.instantiate root shared
    { done with events := compiled.events ++ done.events }

/-- Renders a template into a root that exists. -/
def rerender (s : Session) (renderer root : String) (t : TemplateResult) :
    Option (Done (Option RenderError)) :=
  (s.roots.get? root).map fun live =>
    s.afterUpdate renderer root (live.render (s.renderer renderer) (s.setting (some root)) t)

/-- Applies new values to a root. -/
def update (s : Session) (renderer root : String) (values : List Value) :
    Option (Done (Option RenderError)) :=
  (s.roots.get? root).map fun live =>
    s.afterUpdate renderer root (live.update (s.renderer renderer) (s.setting (some root)) values)

/-- Applies deferred values that have settled. -/
def flush (s : Session) (renderer root : String) : Option (Done (Except RenderError FlushReport)) :=
  (s.roots.get? root).map fun live =>
    let work := live.flush (s.renderer renderer) (s.setting (some root))
    let done := s.afterUpdate renderer root { work with result := work.result.1 }
    { done with result := done.result.elim (.ok work.result.2) .error }

/-- Forgets the identities of fragments that are gone; returns how many. -/
def purge (s : Session) (renderer : String) : Nat × Session :=
  let r := s.renderer renderer
  let (cache, count) := r.cache.purge ((s.holders none).holdsStrings s.outcomes)
  (count, { s with renderers := s.renderers.set renderer { r with cache } })

def clearCache (s : Session) (renderer : String) : Session :=
  let r := s.renderer renderer
  { s with renderers := s.renderers.set renderer { r with cache := r.cache.clear } }

def dropRoot (s : Session) (root : String) : Bool × Session :=
  (s.roots.contains root, { s with roots := s.roots.erase root })

end LiveMarkup.Session
