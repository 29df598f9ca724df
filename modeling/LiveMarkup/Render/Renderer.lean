import LiveMarkup.Config.Basic
import LiveMarkup.Part.Flush

set_option autoImplicit false

/-!
Renderers keep compiled templates from render to render; roots keep a rendered tree, so that a later
render patches it.
-/

namespace LiveMarkup

structure Renderer where
  config : RenderConfig := {}
  cache : TemplateCache := {}

/-- A renderer with a number of its own, which tells its templates from those of others. -/
def Renderer.new (number : Nat) (config : RenderConfig) : Renderer :=
  { config, cache := { owner := number, detectDocuments := config.detectDocuments } }

/-- A live tree that was rendered from one template. -/
structure RenderRoot where
  tree : Tree
  root : NodeId
  template : SharedTemplate
  parts : List Part

/-- What a renderer's work gives, and the renderer afterwards. -/
structure Work (α : Type) where
  result : α
  renderer : Renderer
  events : List Event := []

/-- What an update leaves behind: the root, and what went wrong. -/
structure Updated where
  root : RenderRoot
  error : Option RenderError := none

namespace RenderRoot

def held (root : RenderRoot) : List Value := Part.heldByAll root.parts

def toHtml (root : RenderRoot) (style : Html.Style) : String := root.tree.toHtml root.root style

@[inline] def world (root : RenderRoot) (r : Renderer) : World := { tree := root.tree, cache := r.cache }

/-- Applies new values. -/
def update (root : RenderRoot) (r : Renderer) (s : Setting) (values : List Value) :
    Work Updated :=
  let s := { s with strictValueCount := r.config.strictValueCount }
  let applied := Part.update s (root.world r) root.template.template root.parts values
  { result := ⟨{ root with tree := applied.world.tree, parts := applied.part }, applied.error⟩
    renderer := { r with cache := applied.world.cache }
    events := applied.world.events }

/-- Applies deferred values that have settled since the last flush. -/
def flush (root : RenderRoot) (r : Renderer) (s : Setting) :
    Work (Updated × FlushReport) :=
  let s := { s with strictValueCount := r.config.strictValueCount }
  let flushed := Part.flushAll s (root.world r) {} [] root.parts
  { result :=
      (⟨{ root with tree := flushed.world.tree, parts := flushed.part }, flushed.error⟩,
        flushed.report)
    renderer := { r with cache := flushed.world.cache }
    events := flushed.world.events }

end RenderRoot

namespace Renderer

/-- The compiled template of a result, from the cache if it is there. -/
def compile (r : Renderer) (s : Setting) (t : TemplateResult) :
    Work (Except RenderError SharedTemplate) :=
  let holders := s.holders ++ ⟨[t.strings.identity], t.values⟩
  let answer := r.cache.getOrCompile (holders.holdsStrings s.deferreds) t.strings t.kind
  { result := answer.outcome.mapError .parse
    renderer := { r with cache := answer.cache }
    events := answer.events }

/-- A copy of a template in a tree of its own, before any value is applied. -/
def instantiate (shared : SharedTemplate) : Except RenderError RenderRoot :=
  match shared.template.copyInto {} with
  | (tree, .ok copy) => .ok { tree, root := copy.root, template := shared, parts := copy.parts }
  | (_, .error e) => .error e

def instantiated (root : RenderRoot) : Event := .clonedTemplate root.parts.length

/-- Renders into a new root. -/
def renderRoot (r : Renderer) (s : Setting) (t : TemplateResult) :
    Work (Except RenderError RenderRoot) :=
  let compiled := r.compile s t
  match compiled.result with
  | .error e => { compiled with result := .error e }
  | .ok shared =>
    match instantiate shared with
    | .error e => { compiled with result := .error e }
    | .ok root =>
      let work := root.update compiled.renderer s t.values
      { result :=
          match work.result.error with
          | some e => .error e
          | none => .ok work.result.root
        renderer := work.renderer
        events := compiled.events ++ instantiated root :: work.events }

/-- Renders to HTML. -/
def render (r : Renderer) (s : Setting) (t : TemplateResult) : Work (Except RenderError String) :=
  let work := r.renderRoot s t
  { work with result := work.result.map (·.toHtml r.config.style) }

end Renderer

/-- Renders into an existing root, which is patched if it shows the same template and built anew
otherwise. -/
def RenderRoot.render (root : RenderRoot) (r : Renderer) (s : Setting) (t : TemplateResult) :
    Work Updated :=
  let compiled := r.compile (s.holding root.held) t
  match compiled.result with
  | .error e => { compiled with result := ⟨root, some e⟩ }
  | .ok shared =>
    if root.template.id = shared.id then
      let work := root.update compiled.renderer s t.values
      { work with events := compiled.events ++ work.events }
    else
      match Renderer.instantiate shared with
      | .error e =>
        { compiled with
          result := ⟨root, some e⟩, events := compiled.events ++ [.rebuiltRoot] }
      | .ok root =>
        let work := root.update compiled.renderer s t.values
        { work with
          events := compiled.events ++ .rebuiltRoot :: Renderer.instantiated root :: work.events }

end LiveMarkup
