import LiveMarkup.Template.Compile

set_option autoImplicit false

/-!
Compiled templates, kept by the identity of their fragments and by their content. Every identity
that was ever asked for is remembered until its fragments are gone; what has been compiled is kept
until the cache is cleared. HTML and SVG templates are kept apart.
-/

namespace LiveMarkup

/-- A compiled template as an object of its own: two compilations are never the same one. -/
structure TemplateId where
  cache : Nat
  serial : Nat
  deriving DecidableEq, Repr

structure SharedTemplate where
  id : TemplateId
  template : Template
  deriving Repr

/-- The templates of one kind. -/
structure Partition where
  byIdentity : List (StringsId × SharedTemplate) := []
  byContent : List (String × SharedTemplate) := []
  deriving Repr

namespace Partition

def find? (p : Partition) (strings : TemplateStrings) : Option SharedTemplate :=
  (p.byIdentity.lookup strings.identity).or (p.byContent.lookup strings.joined)

def remember (p : Partition) (strings : TemplateStrings) (shared : SharedTemplate) : Partition :=
  { p with
    byIdentity := (strings.identity, shared) ::
      p.byIdentity.filter fun (id, _) => id ≠ strings.identity }

/-- Forgets the identities of fragments that are gone. -/
def prune (p : Partition) (alive : StringsId → Bool) : Partition :=
  { p with byIdentity := p.byIdentity.filter fun (id, _) => alive id }

end Partition

/-- How requests were answered. -/
structure CacheStats where
  identityHits : Nat := 0
  contentHits : Nat := 0
  compiles : Nat := 0
  deriving DecidableEq, Repr

structure TemplateCache where
  /-- The number of the cache. -/
  owner : Nat := 0
  detectDocuments : Bool := true
  html : Partition := {}
  svg : Partition := {}
  stats : CacheStats := {}
  deriving Repr

namespace TemplateCache

def partition (c : TemplateCache) : TemplateKind → Partition
  | .html => c.html
  | .svg => c.svg

def setPartition (c : TemplateCache) (kind : TemplateKind) (p : Partition) : TemplateCache :=
  match kind with
  | .html => { c with html := p }
  | .svg => { c with svg := p }

/-- Looks a template up without compiling it. -/
def get? (c : TemplateCache) (strings : TemplateStrings) (kind : TemplateKind) :
    Option SharedTemplate :=
  (c.partition kind).find? strings

/-- What a request gives: the template or the errors of its markup, the cache, and events. -/
structure Answer where
  outcome : Except (List Markup.SyntaxError) SharedTemplate
  cache : TemplateCache
  events : List Event

/-- Looks a template up, and compiles it if it is not there. `alive` says which fragments still
exist. -/
def getOrCompile (c : TemplateCache) (alive : StringsId → Bool) (strings : TemplateStrings)
    (kind : TemplateKind) : Answer :=
  let p := c.partition kind
  match p.byIdentity.lookup strings.identity with
  | some shared =>
    { outcome := .ok shared
      cache := { c with stats.identityHits := c.stats.identityHits + 1 }
      events := [.identityHit kind] }
  | none =>
    let key := strings.joined
    match p.byContent.lookup key with
    | some shared =>
      { outcome := .ok shared
        cache := { c with stats.contentHits := c.stats.contentHits + 1 }.setPartition kind
          ((p.prune alive).remember strings shared)
        events := [.contentHit kind] }
    | none =>
      let compiled := Template.compile strings kind c.detectDocuments
      match compiled.outcome with
      | .error errors => { outcome := .error errors, cache := c, events := compiled.events }
      | .ok template =>
        let shared : SharedTemplate := ⟨⟨c.owner, c.stats.compiles⟩, template⟩
        let p := p.prune alive
        let p := { p with byContent := (key, shared) :: p.byContent }.remember strings shared
        { outcome := .ok shared
          cache := { c with stats.compiles := c.stats.compiles + 1 }.setPartition kind p
          events := compiled.events ++ [.cached kind key.utf8ByteSize] }

/-- Forgets the identities of fragments that are gone; returns how many. -/
def purge (c : TemplateCache) (alive : StringsId → Bool) : TemplateCache × Nat :=
  let html := c.html.prune alive
  let svg := c.svg.prune alive
  ({ c with html, svg },
    (c.html.byIdentity.length - html.byIdentity.length) +
      (c.svg.byIdentity.length - svg.byIdentity.length))

/-- How many different templates are kept. -/
def size (c : TemplateCache) : Nat := c.html.byContent.length + c.svg.byContent.length

def clear (c : TemplateCache) : TemplateCache := { c with html := {}, svg := {} }

end TemplateCache

end LiveMarkup
