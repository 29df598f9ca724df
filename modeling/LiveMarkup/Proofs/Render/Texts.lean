import LiveMarkup.Proofs.Render.Html
import LiveMarkup.Proofs.Render.Origin
import LiveMarkup.Proofs.Template.Texts

set_option autoImplicit false

/-!
Rendering values that are texts. A renderer has one template for given fragments, whatever their
values; if it is guarded, it can be rendered with any scalars, and the HTML is read as trees that
differ in texts and in the values of attributes only. Where it is not guarded, a string can be read
as markup.
-/

namespace LiveMarkup

variable {objects : Objects} {known : Registry} {r : Renderer} {s : Setting}

theorem Primitive.isText_meaning {look : Look} {strict : Bool} {m : Meaning} {values : List Primitive}
    (h : m ∈ Value.meanings look strict (values.map .primitive)) : m.IsText := by
  rw [Value.meanings_eq_map, List.map_map] at h
  obtain ⟨p, -, rfl⟩ := List.mem_map.1 h
  exact ⟨rfl, _, rfl, List.forall_mem_singleton.2 ⟨p.text, rfl⟩⟩

/-- A renderer has one template for given fragments. -/
theorem Renderer.result_compile_eq (h : r.cache.Coherent objects known) {strings : TemplateStrings}
    (hs : objects.strings strings.identity = strings) (kind : TemplateKind) (s' : Setting)
    (values values' : List Value) :
    (r.compile s ⟨strings, values, kind⟩).result = (r.compile s' ⟨strings, values', kind⟩).result := by
  have hsame : TemplateCache.SameContent r.cache r.cache := ⟨rfl, rfl, rfl, fun _ => rfl⟩
  exact congrArg (Except.mapError RenderError.parse) (hsame.outcome_eq h h hs)

section Scalars

variable {strings : TemplateStrings} {kind : TemplateKind} {shared : SharedTemplate}
  {values : List Primitive}

/-- A template result whose values are scalars. -/
def TemplateResult.ofPrimitives (strings : TemplateStrings) (kind : TemplateKind)
    (values : List Primitive) : TemplateResult :=
  ⟨strings, values.map .primitive, kind⟩

open TemplateResult (ofPrimitives)

theorem Value.deferredsOfAll_primitive (values : List Primitive) :
    deferredsOfAll (values.map .primitive) = [] := by
  induction values with
  | nil => rfl
  | cons p values ih =>
    rw [List.map_cons, deferredsOfAll, ih]
    rfl

/-- Scalars are shown as texts and attributes. -/
theorem TemplateResult.denote_ofPrimitives (strings : TemplateStrings) (kind : TemplateKind)
    {look : Look} {strict : Bool} (hlook : look strings kind = some shared)
    (hcount : strict = true → values.length = shared.template.valueCount) :
    ∃ shown, List.Forall₂ TemplatePart.ShowsText shared.template.parts shown ∧
      (Value.ofResult (ofPrimitives strings kind values)).denote look strict =
        some (shared.template.filled shown) := by
  have hslots : ∀ slot ∈ (Value.meanings look strict (values.map .primitive)).map some,
      ∀ m ∈ slot, m.IsText := by
    intro slot hslot m hm
    obtain ⟨m', hm', rfl⟩ := List.mem_map.1 hslot
    obtain rfl := Option.some.inj hm
    exact Primitive.isText_meaning hm'
  obtain ⟨shown, hshown, hall⟩ := Template.exists_shows shared.template.parts hslots
  refine ⟨shown, hall, ?_⟩
  have hlength : (Value.meanings look strict (values.map .primitive)).length = values.length := by
    rw [Value.meanings_eq_map, List.length_map, List.length_map]
  rw [ofPrimitives, Value.ofResult, Value.denote, hlook, Option.bind_some, Template.denote, hlength,
    if_neg fun h => h.1 (hcount h.2).symm, hshown]
  rfl

/-- A template is rendered with scalars, which put texts and attributes into it. -/
theorem Renderer.render_ofPrimitives (h : r.cache.Coherent objects known)
    (hs : s.deferreds.Faithful objects) (hstrings : objects.strings strings.identity = strings)
    (hcompile : (r.compile s (ofPrimitives strings kind values)).result = .ok shared)
    (hcount : r.config.strictValueCount = true → values.length = shared.template.valueCount) :
    ∃ shown, List.Forall₂ TemplatePart.ShowsText shared.template.parts shown ∧
      (r.render s (ofPrimitives strings kind values)).result =
        .ok (Html.writeAll r.config.style false (shared.template.filled shown)) := by
  have ht : (ofPrimitives strings kind values).Faithful objects := by
    refine ⟨hstrings, Value.faithfulAll_iff.2 fun v hv => ?_⟩
    obtain ⟨p, -, rfl⟩ := List.mem_map.1 hv
    trivial
  have hnil : (Value.ofResult (ofPrimitives strings kind values)).deferreds = [] :=
    Value.deferredsOfAll_primitive values
  obtain ⟨known₁, ha, hok, -⟩ := compile_spec (s := s) (t := ofPrimitives strings kind values) h
    hstrings
  obtain ⟨known₂, ha₂, hshows, hsucceeds⟩ := renderRoot_compiled h hs ht true hcompile
  obtain ⟨root, hroot⟩ : ∃ root,
      (r.renderRoot s (ofPrimitives strings kind values)).result = .ok root := by
    have hfound := (hok shared hcompile).2
    have hplain : (Value.ofResult (ofPrimitives strings kind values)).Plain true s.deferreds :=
      Value.plain_of_nil hnil
    refine hsucceeds hplain.1 _
      (Look.Within.yields (fun _ _ _ _ hg => hg) ha.coherent) shared hfound rfl ?_
    obtain ⟨shown, -, hdenote⟩ := TemplateResult.denote_ofPrimitives strings kind hfound hcount
    rw [hdenote]
    exact Option.some_ne_none _
  obtain ⟨htemplate, label, closing, _, f, hshown⟩ := hshows root hroot
  obtain ⟨bs, hdenote, hlike⟩ := hshown.shows (Value.plain_of_nil hnil) _ fun _ _ _ _ hg => hg
  obtain ⟨shown, hall, hdenote'⟩ := TemplateResult.denote_ofPrimitives strings kind
    (htemplate ▸ hshown.found) hcount
  rw [ha₂.config, hdenote'] at hdenote
  refine ⟨shown, hall, render_ok_iff.2 ⟨root, hroot, ?_⟩⟩
  rw [hshown.stands.toHtml, hlike.eq, ← Option.some.inj hdenote]

end Scalars

/-- Whatever scalars a guarded HTML template is rendered with, its HTML is read as a tree, and the
skeleton of that tree is always the same. -/
theorem Host.Reachable.skeleton_render {h : Host} (hh : h.Reachable objects) (hr : r ∈ h.renderers)
    {strings : TemplateStrings} (hs : objects.strings strings.identity = strings)
    {shared : SharedTemplate}
    (hcompile : (r.compile {} (.ofPrimitives strings .html [])).result = .ok shared)
    (hguarded : shared.template.guarded = true) :
    ∃ skeleton, ∀ s : Setting, s.deferreds.Faithful objects → ∀ values : List Primitive,
      (r.config.strictValueCount = true → values.length = shared.template.valueCount) →
      ∃ html tree, (r.render s (.ofPrimitives strings .html values)).result = .ok html ∧
        (Markup.parseFragment html).outcome = .ok tree ∧ tree.content.skeleton = skeleton := by
  obtain ⟨known, hsound⟩ := hh.sound
  obtain ⟨i, hi⟩ := List.getElem?_of_mem hr
  have hcoherent := (hsound.renderers i r hi).2
  obtain ⟨_, _, hshared⟩ := Renderer.exists_compile hcoherent hs hcompile
  refine ⟨[(Markup.Draft.ofTokens .fragment (Html.tokensAll r.config.style none
    shared.template.skeleton)).content], fun s hsetting values hcount => ?_⟩
  obtain ⟨shown, hshown, hok⟩ := Renderer.render_ofPrimitives hcoherent hsetting hs
    ((Renderer.result_compile_eq hcoherent hs .html {} _ _).trans hcompile) hcount
  obtain ⟨tree, htree, hskeleton⟩ := Template.skeleton_parseFragment_filled r.config.style
    (Template.sound_compile hshared) (Template.legible_compile hshared) hguarded hshown
  exact ⟨_, tree, hok, htree, hskeleton⟩

/-- Holes in an attribute, between nodes and in the title of a drawing, beside texts that are written
as they stand and texts that are not. -/
def sketch : TemplateStrings :=
  .ofFragments ⟨0⟩ ["<p class=\"", "\">", "<br><svg><title>",
    "</title><style>a > b</style></svg><textarea>a &lt; b</textarea></p>"]

/-- A host that has made a renderer. -/
def Host.withRendererOnly : Host := Host.run {} [.newRenderer {}]

theorem Host.withRendererOnly_length : 0 < Host.withRendererOnly.renderers.length := by decide

theorem Host.skeleton_render_sketch :
    ∃ r ∈ Host.withRendererOnly.renderers, ∃ shared,
      (r.compile {} (.ofPrimitives sketch .html [])).result = .ok shared ∧
      shared.template.guarded = true ∧ ∃ html tree html' tree',
        (r.render {} (.ofPrimitives sketch .html [.str "a", .str "b", .str "c"])).result = .ok html ∧
        (r.render {} (.ofPrimitives sketch .html
          [.str "\"><b>", .str "</p><script>", .str "<!--"])).result = .ok html' ∧
        (Markup.parseFragment html).outcome = .ok tree ∧
        (Markup.parseFragment html').outcome = .ok tree' ∧
        tree.content.skeleton = tree'.content.skeleton := by
  have hreachable : Host.withRendererOnly.Reachable (.only sketch) :=
    ⟨[.newRenderer {}], List.forall_mem_singleton.2 trivial, rfl⟩
  have hguarded : (Host.withRendererOnly.renderers[0].compile {}
      (.ofPrimitives sketch .html [])).result.toOption.map (·.template.guarded) = some true := by
    decide +kernel
  obtain ⟨shared, hshared, hguarded⟩ := Option.map_eq_some_iff.1 hguarded
  have hcompile := Except.ok_of_toOption hshared
  obtain ⟨skeleton, hskeleton⟩ := Host.Reachable.skeleton_render hreachable
    (List.getElem_mem Host.withRendererOnly_length) rfl hcompile hguarded
  have hlenient : Host.withRendererOnly.renderers[0].config.strictValueCount ≠ true := by decide
  obtain ⟨html, tree, hok, htree, rfl⟩ := hskeleton {} Setting.faithful_empty
    [.str "a", .str "b", .str "c"] fun hstrict => absurd hstrict hlenient
  obtain ⟨html', tree', hok', htree', hsame⟩ := hskeleton {} Setting.faithful_empty
    [.str "\"><b>", .str "</p><script>", .str "<!--"] fun hstrict => absurd hstrict hlenient
  exact ⟨_, List.getElem_mem Host.withRendererOnly_length, shared, hcompile, hguarded, html, tree,
    html', tree', hok, hok', htree, htree', hsame.symm⟩

/-- A hole in the style sheet of a drawing. -/
def drawnStyle : TemplateStrings := .ofFragments ⟨0⟩ ["<svg><style>", "</style></svg>"]

/-- A hole behind a drawing whose style sheet begins a comment where it is written as it stands. -/
def drawnComment : TemplateStrings :=
  .ofFragments ⟨0⟩ ["<svg><style>&lt;!--</style></svg><p class=\"", "\"></p>"]

/-- A hole in a style sheet behind a drawing that is only closed by the element around it. -/
def styleBehindDrawing : TemplateStrings :=
  .ofFragments ⟨0⟩ ["<div><svg></div><style>", "</style>"]

namespace Renderer

/-- The nodes of the skeleton that the HTML of a template with one string is read as. -/
def skeletonRead (r : Renderer) (strings : TemplateStrings) (v : String) : Option (List NodeKind) :=
  (r.render {} (.ofPrimitives strings .html [.str v])).result.toOption.bind fun html =>
    (Markup.parseFragment html).outcome.toOption.map fun tree =>
      Branch.labelsOfAll tree.content.skeleton

/-- With each of two strings a template is rendered, and its HTML read, but not as trees of the same
skeleton. -/
def TellsApart (r : Renderer) (strings : TemplateStrings) (v v' : String) : Prop :=
  ∃ html tree html' tree',
    (r.render {} (.ofPrimitives strings .html [.str v])).result = .ok html ∧
    (r.render {} (.ofPrimitives strings .html [.str v'])).result = .ok html' ∧
    (Markup.parseFragment html).outcome = .ok tree ∧
    (Markup.parseFragment html').outcome = .ok tree' ∧
    tree.content.skeleton ≠ tree'.content.skeleton

theorem exists_of_skeletonRead {strings : TemplateStrings} {v : String} {kinds : List NodeKind}
    (h : r.skeletonRead strings v = some kinds) :
    ∃ html tree, (r.render {} (.ofPrimitives strings .html [.str v])).result = .ok html ∧
      (Markup.parseFragment html).outcome = .ok tree ∧
      Branch.labelsOfAll tree.content.skeleton = kinds := by
  obtain ⟨html, hhtml, hread⟩ := Option.bind_eq_some_iff.1 h
  obtain ⟨tree, htree, hkinds⟩ := Option.map_eq_some_iff.1 hread
  exact ⟨html, tree, Except.ok_of_toOption hhtml, Except.ok_of_toOption htree, hkinds⟩

theorem tellsApart_of_skeletonRead {strings : TemplateStrings} {v v' : String}
    {kinds kinds' : List NodeKind} (h : r.skeletonRead strings v = some kinds)
    (h' : r.skeletonRead strings v' = some kinds') (hne : kinds ≠ kinds') :
    r.TellsApart strings v v' := by
  obtain ⟨html, tree, hhtml, htree, rfl⟩ := exists_of_skeletonRead h
  obtain ⟨html', tree', hhtml', htree', rfl⟩ := exists_of_skeletonRead h'
  exact ⟨html, tree, html', tree', hhtml, hhtml', htree, htree',
    fun hsame => hne (congrArg Branch.labelsOfAll hsame)⟩

/-- In the style sheet of a drawing a string is written as it stands, and read as markup. A text of the
template is written so too, and what it begins can be ended by the value of an attribute. And behind a
drawing that is not closed, a style sheet is taken for one of the drawing, where it may have a hole. -/
theorem skeleton_render_drawnStyle :
    (new 0 {}).TellsApart drawnStyle "x" "<b></b>" ∧
      (new 0 {}).TellsApart drawnComment "--><i></i>" "--><b></b>" ∧
      (new 0 {}).TellsApart styleBehindDrawing "x" "</style><b></b>" := by
  refine ⟨?_, ?_, ?_⟩
  · have hplain : (new 0 {}).skeletonRead drawnStyle "x" =
        some [.fragment, .element "svg" [], .element "style" []] := by decide +kernel
    have hmarkup : (new 0 {}).skeletonRead drawnStyle "<b></b>" =
        some [.fragment, .element "svg" [], .element "style" [], .element "b" []] := by
      decide +kernel
    exact tellsApart_of_skeletonRead hplain hmarkup (by decide)
  · have hfirst : (new 0 {}).skeletonRead drawnComment "--><i></i>" =
        some [.fragment, .element "svg" [], .element "style" [],
          .comment "</style></svg><p class=\"", .element "i" []] := by decide +kernel
    have hsecond : (new 0 {}).skeletonRead drawnComment "--><b></b>" =
        some [.fragment, .element "svg" [], .element "style" [],
          .comment "</style></svg><p class=\"", .element "b" []] := by decide +kernel
    exact tellsApart_of_skeletonRead hfirst hsecond (by decide)
  · have hplain : (new 0 {}).skeletonRead styleBehindDrawing "x" =
        some [.fragment, .element "div" [], .element "svg" [], .element "style" []] := by
      decide +kernel
    have hmarkup : (new 0 {}).skeletonRead styleBehindDrawing "</style><b></b>" =
        some [.fragment, .element "div" [], .element "svg" [], .element "style" [],
          .element "b" []] := by decide +kernel
    exact tellsApart_of_skeletonRead hplain hmarkup (by decide)

end Renderer

end LiveMarkup
