import LiveMarkup.Proofs.Part.Flushing
import LiveMarkup.Proofs.Tree.Reading
import LiveMarkup.Render.Renderer

set_option autoImplicit false

/-!
Roots. The tree of a root is a copy of the root's template and nothing else. Updates and flushes
keep it so, rendering another template puts a new copy in its place, and a root that was rendered
without an error shows what the template and its values denote.
-/

namespace LiveMarkup

open Branch (labelsOfAll mapAll)
open LiveMarkup.Tree (Stretch)

/-- From one state of a renderer to a later one, the renderer not being cleared. -/
structure Renderer.Advances (objects : Objects) (known known' : Registry) (r r' : Renderer) :
    Prop where
  config : r'.config = r.config
  grown : known.Grown known' r.cache.owner
  coherent : r'.cache.Coherent objects known'
  extends_cache : r.cache.Extends r'.cache

/-- The tree of a root is a copy of its template, with no other node. -/
structure RenderRoot.Stands (objects : Objects) (known : Registry) (exact : Bool)
    (root : RenderRoot) (label closing : Nat → NodeId) (shown : List (Shown NodeId))
    (f : List (Branch NodeId)) : Prop where
  has : known.has root.template
  accounted : root.tree.Accounted
  textLeaves : root.tree.TextLeaves
  stretch : Stretch root.tree root.root [] f []
  parent_root : root.tree.parent root.root = none
  root_kind : root.tree.kind root.root = root.template.template.kindAt 0
  copied : root.template.template.Copy root.tree.kind exact label closing shown f
  fits : Part.FitsAll objects known root.tree.kind exact label
    (root.template.template.stopAt label closing) root.parts root.template.template.parts shown
  live : ∀ n, root.tree.contains n = true → n ∈ root.root :: labelsOfAll f

/-- The parts of a root carry the values of a template result. -/
def RenderRoot.Carries (look : Look) (strict : Bool) (root : RenderRoot)
    (label closing : Nat → NodeId) (shown : List (Shown NodeId)) (values : List Value) : Prop :=
  (strict = true → root.template.template.valueCount = values.length) ∧
    Part.CarriesAll look strict label (root.template.template.stopAt label closing) root.parts
      root.template.template.parts shown (Slots.dealt root.template.template.parts (values.map some))

/-- A root shows what a template and its values denote by the templates that a renderer keeps, and
will show what they are foreseen to show. -/
structure RenderRoot.Shows (objects : Objects) (known : Registry) (exact blank : Bool) (s : Setting)
    (r : Renderer) (t : TemplateResult) (root : RenderRoot) (label closing : Nat → NodeId)
    (shown : List (Shown NodeId)) (f : List (Branch NodeId)) : Prop where
  stands : root.Stands objects known exact label closing shown f
  found : r.cache.get? t.strings t.kind = some root.template
  shows : (Value.ofResult t).Plain blank s.deferreds → ∀ look : Look,
    look.Covers objects r.cache →
    ∃ bs, (Value.ofResult t).denote look r.config.strictValueCount = some bs ∧
      Branch.Like exact root.tree.kind f bs
  reads : (Value.ofResult t).Plain blank s.deferreds → ∀ (look : Look) (forecast : Forecast),
    look.Agrees objects r.cache → (Value.ofResult t).Foreseeable forecast →
    ∃ read, (Value.ofResult t).foresee look r.config.strictValueCount forecast =
        some (root.template.template.filled read) ∧
      Part.ReadsAll forecast objects known root.tree.kind exact root.parts shown read
  carries : ∀ look : Look, look.Covers objects r.cache →
    root.Carries look r.config.strictValueCount label closing shown t.values

/-- What bringing a root in step with values comes to. -/
structure RenderRoot.Updates (objects : Objects) (known known' : Registry) (exact blank : Bool)
    (s : Setting) (r : Renderer) (root : RenderRoot) (label closing : Nat → NodeId)
    (shown : List (Shown NodeId)) (f : List (Branch NodeId)) (values : List Value)
    (work : Work Updated) : Prop where
  advances : r.Advances objects known known' work.renderer
  template_eq : work.result.root.template = root.template
  stands : work.result.root.Stands objects known' exact label closing shown f
  reads : work.result.error = none → (∀ v ∈ values, v.Plain blank s.deferreds) →
    ∀ (look : Look) (forecast : Forecast), look.Agrees objects work.renderer.cache →
    (∀ v ∈ values, v.Foreseeable forecast) →
    ∃ read, root.template.template.denote r.config.strictValueCount
        (Value.foreseeAll look r.config.strictValueCount forecast values) =
          some (root.template.template.filled read) ∧
      Part.ReadsAll forecast objects known' work.result.root.tree.kind exact work.result.root.parts
        shown read
  succeeds : (∀ v ∈ values, v.Outstanding s.deferreds) → ∀ look : Look,
    look.Yields objects r.cache →
    root.template.template.denote r.config.strictValueCount
      (Value.meanings look r.config.strictValueCount values) ≠ none → work.result.error = none
  carries : work.result.error = none → ∀ look : Look, look.Covers objects work.renderer.cache →
    work.result.root.Carries look r.config.strictValueCount label closing shown values

variable {objects : Objects} {known known' known'' : Registry} {exact blank : Bool} {s : Setting}
  {r r' r'' : Renderer} {root : RenderRoot} {t : TemplateResult} {shared : SharedTemplate}
  {label closing : Nat → NodeId} {shown : List (Shown NodeId)} {f f' : List (Branch NodeId)}
  {values : List Value}

namespace Renderer

theorem Advances.trans (h : Advances objects known known' r r')
    (h' : Advances objects known' known'' r' r'') : Advances objects known known'' r r'' where
  config := h'.config.trans h.config
  grown := h.grown.trans (h.extends_cache.owner ▸ h'.grown)
  coherent := h'.coherent
  extends_cache := h.extends_cache.trans h'.extends_cache

/-- A renderer compiles a template or finds it, and finds it from then on. -/
theorem compile_spec (h : r.cache.Coherent objects known)
    (hs : objects.strings t.strings.identity = t.strings) :
    ∃ known', Advances objects known known' r (r.compile s t).renderer ∧
      (∀ shared, (r.compile s t).result = .ok shared → known'.has shared ∧
        (r.compile s t).renderer.cache.get? t.strings t.kind = some shared) ∧
      ∀ look : Look, look.Yields objects r.cache → ∀ found, look t.strings t.kind = some found →
        ∃ shared, (r.compile s t).result = .ok shared ∧ shared.template = found.template := by
  obtain ⟨known', ha⟩ := h.answers hs
    ((s.holders ++ ⟨[t.strings.identity], t.values⟩).holdsStrings s.deferreds) t.kind
  refine ⟨known', ⟨rfl, ha.grown, ha.coherent, ha.extends_cache⟩, fun shared hok => ?_,
    fun look hlook found hfound => ?_⟩
  · have hok' := hok
    simp only [compile] at hok'
    cases houtcome : (r.cache.getOrCompile
      ((s.holders ++ ⟨[t.strings.identity], t.values⟩).holdsStrings s.deferreds) t.strings
      t.kind).outcome with
    | error e => simp [houtcome, Except.mapError] at hok'
    | ok found =>
      rw [houtcome] at hok'
      obtain rfl : found = shared := Except.ok.inj hok'
      exact ⟨ha.has _ houtcome, ha.kept _ houtcome⟩
  · obtain ⟨shared, hok, htemplate⟩ := hlook _ _ _ hs hfound _ _ (.refl _) h
      ((s.holders ++ ⟨[t.strings.identity], t.values⟩).holdsStrings s.deferreds)
    exact ⟨shared, by simp only [compile, hok, Except.mapError], htemplate⟩

/-- A template that is known can be instantiated. -/
theorem instantiate_spec (hhas : known.has shared) (exact : Bool) :
    ∃ root label closing f, instantiate shared = .ok root ∧ root.template = shared ∧
      root.Stands objects known exact label closing
        (shared.template.parts.map TemplatePart.blank) f ∧
      List.Forall₂ Part.Blank root.parts (shared.template.parts.map TemplatePart.blank) := by
  have haccounted : Tree.Accounted {} := ⟨by simp, by simp [Tree.contains, Tree.node], rfl⟩
  have hleaves : Tree.TextLeaves {} := fun n hn => by simp [Tree.contains, Tree.node] at hn
  obtain ⟨tree, copy, label, closing, f, hcopy, hc⟩ :=
    (known.sound shared hhas).copyInto haccounted objects known exact
  refine ⟨{ tree, root := copy.root, template := shared, parts := copy.parts }, label, closing, f,
    ?_, rfl, ⟨hhas, hc.adds.accounted, hc.textLeaves hleaves, hc.stretch, hc.parent_root, hc.root_kind,
      hc.copied, hc.fits, fun n hn => ?_⟩, hc.blank⟩
  · simp only [instantiate, hcopy]
  · rcases hc.adds.live n hn with hm | hl
    · exact hm
    · simp [Tree.contains, Tree.node] at hl

end Renderer

namespace RenderRoot.Stands

theorem mono (h : root.Stands objects known exact label closing shown f) (hle : known ≤ known') :
    root.Stands objects known' exact label closing shown f :=
  { h with
    has := hle _ h.has
    fits := h.fits.mono hle (fun _ _ _ _ => rfl) id }

/-- A root's tree is where its copy stands. -/
theorem template (h : root.Stands objects known exact label closing shown f)
    (hr : r.cache.Coherent objects known) :
    root.template.template.Stands objects known exact (root.world r) root.root [] [] label closing
      shown f :=
  ⟨known.sound _ h.has, hr, h.accounted, h.textLeaves, h.stretch, h.copied⟩

/-- Whatever happened to the copy, there is no other node. -/
theorem turned (h : root.Stands objects known exact label closing shown f) {w : World}
    {parts : List Part} {shown' : List (Shown NodeId)}
    (ht : World.Turns objects known known' (root.world r) w root.root (labelsOfAll f)
      (labelsOfAll f'))
    (hst : root.template.template.Stands objects known' exact w root.root [] [] label closing shown'
      f')
    (hfits : Part.FitsAll objects known' w.tree.kind exact label
      (root.template.template.stopAt label closing) parts root.template.template.parts shown') :
    RenderRoot.Stands objects known' exact { root with tree := w.tree, parts } label closing shown'
      f' where
  has := ht.grown.1 _ h.has
  accounted := hst.accounted
  textLeaves := hst.textLeaves
  stretch := hst.stretch
  parent_root := ht.exchange.parent_owner.trans h.parent_root
  root_kind := ht.exchange.kind_owner.trans h.root_kind
  copied := hst.copied
  fits := hfits
  live n hn := by
    rcases ht.exchange.live n hn with hm | ⟨hl, ho⟩
    · exact List.mem_cons_of_mem _ hm
    · exact (List.mem_cons.1 (h.live n hl)).elim (fun he => he ▸ List.mem_cons_self)
        fun hm => absurd hm ho

/-- A root is brought in step with values. -/
theorem update (h : root.Stands objects known exact label closing shown f)
    (hr : r.cache.Coherent objects known) (hs : s.deferreds.Faithful objects)
    (hv : ∀ v ∈ values, v.Faithful objects) (blank : Bool)
    (hblank : exact = true ∨ blank = true → List.Forall₂ Part.Blank root.parts shown) :
    ∃ known' shown' f', RenderRoot.Updates objects known known' exact blank s r root label closing
      shown' f' values (root.update r s values) := by
  obtain ⟨depth, hdepth⟩ : ∃ depth, depth =
      Patch.depthFor { s with strictValueCount := r.config.strictValueCount }
        (Part.depthOfAll root.parts) (Value.weights values) := ⟨_, rfl⟩
  have hcorrect : (Patch.within depth).Correct objects exact r.config.strictValueCount s.deferreds
      depth := Patch.correct_within hs depth
  obtain ⟨known', shown', f', hu⟩ := Patch.Correct.update hcorrect
    (s := { s with strictValueCount := r.config.strictValueCount }) rfl rfl (h.template hr) h.fits
    blank hblank hv
  have hlt : ∀ n ≤ Value.weights values, n < depth := fun n hn =>
    hdepth ▸ Patch.lt_depthFor hn
  subst hdepth
  refine ⟨known', shown', f', ⟨rfl, hu.turns.grown, hu.turns.coherent, hu.turns.extends_cache⟩,
    rfl, h.turned hu.turns hu.stands hu.fits, hu.reads, ?_, hu.carries⟩
  exact hu.succeeds (hlt 0 (Nat.zero_le _)) fun v hv => .inl (hlt _ (Value.weight_le_weights hv))

/-- What has settled is shown in a root, which will show what it was going to show before if the
deferred values came to what was expected. -/
theorem reads_flush (h : root.Stands objects known exact label closing shown f)
    (hr : r.cache.Coherent objects known) (hs : s.deferreds.Faithful objects) {forecast : Forecast}
    {read : List (Shown NodeKind)}
    (hread : Part.ReadsAll forecast objects known root.tree.kind exact root.parts shown read) :
    ∃ known' shown' f', r.Advances objects known known' (root.flush r s).renderer ∧
      (root.flush r s).result.1.root.Stands objects known' exact label closing shown' f' ∧
      ∀ look : Look, look.Lasts objects r.cache →
        forecast.Due look r.config.strictValueCount s.deferreds.poll →
        (root.flush r s).result.1.error = none ∧
          Part.ReadsAll (forecast.after s.deferreds) objects known'
            (root.flush r s).result.1.root.tree.kind exact (root.flush r s).result.1.root.parts shown'
            read := by
  have hnone : Part.FitsAll objects known (root.world r).tree.kind exact label
      (root.template.template.stopAt label closing) [] [] [] := ⟨rfl, rfl⟩
  have hst : root.template.template.Stands objects known exact (root.world r) root.root [] [] label
      closing ([] ++ shown) f := h.template hr
  obtain ⟨known', shown', f', ht, hst, hfits, hreads⟩ := Part.reads_flushAll {} root.parts
    (s := { s with strictValueCount := r.config.strictValueCount }) hst (List.nil_append _).symm
    hnone h.fits hs hread
  exact ⟨known', shown', f', ⟨rfl, ht.grown, ht.coherent, ht.extends_cache⟩,
    h.turned ht hst hfits, fun look hlook hdue => hreads look hlook hdue [] ⟨rfl, rfl⟩⟩

/-- A root stands after a flush, whatever has settled. -/
theorem flush (h : root.Stands objects known false label closing shown f)
    (hr : r.cache.Coherent objects known) (hs : s.deferreds.Faithful objects) :
    ∃ known' shown' f', r.Advances objects known known' (root.flush r s).renderer ∧
      (root.flush r s).result.1.root.Stands objects known' false label closing shown' f' := by
  obtain ⟨read, hread⟩ := h.fits.exists_reads
  obtain ⟨known', shown', f', ha, hst, -⟩ := h.reads_flush hr hs hread
  exact ⟨known', shown', f', ha, hst⟩

end RenderRoot.Stands

namespace RenderRoot.Updates

variable {work : Work Updated}

/-- A root of the right template shows the template's result after an update without an error. -/
theorem shows_result
    (h : RenderRoot.Updates objects known known' exact blank s r root label closing shown f t.values
      work)
    (hr : r.cache.Coherent objects known) (ht : objects.strings t.strings.identity = t.strings)
    (hfound : r.cache.get? t.strings t.kind = some root.template)
    (herror : work.result.error = none) :
    work.result.root.Shows objects known' exact blank s work.renderer t label closing shown f := by
  have hfound' : work.renderer.cache.get? t.strings t.kind = some root.template :=
    h.advances.extends_cache.get? hr h.advances.coherent ht hfound
  have hreads (hplain : (Value.ofResult t).Plain blank s.deferreds) (look : Look)
      (forecast : Forecast) (hlook : look.Agrees objects work.renderer.cache)
      (hforesee : (Value.ofResult t).Foreseeable forecast) :
      ∃ read, (Value.ofResult t).foresee look work.renderer.config.strictValueCount forecast =
          some (work.result.root.template.template.filled read) ∧
        Part.ReadsAll forecast objects known' work.result.root.tree.kind exact
          work.result.root.parts shown read := by
    obtain ⟨read, hdenote, hread⟩ := h.reads herror
      (fun v hv => Value.plain_of_mem hplain.1 hplain.2 hv) look forecast hlook
      (fun v hv d hd => hforesee d (Value.deferreds_of_mem hv hd))
    obtain ⟨found, hlooked, htemplate⟩ := hlook _ _ _ ht hfound'
    refine ⟨read, ?_, hread⟩
    rw [h.advances.config, h.template_eq, Value.ofResult, Value.foresee, hlooked, Option.bind_some,
      htemplate]
    exact hdenote
  refine ⟨h.stands, h.template_eq ▸ hfound', fun hplain look hlook => ?_, hreads,
    h.advances.config ▸ h.carries herror⟩
  obtain ⟨read, hforesee, hread⟩ := hreads hplain look .still hlook.agrees
    (Value.foreseeable_still _)
  rw [Value.foresee_still] at hforesee
  exact ⟨_, hforesee, h.stands.copied.like (hread.like Forecast.final_still)⟩

/-- A root of the right template is updated without an error if the template's result has a
denotation. -/
theorem succeeds_result
    (h : RenderRoot.Updates objects known known' exact blank s r root label closing shown f t.values
      work)
    (hout : (Value.ofResult t).Outstanding s.deferreds) {look : Look}
    (hlook : look.Yields objects r.cache) {found : SharedTemplate}
    (hfound : look t.strings t.kind = some found) (htemplate : root.template.template = found.template)
    (hdenote : (Value.ofResult t).denote look r.config.strictValueCount ≠ none) :
    work.result.error = none := by
  refine h.succeeds (fun v hv => Value.outstanding_of_mem hout hv) look hlook ?_
  rwa [Value.ofResult, Value.denote, hfound, Option.bind_some, ← htemplate] at hdenote

end RenderRoot.Updates

theorem Renderer.render_ok_iff {html : String} : (r.render s t).result = .ok html ↔
    ∃ root, (r.renderRoot s t).result = .ok root ∧ root.toHtml r.config.style = html := by
  rw [render]
  cases (r.renderRoot s t).result <;> simp [Except.map]

/-- A template result made of objects that their identities stand for. -/
def TemplateResult.Faithful (objects : Objects) (t : TemplateResult) : Prop :=
  (Value.ofResult t).Faithful objects

/-- What a result denotes begins with its template. -/
theorem TemplateResult.look_ne_none {look : Look} {strict : Bool}
    (h : (Value.ofResult t).denote look strict ≠ none) :
    ∃ shared, look t.strings t.kind = some shared := by
  rw [Value.ofResult, Value.denote] at h
  exact Option.ne_none_iff_exists'.1 fun hnone => h (by rw [hnone, Option.bind_none])

/-- A result whose template is there is shown in a new root of that template if it is rendered, and
can be rendered if it has a denotation by that template and those that can be had then. -/
theorem Renderer.renderRoot_compiled (h : r.cache.Coherent objects known)
    (hs : s.deferreds.Faithful objects) (ht : t.Faithful objects) (exact : Bool)
    (hcompile : (r.compile s t).result = .ok shared) :
    ∃ known', r.Advances objects known known' (r.renderRoot s t).renderer ∧
      (∀ root, (r.renderRoot s t).result = .ok root → root.template = shared ∧
        ∃ label closing shown f, root.Shows objects known' exact true s (r.renderRoot s t).renderer t
          label closing shown f) ∧
      ((Value.ofResult t).Outstanding s.deferreds → ∀ look : Look,
        look.Yields objects (r.compile s t).renderer.cache → ∀ found : SharedTemplate,
        look t.strings t.kind = some found → found.template = shared.template →
        (Value.ofResult t).denote look r.config.strictValueCount ≠ none →
        ∃ root, (r.renderRoot s t).result = .ok root) := by
  obtain ⟨hstrings, hvalues⟩ := ht
  obtain ⟨known₁, ha, hok, -⟩ := compile_spec (s := s) (t := t) h hstrings
  obtain ⟨hhas, hfound⟩ := hok shared hcompile
  obtain ⟨compiled, hcompiled⟩ : ∃ compiled, compiled = r.compile s t := ⟨_, rfl⟩
  rw [← hcompiled] at ha hfound hcompile ⊢
  obtain ⟨root, label, closing, f, hroot, hshared, hstands, hblank⟩ := instantiate_spec hhas exact
  obtain ⟨known₂, shown, f', hu⟩ := hstands.update ha.coherent hs
    (Value.faithfulAll_iff.1 hvalues) true fun _ => hblank
  rw [renderRoot]
  simp only [← hcompiled, hcompile, hroot]
  refine ⟨known₂, ha.trans hu.advances, fun root' hroot' => ?_,
    fun hout look hlook found hlooked htemplate hdenote => ?_⟩
  · cases herror : (root.update compiled.renderer s t.values).result.error with
    | some e => simp only [herror] at hroot'; cases hroot'
    | none =>
      simp only [herror] at hroot'
      obtain rfl := Except.ok.inj hroot'
      exact ⟨hu.template_eq.trans hshared, label, closing, shown, f',
        hu.shows_result ha.coherent hstrings (hshared.symm ▸ hfound) herror⟩
  · have herror := hu.succeeds_result hout hlook hlooked (by rw [hshared, htemplate])
      (by rwa [ha.config])
    exact ⟨_, by rw [herror]⟩

/-- A result that is rendered into a new root is shown there, and one that has a denotation by the
templates that can be had can be rendered. -/
theorem Renderer.renderRoot_yields (h : r.cache.Coherent objects known)
    (hs : s.deferreds.Faithful objects) (ht : t.Faithful objects) (exact : Bool) :
    ∃ known', r.Advances objects known known' (r.renderRoot s t).renderer ∧
      (∀ root, (r.renderRoot s t).result = .ok root → ∃ label closing shown f,
        root.Shows objects known' exact true s (r.renderRoot s t).renderer t label closing shown f) ∧
      ((Value.ofResult t).Outstanding s.deferreds → ∀ look : Look, look.Yields objects r.cache →
        (Value.ofResult t).denote look r.config.strictValueCount ≠ none →
        ∃ root, (r.renderRoot s t).result = .ok root) := by
  obtain ⟨known₁, ha, -, hkept⟩ := compile_spec (s := s) (t := t) h ht.1
  cases hresult : (r.compile s t).result with
  | error e =>
    have hwork : r.renderRoot s t = { r.compile s t with result := .error e } := by
      rw [renderRoot]
      simp only [hresult]
    rw [hwork]
    refine ⟨known₁, ha, fun root hroot => (by cases hroot), fun _ look hlook hdenote => ?_⟩
    obtain ⟨found, hfound⟩ := TemplateResult.look_ne_none hdenote
    obtain ⟨shared, hok, -⟩ := hkept look hlook found hfound
    rw [hresult] at hok
    cases hok
  | ok shared =>
    obtain ⟨known₂, ha₂, hshown, hsucceeds⟩ := renderRoot_compiled h hs ht exact hresult
    refine ⟨known₂, ha₂, fun root hroot => (hshown root hroot).2, fun hout look hlook hdenote => ?_⟩
    obtain ⟨found, hlooked⟩ := TemplateResult.look_ne_none hdenote
    obtain ⟨shared', hsame, htemplate⟩ := hkept look hlook found hlooked
    obtain rfl := Except.ok.inj (hresult.symm.trans hsame)
    exact hsucceeds hout look (hlook.of_extends ha.extends_cache) found hlooked htemplate.symm hdenote

/-- A result that is rendered into a new root is shown there, and one that has a denotation by the
templates that are there can be rendered. -/
theorem Renderer.renderRoot_spec (h : r.cache.Coherent objects known)
    (hs : s.deferreds.Faithful objects) (ht : t.Faithful objects) (exact : Bool) :
    ∃ known', r.Advances objects known known' (r.renderRoot s t).renderer ∧
      (∀ root, (r.renderRoot s t).result = .ok root → ∃ label closing shown f,
        root.Shows objects known' exact true s (r.renderRoot s t).renderer t label closing shown f) ∧
      ((Value.ofResult t).Outstanding s.deferreds → ∀ look : Look, look.Within objects r.cache →
        (Value.ofResult t).denote look r.config.strictValueCount ≠ none →
        ∃ root, (r.renderRoot s t).result = .ok root) := by
  obtain ⟨known', ha, hok, hsucceeds⟩ := r.renderRoot_yields h hs ht exact
  exact ⟨known', ha, hok, fun hout look hlook => hsucceeds hout look (hlook.yields h)⟩

/-- A result that is rendered into a root that exists is shown there, and the root stands whatever
happens. -/
theorem RenderRoot.Stands.render (h : root.Stands objects known false label closing shown f)
    (hr : r.cache.Coherent objects known) (hs : s.deferreds.Faithful objects)
    (ht : t.Faithful objects) :
    ∃ known' label' closing' shown' f',
      r.Advances objects known known' (root.render r s t).renderer ∧
      (root.render r s t).result.root.Stands objects known' false label' closing' shown' f' ∧
      ((root.render r s t).result.error = none →
        (root.render r s t).result.root.Shows objects known' false false s
          (root.render r s t).renderer t label' closing' shown' f') := by
  obtain ⟨hstrings, hvalues⟩ := ht
  obtain ⟨known₁, ha, hok, -⟩ := Renderer.compile_spec (s := s.holding root.held) (t := t) hr
    hstrings
  obtain ⟨compiled, hcompiled⟩ : ∃ compiled, compiled = r.compile (s.holding root.held) t :=
    ⟨_, rfl⟩
  rw [← hcompiled] at ha hok
  rw [RenderRoot.render]
  simp only [← hcompiled]
  cases hresult : compiled.result with
  | error e =>
    exact ⟨known₁, label, closing, shown, f, ha, h.mono ha.grown.1, fun he => by cases he⟩
  | ok shared =>
    obtain ⟨hhas, hfound⟩ := hok shared hresult
    by_cases hid : root.template.id = shared.id
    · -- The registry knows both, so a template with the same number is the same.
      have hsame : root.template = shared := known₁.agree _ _ (ha.grown.1 _ h.has) hhas hid
      obtain ⟨known₂, shown', f', hu⟩ := (h.mono ha.grown.1).update ha.coherent hs
        (Value.faithfulAll_iff.1 hvalues) false (by simp)
      simp only [if_pos hid]
      exact ⟨known₂, label, closing, shown', f', ha.trans hu.advances, hu.stands,
        hu.shows_result ha.coherent hstrings (hsame ▸ hfound)⟩
    · obtain ⟨new, label', closing', f₀, hroot, rfl, hstands, -⟩ :=
        Renderer.instantiate_spec hhas false
      obtain ⟨known₂, shown', f', hu⟩ := hstands.update ha.coherent hs
        (Value.faithfulAll_iff.1 hvalues) false (by simp)
      simp only [if_neg hid, hroot]
      exact ⟨known₂, label', closing', shown', f', ha.trans hu.advances, hu.stands,
        hu.shows_result ha.coherent hstrings hfound⟩

end LiveMarkup
