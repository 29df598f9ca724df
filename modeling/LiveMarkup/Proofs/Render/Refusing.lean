import LiveMarkup.Proofs.Render.Rerendering
import LiveMarkup.Proofs.Template.History

set_option autoImplicit false

/-!
Renders that go wrong before any value is applied. Markup that does not parse is met before the root
is touched. The number of the values is met after it: a root that shows the same template is left as
it is, but one that shows another template has already given way to a copy without values.
-/

namespace LiveMarkup

variable {objects : Objects} {known : Registry} {s s' : Setting} {r : Renderer} {root : RenderRoot}
  {t : TemplateResult} {shared : SharedTemplate} {values : List Value}

theorem Except.error_of_toOption {ε α : Type} {e : Except ε α} (h : e.toOption = none) :
    ∃ error, e = .error error := by
  cases e with
  | error error => exact ⟨error, rfl⟩
  | ok a => cases h

/-- A renderer has no template for a result and finds errors in its markup. -/
def Renderer.Unparsed (r : Renderer) (t : TemplateResult) (errors : List Markup.SyntaxError) :
    Prop :=
  r.cache.get? t.strings t.kind = none ∧
    (Template.compile t.strings t.kind r.config.detectDocuments).outcome = .error errors

/-- Compiling goes wrong by the markup of the result and by nothing else, whatever else exists. -/
theorem Renderer.compile_error_iff (hdetect : r.cache.detectDocuments = r.config.detectDocuments)
    {e : RenderError} :
    (r.compile s t).result = .error e ↔ ∃ errors, e = .parse errors ∧ r.Unparsed t errors := by
  simp only [compile, Unparsed, ← hdetect]
  cases r.cache.response
    ((s.holders ++ ⟨[t.strings.identity], t.values⟩).holdsStrings s.deferreds) t.strings t.kind with
  | hit found hfound houtcome =>
    rw [houtcome, hfound]
    simp [Except.mapError]
  | compiled template hmissing hcompile houtcome =>
    rw [houtcome, hcompile]
    simp [Except.mapError]
  | failed errors hmissing hcompile houtcome =>
    rw [houtcome, hmissing, hcompile]
    simp only [Except.mapError, Except.error.injEq, true_and]
    exact ⟨fun he => ⟨errors, he.symm, rfl⟩, by rintro ⟨_, rfl, rfl⟩; rfl⟩

namespace RenderRoot

/-- An update with the wrong number of values does nothing, where the number matters. -/
theorem update_miscounted (hstrict : r.config.strictValueCount = true)
    (hcount : root.template.template.valueCount ≠ values.length) :
    (root.update r s values).result =
      ⟨root, some (.valueCount root.template.template.valueCount values.length)⟩ := by
  simp only [update, Part.update, Patch.update]
  rw [if_pos ⟨hcount, hstrict⟩]
  rfl

/-- A root stays as it is if there is no template for what it is to show. -/
theorem render_uncompiled {e : RenderError}
    (he : (r.compile (s.holding root.held) t).result = .error e) :
    (root.render r s t).result = ⟨root, some e⟩ := by
  simp only [render, he]

/-- The same template: a render is an update. -/
theorem render_same (hok : (r.compile (s.holding root.held) t).result = .ok shared)
    (hid : root.template.id = shared.id) :
    (root.render r s t).result =
      (root.update (r.compile (s.holding root.held) t).renderer s t.values).result := by
  simp only [render, hok, if_pos hid]

/-- Another template: a render is an update of a copy that stands in the root's place. -/
theorem render_other {fresh : RenderRoot}
    (hok : (r.compile (s.holding root.held) t).result = .ok shared)
    (hid : root.template.id ≠ shared.id) (hfresh : Renderer.instantiate shared = .ok fresh) :
    (root.render r s t).result =
      (fresh.update (r.compile (s.holding root.held) t).renderer s t.values).result := by
  simp only [render, hok, if_neg hid, hfresh]

end RenderRoot

/-- A root to which calls have led is left as it is by a result whose markup does not parse. Where
the number of values matters and is wrong, a root that shows the same template is left as it is too,
but one that shows another template is replaced with a copy without values. -/
theorem Host.Reachable.render_refused {h : Host} (hh : h.Reachable objects) (hroot : root ∈ h.roots)
    (hr : r ∈ h.renderers) (ht : t.Faithful objects) :
    (∀ errors, r.Unparsed t errors →
      (root.render r s t).result = ⟨root, some (.parse errors)⟩) ∧
    (r.config.strictValueCount = true → ∀ shared,
      (r.compile (s.holding root.held) t).result = .ok shared →
      shared.template.valueCount ≠ t.values.length →
      (root.render r s t).result.error =
          some (.valueCount shared.template.valueCount t.values.length) ∧
        ((root.render r s t).result.root = root ↔ root.template.id = shared.id) ∧
        (root.template.id ≠ shared.id →
          Renderer.instantiate shared = .ok (root.render r s t).result.root)) := by
  obtain ⟨known, hsound⟩ := hh.sound
  obtain ⟨i, hi⟩ := List.getElem?_of_mem hr
  obtain ⟨label, closing, shown, f, hst⟩ := hsound.roots root hroot
  constructor
  · intro errors herrors
    exact RenderRoot.render_uncompiled
      ((Renderer.compile_error_iff (hsound.detects r hr)).2 ⟨errors, rfl, herrors⟩)
  intro hstrict shared hok hcount
  obtain ⟨known', ha, hhas, -⟩ :=
    Renderer.compile_spec (s := s.holding root.held) (hsound.renderers i r hi).2 ht.1
  obtain ⟨compiled, hcompiled⟩ : ∃ compiled, compiled = r.compile (s.holding root.held) t :=
    ⟨_, rfl⟩
  rw [← hcompiled] at ha hhas hok
  have hstrict' : compiled.renderer.config.strictValueCount = true := by rw [ha.config, hstrict]
  by_cases hid : root.template.id = shared.id
  · -- Templates with one identity are one template, so the count is that of the root's own.
    obtain rfl := known'.agree _ _ (ha.grown.1 _ hst.has) (hhas shared hok).1 hid
    rw [RenderRoot.render_same (hcompiled ▸ hok) rfl, ← hcompiled,
      RenderRoot.update_miscounted hstrict' hcount]
    exact ⟨rfl, iff_of_true rfl rfl, fun hne => absurd rfl hne⟩
  · obtain ⟨fresh, -, -, -, hfresh, rfl, -⟩ :=
      @Renderer.instantiate_spec objects _ _ (hhas shared hok).1 false
    rw [RenderRoot.render_other (hcompiled ▸ hok) hid hfresh, ← hcompiled,
      RenderRoot.update_miscounted hstrict' hcount]
    exact ⟨rfl, iff_of_false (fun he => hid (congrArg (·.template.id) he).symm) hid,
      fun _ => hfresh⟩

/-- A word in bold. -/
def boldface (values : List Value) : TemplateResult :=
  ⟨.ofFragments ⟨1⟩ ["<b>", "</b>"], values, .html⟩

/-- A start tag that does not end. -/
def halfTag : TemplateResult := ⟨.ofFragments ⟨2⟩ ["<b"], [], .html⟩

/-- The objects of a host that has given out the identities of these. -/
def Objects.few : Objects :=
  { Objects.only (paragraph []).strings with
    strings
      | ⟨0⟩ => (paragraph []).strings
      | ⟨1⟩ => (boldface []).strings
      | ⟨_⟩ => halfTag.strings }

/-- A host that counts values shows a paragraph in a root. -/
def Host.withCounted : Host :=
  Host.run {} [.newRenderer { strictValueCount := true },
    .renderRoot 0 {} (paragraph [.primitive (.str "note"), .primitive (.str "one")])]

theorem Host.reachable_withCounted : Host.withCounted.Reachable .few :=
  reachable_showing _ Setting.faithful_empty ⟨rfl, trivial, trivial, trivial⟩

theorem Host.withCounted_length :
    0 < Host.withCounted.roots.length ∧ 0 < Host.withCounted.renderers.length := by
  decide +kernel

/-- A paragraph is to have another class, but its content is missing; markup that does not parse is
to take the paragraph's place. -/
theorem Host.withCounted_render_refused :
    ∃ root ∈ Host.withCounted.roots, ∃ r ∈ Host.withCounted.renderers,
      let miscounted := (root.render r {} (paragraph [.primitive (.str "other")])).result
      (miscounted.error = some (.valueCount 2 1) ∧ miscounted.root = root) ∧
        ∃ errors, (root.render r {} halfTag).result = ⟨root, some (.parse errors)⟩ := by
  obtain ⟨hroots, hrenderers⟩ := Host.withCounted_length
  have hstrict : Host.withCounted.renderers[0].config.strictValueCount = true := by
    decide +kernel +revert
  have hcompiled : ((Host.withCounted.renderers[0].compile
      (({} : Setting).holding Host.withCounted.roots[0].held)
      (paragraph [.primitive (.str "other")])).result.toOption.map fun shared =>
        (shared.id, shared.template.valueCount)) =
      some (Host.withCounted.roots[0].template.id, 2) := by
    decide +kernel +revert
  have hmissing :
      (Host.withCounted.renderers[0].cache.get? halfTag.strings halfTag.kind).isNone := by
    decide +kernel +revert
  have hunclosed : (Template.compile halfTag.strings halfTag.kind
      Host.withCounted.renderers[0].config.detectDocuments).outcome.toOption.isNone := by
    decide +kernel +revert
  obtain ⟨shared, hshared, heq⟩ := Option.map_eq_some_iff.1 hcompiled
  obtain ⟨hid, hcount⟩ : shared.id = _ ∧ shared.template.valueCount = 2 := Prod.ext_iff.1 heq
  obtain ⟨errors, herrors⟩ := Except.error_of_toOption (Option.isNone_iff_eq_none.1 hunclosed)
  obtain ⟨-, hcounted⟩ := Host.Reachable.render_refused (s := {})
    (t := paragraph [.primitive (.str "other")]) Host.reachable_withCounted
    (List.getElem_mem hroots) (List.getElem_mem hrenderers) ⟨rfl, trivial, trivial⟩
  obtain ⟨herror, hroot, -⟩ := hcounted hstrict shared (Except.ok_of_toOption hshared)
    (by rw [hcount]; decide)
  obtain ⟨hunparsed, -⟩ := Host.Reachable.render_refused (s := {}) (t := halfTag)
    Host.reachable_withCounted (List.getElem_mem hroots) (List.getElem_mem hrenderers)
    ⟨rfl, trivial⟩
  exact ⟨_, List.getElem_mem hroots, _, List.getElem_mem hrenderers,
    ⟨by rw [herror, hcount]; rfl, hroot.2 hid.symm⟩, errors,
    hunparsed errors ⟨Option.isNone_iff_eq_none.1 hmissing, herrors⟩⟩

/-- A word in bold without its value is refused, and yet the paragraph is gone. -/
theorem Host.withCounted_gone :
    Host.withCounted.Reachable .few ∧ (boldface []).Faithful .few ∧
      ∃ root ∈ Host.withCounted.roots, ∃ r ∈ Host.withCounted.renderers,
        r.config.strictValueCount = true ∧
        (root.render r {} (boldface [])).result.error = some (.valueCount 1 0) ∧
        root.toHtml {} = "<p class=\"note\">one</p>" ∧
        (root.render r {} (boldface [])).result.root.toHtml {} = "<b></b>" := by
  obtain ⟨hroots, hrenderers⟩ := Host.withCounted_length
  refine ⟨Host.reachable_withCounted, ⟨rfl, trivial⟩, _, List.getElem_mem hroots, _,
    List.getElem_mem hrenderers, ?_⟩
  decide +kernel +revert

end LiveMarkup
