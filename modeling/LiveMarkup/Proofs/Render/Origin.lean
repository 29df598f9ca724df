import LiveMarkup.Proofs.Render.Host

set_option autoImplicit false

/-!
Where the templates of a host come from. Every template that a host holds, and every template of a
root, was compiled from fragments, whatever has been forgotten since.
-/

namespace LiveMarkup

/-- What some fragments compile to. -/
def Template.Compiled (t : Template) : Prop :=
  ∃ strings kind detectDocuments, (compile strings kind detectDocuments).outcome = .ok t

variable {objects : Objects} {known : Registry} {r : Renderer} {s : Setting} {root : RenderRoot}
  {t : TemplateResult} {shared : SharedTemplate}

theorem TemplateCache.Coherent.exists_compile {c : TemplateCache} (h : c.Coherent objects known)
    {strings : TemplateStrings} (hs : objects.strings strings.identity = strings)
    {kind : TemplateKind} (hg : c.get? strings kind = some shared) :
    ∃ strings detectDocuments,
      (Template.compile strings kind detectDocuments).outcome = .ok shared.template := by
  rw [h.get? hs] at hg
  obtain ⟨id, -, hcompile⟩ := h.origin kind _ shared hg
  exact ⟨_, _, hcompile⟩

/-- What a renderer answers was compiled as a template of the kind that was asked for. -/
theorem Renderer.exists_compile (h : r.cache.Coherent objects known)
    (hs : objects.strings t.strings.identity = t.strings)
    (hok : (r.compile s t).result = .ok shared) : ∃ strings detectDocuments,
      (Template.compile strings t.kind detectDocuments).outcome = .ok shared.template := by
  obtain ⟨known', ha, hfound, -⟩ := compile_spec (s := s) h hs
  exact ha.coherent.exists_compile hs (hfound shared hok).2

theorem Renderer.compiled_of_compile (h : r.cache.Coherent objects known)
    (hs : objects.strings t.strings.identity = t.strings)
    (hok : (r.compile s t).result = .ok shared) : shared.template.Compiled := by
  obtain ⟨strings, detectDocuments, hcompile⟩ := exists_compile h hs hok
  exact ⟨_, _, _, hcompile⟩

theorem Renderer.template_of_instantiate (h : instantiate shared = .ok root) :
    root.template = shared := by
  unfold instantiate at h
  split at h
  · obtain rfl := Except.ok.inj h
    rfl
  · cases h

theorem Renderer.compiled_of_renderRoot (h : r.cache.Coherent objects known)
    (hs : objects.strings t.strings.identity = t.strings)
    (hok : (r.renderRoot s t).result = .ok root) : root.template.template.Compiled := by
  unfold renderRoot at hok
  simp only at hok
  split at hok
  · cases hok
  rename_i shared hresult
  split at hok
  · cases hok
  rename_i fresh hfresh
  have htemplate := template_of_instantiate hfresh
  simp only at hok
  split at hok
  · cases hok
  · obtain rfl := Except.ok.inj hok
    exact htemplate ▸ compiled_of_compile h hs hresult

theorem RenderRoot.compiled_render (h : r.cache.Coherent objects known)
    (hs : objects.strings t.strings.identity = t.strings)
    (hroot : root.template.template.Compiled) :
    (root.render r s t).result.root.template.template.Compiled := by
  unfold render
  simp only
  split
  · exact hroot
  rename_i shared hresult
  split
  · exact hroot
  split
  · exact hroot
  rename_i fresh hfresh
  have htemplate := Renderer.template_of_instantiate hfresh
  exact htemplate ▸ Renderer.compiled_of_compile h hs hresult

/-- The templates that a host holds, and those of its roots, were compiled. -/
structure Host.Compiled (h : Host) : Prop where
  templates : ∀ shared ∈ h.templates, shared.template.Compiled
  roots : ∀ root ∈ h.roots, root.template.template.Compiled

namespace Host.Compiled

variable {h : Host}

theorem empty : Host.Compiled {} := ⟨by simp, by simp⟩

theorem keep (hh : h.Compiled) (i : Nat) (r : Renderer) : (h.keep i r).Compiled :=
  ⟨hh.templates, hh.roots⟩

theorem keepRoot (hh : h.Compiled) (j : Nat) (hroot : root.template.template.Compiled) :
    (h.keepRoot j root).Compiled :=
  ⟨hh.templates, fun root' hr =>
    (List.mem_or_eq_of_mem_set hr).elim (hh.roots root') fun he => he ▸ hroot⟩

theorem addTemplates (hh : h.Compiled) {templates : List SharedTemplate}
    (ht : ∀ shared ∈ templates, shared.template.Compiled) :
    Host.Compiled { h with templates := h.templates ++ templates } :=
  ⟨fun shared hs => (List.mem_append.1 hs).elim (hh.templates shared) (ht shared), hh.roots⟩

theorem addRoots (hh : h.Compiled) {roots : List RenderRoot}
    (hroots : ∀ root ∈ roots, root.template.template.Compiled) :
    Host.Compiled { h with roots := h.roots ++ roots } :=
  ⟨hh.templates, fun root hr => (List.mem_append.1 hr).elim (hh.roots root) (hroots root)⟩

theorem withRenderer (hh : h.Compiled) {i : Nat} {f : Renderer → Host}
    (hf : ∀ r, h.renderers[i]? = some r → (f r).Compiled) : (h.withRenderer i f).Compiled := by
  rw [Host.withRenderer]
  cases hi : h.renderers[i]? with
  | none => exact hh
  | some r => exact hf r hi

theorem withRoot (hh : h.Compiled) {j : Nat} {f : RenderRoot → Host}
    (hf : ∀ root, root.template.template.Compiled → (f root).Compiled) :
    (h.withRoot j f).Compiled := by
  rw [Host.withRoot]
  cases hj : h.roots[j]? with
  | none => exact hh
  | some root => exact hf root (hh.roots root (List.mem_of_getElem? hj))

/-- Whatever a host asks for, what it gets was compiled. -/
theorem call (hh : h.Compiled) (hsound : h.Sound objects known) {c : Call}
    (hc : c.Faithful objects) : (h.call c).Compiled := by
  cases c with
  | newRenderer config => exact ⟨hh.templates, hh.roots⟩
  | purge i alive => exact hh.withRenderer fun r _ => hh.keep i _
  | clear i => exact hh.withRenderer fun r _ => hh.keep i _
  | html i s t => exact hh.withRenderer fun r _ => hh.keep i _
  | compile i s t =>
    refine hh.withRenderer fun r hi => (hh.keep i _).addTemplates fun shared hs => ?_
    exact Renderer.compiled_of_compile (hsound.renderers i r hi).2 hc.2.1
      (Except.ok_of_toOption (Option.mem_toList.1 hs))
  | instantiate k =>
    refine hh.addRoots fun root hroot => ?_
    obtain ⟨shared, hk, hroot⟩ := Option.bind_eq_some_iff.1 (Option.mem_toList.1 hroot)
    rw [Renderer.template_of_instantiate (Except.ok_of_toOption hroot)]
    exact hh.templates shared (List.mem_of_getElem? hk)
  | renderRoot i s t =>
    refine hh.withRenderer fun r hi => (hh.keep i _).addRoots fun root hroot => ?_
    exact Renderer.compiled_of_renderRoot (hsound.renderers i r hi).2 hc.2.1
      (Except.ok_of_toOption (Option.mem_toList.1 hroot))
  | render j i s t =>
    refine hh.withRoot fun root hroot => hh.withRenderer fun r hi => (hh.keep i _).keepRoot j ?_
    exact RenderRoot.compiled_render (hsound.renderers i r hi).2 hc.2.1 hroot
  | update j i s values =>
    exact hh.withRoot fun root hroot => hh.withRenderer fun r _ => (hh.keep i _).keepRoot j hroot
  | flush j i s =>
    exact hh.withRoot fun root hroot => hh.withRenderer fun r _ => (hh.keep i _).keepRoot j hroot

theorem run (hh : h.Compiled) (hsound : h.Sound objects known) {calls : List Call}
    (hc : ∀ c ∈ calls, c.Faithful objects) : (h.run calls).Compiled := by
  induction calls generalizing h known with
  | nil => exact hh
  | cons c calls ih =>
    have hfirst := hc c List.mem_cons_self
    obtain ⟨known', hsound'⟩ := hsound.call hfirst
    exact ih (hh.call hsound hfirst) hsound' fun d hd => hc d (List.mem_cons_of_mem _ hd)

end Host.Compiled

/-- The templates of a host to which calls have led were compiled. -/
theorem Host.Reachable.compiled {h : Host} (hh : h.Reachable objects) : h.Compiled := by
  obtain ⟨calls, hc, rfl⟩ := hh
  exact Compiled.empty.run .empty hc

end LiveMarkup
