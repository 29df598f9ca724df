import LiveMarkup.Proofs.Render.Root

set_option autoImplicit false

/-!
Hosts. A host holds renderers, compiled templates and roots, and makes calls in any order: with any
root and any renderer, under any settings, whether or not they fail. In every state that it comes
to, the caches agree on what is compiled and every root stands.
-/

namespace LiveMarkup

/-- What a host holds. A renderer has its place as its number. -/
structure Host where
  renderers : List Renderer := []
  templates : List SharedTemplate := []
  roots : List RenderRoot := []

/-- What a host asks for. Renderers, templates and roots are given by their places. -/
inductive Call where
  | newRenderer (config : RenderConfig)
  | purge (renderer : Nat) (alive : StringsId → Bool)
  | clear (renderer : Nat)
  | compile (renderer : Nat) (s : Setting) (t : TemplateResult)
  | html (renderer : Nat) (s : Setting) (t : TemplateResult)
  | instantiate (template : Nat)
  | renderRoot (renderer : Nat) (s : Setting) (t : TemplateResult)
  | render (root renderer : Nat) (s : Setting) (t : TemplateResult)
  | update (root renderer : Nat) (s : Setting) (values : List Value)
  | flush (root renderer : Nat) (s : Setting)

namespace Host

def keep (h : Host) (i : Nat) (r : Renderer) : Host := { h with renderers := h.renderers.set i r }

def keepRoot (h : Host) (j : Nat) (root : RenderRoot) : Host :=
  { h with roots := h.roots.set j root }

/-- Works with a renderer, if there is one. -/
def withRenderer (h : Host) (i : Nat) (f : Renderer → Host) : Host :=
  h.renderers[i]?.elim h f

/-- Works with a root, if there is one. -/
def withRoot (h : Host) (j : Nat) (f : RenderRoot → Host) : Host := h.roots[j]?.elim h f

/-- What a host holds after a call. -/
def call (h : Host) : Call → Host
  | .newRenderer config =>
    { h with renderers := h.renderers ++ [.new h.renderers.length config] }
  | .purge i alive => h.withRenderer i fun r => h.keep i { r with cache := (r.cache.purge alive).1 }
  | .clear i => h.withRenderer i fun r => h.keep i { r with cache := r.cache.clear }
  | .compile i s t => h.withRenderer i fun r =>
    let work := r.compile s t
    { h.keep i work.renderer with templates := h.templates ++ work.result.toOption.toList }
  | .html i s t => h.withRenderer i fun r => h.keep i (r.render s t).renderer
  | .instantiate k =>
    { h with
      roots := h.roots ++ (h.templates[k]?.bind fun t => (Renderer.instantiate t).toOption).toList }
  | .renderRoot i s t => h.withRenderer i fun r =>
    let work := r.renderRoot s t
    { h.keep i work.renderer with roots := h.roots ++ work.result.toOption.toList }
  | .render j i s t => h.withRoot j fun root => h.withRenderer i fun r =>
    let work := root.render r s t
    (h.keep i work.renderer).keepRoot j work.result.root
  | .update j i s values => h.withRoot j fun root => h.withRenderer i fun r =>
    let work := root.update r s values
    (h.keep i work.renderer).keepRoot j work.result.root
  | .flush j i s => h.withRoot j fun root => h.withRenderer i fun r =>
    let work := root.flush r s
    (h.keep i work.renderer).keepRoot j work.result.1.root

def run (h : Host) (calls : List Call) : Host := calls.foldl call h

end Host

/-- A call is given objects that their identities stand for. -/
def Call.Faithful (objects : Objects) : Call → Prop
  | .compile _ s t | .html _ s t | .renderRoot _ s t | .render _ _ s t =>
    s.deferreds.Faithful objects ∧ t.Faithful objects
  | .update _ _ s values => s.deferreds.Faithful objects ∧ ∀ v ∈ values, v.Faithful objects
  | .flush _ _ s => s.deferreds.Faithful objects
  | .newRenderer _ | .purge _ _ | .clear _ | .instantiate _ => True

/-- A host to which calls have led. -/
def Host.Reachable (objects : Objects) (h : Host) : Prop :=
  ∃ calls : List Call, (∀ c ∈ calls, c.Faithful objects) ∧ h = Host.run {} calls

/-- A host that has made a renderer and shows a root with it. -/
theorem Host.reachable_showing {objects : Objects} (config : RenderConfig) {s : Setting}
    {t : TemplateResult} (hs : s.deferreds.Faithful objects) (ht : t.Faithful objects) :
    (Host.run {} [.newRenderer config, .renderRoot 0 s t]).Reachable objects :=
  ⟨[.newRenderer config, .renderRoot 0 s t],
    List.forall_mem_cons.2 ⟨trivial, List.forall_mem_singleton.2 ⟨hs, ht⟩⟩, rfl⟩

/-- The objects of a host that has given out one identity, for the fragments of a template. -/
def Objects.only (strings : TemplateStrings) : Objects where
  strings _ := strings
  fragments _ := ⟨{}, ⟨0⟩⟩
  displays _ := ""
  leaves _ := leaves_empty

theorem Setting.faithful_empty {objects : Objects} : ({} : Setting).deferreds.Faithful objects :=
  fun d value h => by simp [Deferreds.poll] at h

namespace TemplateCache.Coherent

variable {objects : Objects} {known known' : Registry} {c : TemplateCache}

/-- What another cache compiles does not matter. -/
theorem mono (h : c.Coherent objects known) {owner : Nat} (hg : known.Grown known' owner)
    (hne : c.owner ≠ owner) : c.Coherent objects known' where
  identity := h.identity
  content kind key shared hk := hg.1 _ (h.content kind key shared hk)
  origin := h.origin
  serial shared hhas howner :=
    (hg.2 shared hhas).elim (fun hold => h.serial shared hold howner) fun hnew =>
      absurd (howner.symm.trans hnew) hne

theorem new {known : Registry} {number : Nat} (config : RenderConfig)
    (h : ∀ shared, known.has shared → shared.id.cache < number) :
    (Renderer.new number config).cache.Coherent objects known where
  identity kind _ _ hm := by cases kind <;> cases hm
  content kind _ _ hm := by cases kind <;> cases hm
  origin kind _ _ hm := by cases kind <;> cases hm
  serial shared hhas howner := absurd howner (Nat.ne_of_lt (h shared hhas))

end TemplateCache.Coherent

/-- What holds of every host to which calls have led. -/
structure Host.Sound (objects : Objects) (known : Registry) (h : Host) : Prop where
  renderers : ∀ (i : Nat) (r : Renderer), h.renderers[i]? = some r →
    r.cache.owner = i ∧ r.cache.Coherent objects known
  numbered : ∀ shared, known.has shared → shared.id.cache < h.renderers.length
  templates : ∀ shared ∈ h.templates, known.has shared
  roots : ∀ root ∈ h.roots, ∃ label closing shown f,
    root.Stands objects known false label closing shown f
  detects : ∀ r ∈ h.renderers, r.cache.detectDocuments = r.config.detectDocuments

namespace Host.Sound

variable {objects : Objects} {known known' : Registry} {h : Host} {i : Nat} {r r' : Renderer}

theorem empty : Host.Sound objects .empty {} where
  renderers i r hr := by simp at hr
  numbered _ hs := hs.elim
  templates _ ht := by cases ht
  roots _ hroot := by cases hroot
  detects _ hr := by cases hr

theorem newRenderer (hh : Host.Sound objects known h) (config : RenderConfig) :
    Host.Sound objects known (h.call (.newRenderer config)) where
  renderers i r hr := by
    simp only [Host.call, List.getElem?_append] at hr
    split at hr
    · exact hh.renderers i r hr
    · next hge =>
      obtain ⟨hlt, rfl⟩ := List.getElem?_eq_some_iff.1 hr
      rw [List.length_singleton] at hlt
      have hi : i = h.renderers.length := by omega
      rw [List.getElem_singleton]
      exact ⟨hi.symm, .new config hh.numbered⟩
  numbered shared hs := by
    have := hh.numbered shared hs
    simp only [Host.call, List.length_append, List.length_singleton]
    omega
  templates := hh.templates
  roots := hh.roots
  detects r hr := (List.mem_append.1 hr).elim (hh.detects r) fun hr => by
    obtain rfl := List.mem_singleton.1 hr
    rfl

/-- One renderer has gone on, while the others have not. -/
theorem advance (hh : Host.Sound objects known h) (hi : h.renderers[i]? = some r)
    (ha : r.Advances objects known known' r') : Host.Sound objects known' (h.keep i r') where
  renderers j q hq := by
    obtain ⟨howner, -⟩ := hh.renderers i r hi
    rw [Host.keep, List.getElem?_set] at hq
    split at hq
    · next he =>
      subst he
      split at hq
      · obtain rfl := Option.some.inj hq
        exact ⟨ha.extends_cache.owner.trans howner, ha.coherent⟩
      · cases hq
    · next hne =>
      obtain ⟨howner', hcoherent⟩ := hh.renderers j q hq
      exact ⟨howner', hcoherent.mono ha.grown fun he => hne (by rw [← howner, ← howner', he])⟩
  numbered shared hs := by
    rw [Host.keep, List.length_set]
    rcases ha.grown.2 shared hs with hold | hnew
    · exact hh.numbered shared hold
    · rw [hnew, (hh.renderers i r hi).1]
      exact (List.getElem?_eq_some_iff.1 hi).1
  templates shared hs := ha.grown.1 _ (hh.templates shared hs)
  roots root hroot := by
    obtain ⟨label, closing, shown, f, hst⟩ := hh.roots root hroot
    exact ⟨label, closing, shown, f, hst.mono ha.grown.1⟩
  detects q hq := (List.mem_or_eq_of_mem_set hq).elim (hh.detects q) fun he => by
    rw [he, ha.config, ha.extends_cache.detectDocuments]
    exact hh.detects r (List.mem_of_getElem? hi)

/-- A renderer's cache forgets. -/
theorem forget (hh : Host.Sound objects known h) (hi : h.renderers[i]? = some r)
    (howner : r'.cache.owner = r.cache.owner) (hr : r'.cache.Coherent objects known)
    (hdetects : r'.cache.detectDocuments = r'.config.detectDocuments) :
    Host.Sound objects known (h.keep i r') where
  renderers j q hq := by
    rw [Host.keep, List.getElem?_set] at hq
    split at hq
    · next he =>
      subst he
      split at hq
      · obtain rfl := Option.some.inj hq
        exact ⟨howner.trans (hh.renderers i r hi).1, hr⟩
      · cases hq
    · exact hh.renderers j q hq
  numbered shared hs := by
    rw [Host.keep, List.length_set]
    exact hh.numbered shared hs
  templates := hh.templates
  roots := hh.roots
  detects q hq := (List.mem_or_eq_of_mem_set hq).elim (hh.detects q) fun he => he ▸ hdetects

theorem addTemplates (hh : Host.Sound objects known h) {templates : List SharedTemplate}
    (ht : ∀ shared ∈ templates, known.has shared) :
    Host.Sound objects known { h with templates := h.templates ++ templates } :=
  { hh with
    templates := fun shared hs => (List.mem_append.1 hs).elim (hh.templates shared) (ht shared) }

theorem addRoots (hh : Host.Sound objects known h) {roots : List RenderRoot}
    (hroots : ∀ root ∈ roots, ∃ label closing shown f,
      root.Stands objects known false label closing shown f) :
    Host.Sound objects known { h with roots := h.roots ++ roots } :=
  { hh with
    roots := fun root hroot => (List.mem_append.1 hroot).elim (hh.roots root) (hroots root) }

theorem keepRoot (hh : Host.Sound objects known h) (j : Nat) {root : RenderRoot}
    {label closing : Nat → NodeId} {shown : List (Shown NodeId)} {f : List (Branch NodeId)}
    (hst : root.Stands objects known false label closing shown f) :
    Host.Sound objects known (h.keepRoot j root) :=
  { hh with
    roots := fun root' hroot => (List.mem_or_eq_of_mem_set hroot).elim (hh.roots root') fun he =>
      he ▸ ⟨label, closing, shown, f, hst⟩ }

/-- Whatever is done with a renderer, if there is one. -/
theorem withRenderer (hh : Host.Sound objects known h) (i : Nat) {f : Renderer → Host}
    (hf : ∀ r, h.renderers[i]? = some r → ∃ known', Host.Sound objects known' (f r)) :
    ∃ known', Host.Sound objects known' (h.withRenderer i f) := by
  rw [Host.withRenderer]
  cases hi : h.renderers[i]? with
  | none => exact ⟨known, hh⟩
  | some r => exact hf r hi

/-- Whatever is done with a root and a renderer, if there are both. -/
theorem withRoot (hh : Host.Sound objects known h) (j i : Nat) {f : RenderRoot → Renderer → Host}
    (hf : ∀ root r label closing shown g, root.Stands objects known false label closing shown g →
      h.renderers[i]? = some r → ∃ known', Host.Sound objects known' (f root r)) :
    ∃ known', Host.Sound objects known' (h.withRoot j fun root => h.withRenderer i (f root)) := by
  rw [Host.withRoot]
  cases hj : h.roots[j]? with
  | none => exact ⟨known, hh⟩
  | some root =>
    obtain ⟨label, closing, shown, g, hst⟩ := hh.roots root (List.mem_of_getElem? hj)
    exact hh.withRenderer i fun r => hf root r label closing shown g hst

/-- Whatever a host asks for, it is sound afterwards. -/
theorem call (hh : Host.Sound objects known h) {c : Call} (hc : c.Faithful objects) :
    ∃ known', Host.Sound objects known' (h.call c) := by
  cases c with
  | newRenderer config => exact ⟨known, hh.newRenderer config⟩
  | purge i alive =>
    exact hh.withRenderer i fun r hi =>
      ⟨known, hh.forget hi rfl ((hh.renderers i r hi).2.purge alive)
        (hh.detects r (List.mem_of_getElem? hi))⟩
  | clear i =>
    exact hh.withRenderer i fun r hi =>
      ⟨known, hh.forget hi rfl (hh.renderers i r hi).2.clear
        (hh.detects r (List.mem_of_getElem? hi))⟩
  | compile i s t =>
    refine hh.withRenderer i fun r hi => ?_
    obtain ⟨known', ha, hok, -⟩ := Renderer.compile_spec (s := s) (hh.renderers i r hi).2 hc.2.1
    refine ⟨known', (hh.advance hi ha).addTemplates fun shared hs => ?_⟩
    cases hresult : (r.compile s t).result with
    | error e => simp [hresult, Except.toOption] at hs
    | ok found =>
      obtain rfl : shared = found := by simpa [hresult, Except.toOption] using hs
      exact (hok _ hresult).1
  | html i s t =>
    refine hh.withRenderer i fun r hi => ?_
    obtain ⟨known', ha, -⟩ :=
      Renderer.renderRoot_spec (s := s) (hh.renderers i r hi).2 hc.1 hc.2 true
    exact ⟨known', hh.advance hi ha⟩
  | instantiate k =>
    refine ⟨known, hh.addRoots fun root hroot => ?_⟩
    cases hk : h.templates[k]? with
    | none => simp [hk] at hroot
    | some shared =>
      obtain ⟨new, label, closing, f, hnew, -, hst, -⟩ :=
        Renderer.instantiate_spec (hh.templates shared (List.mem_of_getElem? hk)) false
      obtain rfl : root = new := by simpa [hk, hnew, Except.toOption] using hroot
      exact ⟨label, closing, _, f, hst⟩
  | renderRoot i s t =>
    refine hh.withRenderer i fun r hi => ?_
    obtain ⟨known', ha, hok, -⟩ :=
      Renderer.renderRoot_spec (s := s) (hh.renderers i r hi).2 hc.1 hc.2 false
    refine ⟨known', (hh.advance hi ha).addRoots fun root hroot => ?_⟩
    cases hresult : (r.renderRoot s t).result with
    | error e => simp [hresult, Except.toOption] at hroot
    | ok new =>
      obtain rfl : root = new := by simpa [hresult, Except.toOption] using hroot
      obtain ⟨label, closing, shown, f, hshows⟩ := hok _ hresult
      exact ⟨label, closing, shown, f, hshows.stands⟩
  | render j i s t =>
    refine hh.withRoot j i fun root r label closing shown g hst hi => ?_
    obtain ⟨known', label', closing', shown', g', ha, hst', -⟩ :=
      hst.render (hh.renderers i r hi).2 hc.1 hc.2
    exact ⟨known', (hh.advance hi ha).keepRoot j hst'⟩
  | update j i s values =>
    refine hh.withRoot j i fun root r label closing shown g hst hi => ?_
    obtain ⟨known', shown', g', hu⟩ :=
      hst.update (hh.renderers i r hi).2 hc.1 hc.2 false (by simp)
    exact ⟨known', (hh.advance hi hu.advances).keepRoot j hu.stands⟩
  | flush j i s =>
    refine hh.withRoot j i fun root r label closing shown g hst hi => ?_
    obtain ⟨known', shown', g', ha, hst'⟩ := hst.flush (hh.renderers i r hi).2 hc
    exact ⟨known', (hh.advance hi ha).keepRoot j hst'⟩

theorem run (hh : Host.Sound objects known h) {calls : List Call}
    (hc : ∀ c ∈ calls, c.Faithful objects) :
    ∃ known', Host.Sound objects known' (h.run calls) := by
  induction calls generalizing h known with
  | nil => exact ⟨known, hh⟩
  | cons c calls ih =>
    obtain ⟨known', hh'⟩ := hh.call (hc c List.mem_cons_self)
    exact ih hh' fun d hd => hc d (List.mem_cons_of_mem _ hd)

end Host.Sound

theorem Host.Reachable.sound {objects : Objects} {h : Host} (hh : h.Reachable objects) :
    ∃ known, Host.Sound objects known h := by
  obtain ⟨calls, hc, rfl⟩ := hh
  exact Host.Sound.empty.run hc

end LiveMarkup
