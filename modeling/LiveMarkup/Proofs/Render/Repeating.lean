import LiveMarkup.Proofs.Render.Resting

set_option autoImplicit false

/-!
Rendering the same result once more. Between two renders a host may do what it likes, as long as the
renderer is not cleared and nothing is done with the root: the renderer then still finds all
templates that the root shows, and a result that says the same as the one before leaves the root as
it is.
-/

namespace LiveMarkup

open Branch (labelsOfAll)
open LiveMarkup.Tree (Stretch)

/-- From one state of a renderer to a later one in which it finds all that it found. -/
def Renderer.Continues (r r' : Renderer) : Prop := r'.config = r.config ∧ r.cache.Extends r'.cache

/-- A call does not clear renderer `i` and is not about root `j`. -/
def Call.Spares (i j : Nat) : Call → Prop
  | .clear k => k ≠ i
  | .render k _ _ _ | .update k _ _ _ | .flush k _ _ => k ≠ j
  | .newRenderer _ | .purge _ _ | .compile _ _ _ | .html _ _ _ | .instantiate _
  | .renderRoot _ _ _ => True

/-- A call renders a result with renderer `i` without an error: into a new root, which is then root
`j`, or into the root `j` that is there. -/
inductive Host.Renders (h : Host) (i j : Nat) (t : TemplateResult) : Call → Prop
  | anew {s : Setting} {r : Renderer} {root : RenderRoot} (hi : h.renderers[i]? = some r)
      (hok : (r.renderRoot s t).result = .ok root) (hj : h.roots.length = j) :
      Host.Renders h i j t (.renderRoot i s t)
  | again {s : Setting} {r : Renderer} {root : RenderRoot} (hi : h.renderers[i]? = some r)
      (hj : h.roots[j]? = some root) (hok : (root.render r s t).result.error = none) :
      Host.Renders h i j t (.render j i s t)

/-- From one state of a host to a later one, renderer `i` has gone on and root `j` has stayed. -/
structure Host.Keeps (i j : Nat) (h h' : Host) : Prop where
  renderer : ∀ r, h.renderers[i]? = some r → ∃ r', h'.renderers[i]? = some r' ∧ r.Continues r'
  root : ∀ root, h.roots[j]? = some root → h'.roots[j]? = some root

variable {objects : Objects} {known known' : Registry} {exact : Bool} {s : Setting} {r r' : Renderer}
  {root : RenderRoot} {t t' : TemplateResult} {label closing : Nat → NodeId}
  {shown : List (Shown NodeId)} {f : List (Branch NodeId)} {values values' : List Value}
  {look : Look} {h h' h'' : Host} {i j k : Nat} {c : Call}

theorem TemplateCache.extends_purge (c : TemplateCache) (alive : StringsId → Bool) :
    c.Extends (c.purge alive).1 :=
  ⟨rfl, rfl, fun kind key shared hk => by cases kind <;> exact hk⟩

namespace Renderer

theorem Continues.refl (r : Renderer) : r.Continues r := ⟨rfl, .refl _⟩

theorem Continues.trans {r'' : Renderer} (h : r.Continues r') (h' : r'.Continues r'') :
    r.Continues r'' :=
  ⟨h'.1.trans h.1, h.2.trans h'.2⟩

theorem Advances.continues (h : r.Advances objects known known' r') : r.Continues r' :=
  ⟨h.config, h.extends_cache⟩

/-- A renderer compiles nothing anew that it finds. -/
theorem compile_of_found (h : r.cache.Coherent objects known)
    (hs : objects.strings t.strings.identity = t.strings) {shared : SharedTemplate}
    (hfound : r.cache.get? t.strings t.kind = some shared) :
    (r.compile s t).result = .ok shared := by
  obtain ⟨_, ha⟩ := h.answers hs
    ((s.holders ++ ⟨[t.strings.identity], t.values⟩).holdsStrings s.deferreds) t.kind
  simp only [compile, ha.found shared hfound, Except.mapError]

end Renderer

namespace RenderRoot

/-- Values that say what a root carries leave the root as it is. -/
theorem Stands.update_rests (h : root.Stands objects known exact label closing shown f)
    (hcarries : root.Carries look r.config.strictValueCount label closing shown values)
    (hr : r.cache.Coherent objects known') (hlook : look.Within objects r.cache)
    (hrepeats : Value.RepeatsFrom look values values' root.template.template 0)
    (hfaithful : ∀ v ∈ values', v.Faithful objects) :
    (root.update r s values').result = ⟨root, none⟩ := by
  obtain ⟨depth, hdepth⟩ : ∃ depth, depth =
      Patch.depthFor { s with strictValueCount := r.config.strictValueCount }
        (Part.depthOfAll root.parts) (Value.weights values') := ⟨_, rfl⟩
  have hlt : ∀ n ≤ Value.weights values', n < depth := fun n hn => hdepth ▸ Patch.lt_depthFor hn
  have hst : Stretch (root.world r).tree root.root [] ((root.template.template.planting label closing
      shown).forest root.template.template.pattern) [] := h.copied.forest ▸ h.stretch
  have hwithin : (Patch.within depth).Rests objects look r.config.strictValueCount depth :=
    Patch.rests_within depth
  have hrest := Patch.Rests.update hwithin
    (s := { s with strictValueCount := r.config.strictValueCount }) rfl (hlt 0 (Nat.zero_le _)) hr
    hlook (known.sound _ h.has) hst hcarries.1 hcarries.2 hrepeats hfaithful
    fun v hv => .inl (hlt _ (Value.weight_le_weights hv))
  rw [hdepth] at hrest
  rw [RenderRoot.update, Part.update]
  simp only [hrest.error_eq, hrest.part_eq, hrest.tree_eq]
  rfl

/-- A result that says what a root shows leaves the root as it is. -/
theorem Shows.render_rests {blank : Bool} {s₀ : Setting} {known₁ : Registry}
    (h : root.Shows objects known exact blank s₀ r t label closing shown f)
    (hr : r.cache.Coherent objects known) (hcontinues : r.Continues r')
    (hr' : r'.cache.Coherent objects known₁) (ht : t'.Faithful objects)
    (hrepeats : (Value.ofResult t).Repeats r'.cache.get? (Value.ofResult t')) :
    (root.render r' s t').result = ⟨root, none⟩ := by
  obtain ⟨hconfig, hextends⟩ := hcontinues
  obtain ⟨hstrings, hvalues⟩ := ht
  obtain ⟨hsame, hkind, hrepeats⟩ := hrepeats
  have hkept : r'.cache.get? t.strings t.kind = some root.template :=
    hextends.get? hr hr' (hsame ▸ hstrings) h.found
  have hcompiled : (r'.compile (s.holding root.held) t').result = .ok root.template :=
    Renderer.compile_of_found hr' hstrings (hsame ▸ hkind ▸ hkept)
  obtain ⟨known₂, ha, -⟩ := Renderer.compile_spec (s := s.holding root.held) (t := t') hr' hstrings
  have hlook : Look.Within r'.cache.get? objects
      (r'.compile (s.holding root.held) t').renderer.cache :=
    Look.Within.of_extends (fun _ _ _ _ hg => hg) ha.extends_cache hr' ha.coherent
  have hcovers : Look.Covers r'.cache.get? objects r.cache :=
    Look.Covers.of_extends (fun _ _ _ _ hg => hg) hextends hr hr'
  have hcarries := h.carries _ hcovers
  rw [← hconfig, ← ha.config] at hcarries
  have hrest := h.stands.update_rests (s := s) hcarries ha.coherent hlook (hrepeats _ hkept)
    (Value.faithfulAll_iff.1 hvalues)
  rw [render]
  simp only [hcompiled, if_true]
  exact hrest

end RenderRoot

namespace Host

/-- What has a place keeps it when there is more. -/
theorem getElem?_append_of_eq {α : Type} {xs : List α} {n : Nat} {x : α} (hx : xs[n]? = some x)
    (ys : List α) : (xs ++ ys)[n]? = some x :=
  (List.getElem?_append_left (List.getElem?_eq_some_iff.1 hx).1).trans hx

theorem getElem?_keep (hi : h.renderers[i]? = some r) (r' : Renderer) :
    (h.keep i r').renderers[i]? = some r' :=
  List.getElem?_set_self (List.getElem?_eq_some_iff.1 hi).1

theorem getElem?_keepRoot (hj : h.roots[j]? = some root) (root' : RenderRoot) :
    (h.keepRoot j root').roots[j]? = some root' :=
  List.getElem?_set_self (List.getElem?_eq_some_iff.1 hj).1

namespace Keeps

theorem refl (i j : Nat) (h : Host) : Keeps i j h h :=
  ⟨fun r hr => ⟨r, hr, .refl r⟩, fun _ hroot => hroot⟩

theorem trans (h₁ : Keeps i j h h') (h₂ : Keeps i j h' h'') : Keeps i j h h'' where
  renderer r hr := by
    obtain ⟨r', hr', hc⟩ := h₁.renderer r hr
    obtain ⟨r'', hr'', hc'⟩ := h₂.renderer r' hr'
    exact ⟨r'', hr'', hc.trans hc'⟩
  root root hroot := h₂.root root (h₁.root root hroot)

/-- Some renderer has gone on, or one that is not renderer `i` has changed. -/
theorem keep {r : Renderer} (hk : h.renderers[k]? = some r) (hc : k = i → r.Continues r') :
    Keeps i j h (h.keep k r') where
  renderer q hq := by
    by_cases he : k = i
    · subst he
      obtain rfl := Option.some.inj (hq.symm.trans hk)
      exact ⟨r', getElem?_keep hk r', hc rfl⟩
    · exact ⟨q, (List.getElem?_set_ne he).trans hq, .refl q⟩
  root _ hroot := hroot

theorem keepRoot (hne : k ≠ j) (root : RenderRoot) : Keeps i j h (h.keepRoot k root) where
  renderer r hr := ⟨r, hr, .refl r⟩
  root _ hroot := (List.getElem?_set_ne hne).trans hroot

theorem addTemplates (templates : List SharedTemplate) :
    Keeps i j h { h with templates := h.templates ++ templates } :=
  ⟨fun r hr => ⟨r, hr, .refl r⟩, fun _ hroot => hroot⟩

theorem addRoots (roots : List RenderRoot) : Keeps i j h { h with roots := h.roots ++ roots } :=
  ⟨fun r hr => ⟨r, hr, .refl r⟩, fun _ hroot => getElem?_append_of_eq hroot roots⟩

theorem withRenderer {g : Renderer → Host}
    (hg : ∀ r, h.renderers[k]? = some r → Keeps i j h (g r)) : Keeps i j h (h.withRenderer k g) := by
  rw [Host.withRenderer]
  cases hk : h.renderers[k]? with
  | none => exact .refl i j h
  | some r => exact hg r hk

theorem withRoot {g : RenderRoot → Host}
    (hg : ∀ root, h.roots[k]? = some root → Keeps i j h (g root)) :
    Keeps i j h (h.withRoot k g) := by
  rw [Host.withRoot]
  cases hk : h.roots[k]? with
  | none => exact .refl i j h
  | some root => exact hg root hk

end Keeps

namespace Sound

/-- A call that neither clears a renderer nor is about a root keeps both. -/
theorem keeps_call (hh : Host.Sound objects known h) (hc : c.Faithful objects) (hs : c.Spares i j) :
    Keeps i j h (h.call c) := by
  cases c with
  | newRenderer config =>
    exact ⟨fun r hr => ⟨r, getElem?_append_of_eq hr _, .refl r⟩, fun _ hroot => hroot⟩
  | purge k alive =>
    exact .withRenderer fun r hk => .keep hk fun _ => ⟨rfl, r.cache.extends_purge alive⟩
  | clear k => exact .withRenderer fun r hk => .keep hk fun he => absurd he hs
  | compile k s t =>
    refine .withRenderer fun r hk => ?_
    obtain ⟨_, ha, -⟩ := Renderer.compile_spec (s := s) (hh.renderers k r hk).2 hc.2.1
    exact (Keeps.keep hk fun _ => ha.continues).trans (.addTemplates _)
  | html k s t =>
    refine .withRenderer fun r hk => ?_
    obtain ⟨_, ha, -⟩ := Renderer.renderRoot_spec (s := s) (hh.renderers k r hk).2 hc.1 hc.2 true
    exact .keep hk fun _ => ha.continues
  | instantiate k => exact .addRoots _
  | renderRoot k s t =>
    refine .withRenderer fun r hk => ?_
    obtain ⟨_, ha, -⟩ := Renderer.renderRoot_spec (s := s) (hh.renderers k r hk).2 hc.1 hc.2 false
    exact (Keeps.keep hk fun _ => ha.continues).trans (.addRoots _)
  | render l k s t =>
    refine .withRoot fun root hl => .withRenderer fun r hk => ?_
    obtain ⟨_, _, _, _, hst⟩ := hh.roots root (List.mem_of_getElem? hl)
    obtain ⟨_, _, _, _, _, ha, -⟩ := hst.render (s := s) (hh.renderers k r hk).2 hc.1 hc.2
    exact (Keeps.keep hk fun _ => ha.continues).trans (.keepRoot hs _)
  | update l k s values =>
    refine .withRoot fun root hl => .withRenderer fun r hk => ?_
    obtain ⟨_, _, _, _, hst⟩ := hh.roots root (List.mem_of_getElem? hl)
    obtain ⟨_, _, _, hu⟩ := hst.update (s := s) (hh.renderers k r hk).2 hc.1 hc.2 false (by simp)
    exact (Keeps.keep hk fun _ => hu.advances.continues).trans (.keepRoot hs _)
  | flush l k s =>
    refine .withRoot fun root hl => .withRenderer fun r hk => ?_
    obtain ⟨_, _, _, _, hst⟩ := hh.roots root (List.mem_of_getElem? hl)
    obtain ⟨_, _, _, ha, -⟩ := hst.flush (s := s) (hh.renderers k r hk).2 hc
    exact (Keeps.keep hk fun _ => ha.continues).trans (.keepRoot hs _)

theorem keeps_run (hh : Host.Sound objects known h) {calls : List Call}
    (hc : ∀ c ∈ calls, c.Faithful objects ∧ c.Spares i j) : Keeps i j h (h.run calls) := by
  induction calls generalizing h known with
  | nil => exact .refl i j h
  | cons c calls ih =>
    obtain ⟨hfaithful, hspares⟩ := hc c List.mem_cons_self
    obtain ⟨known', hh'⟩ := hh.call hfaithful
    exact (hh.keeps_call hfaithful hspares).trans
      (ih hh' fun d hd => hc d (List.mem_cons_of_mem _ hd))

/-- After a result was rendered, its root shows it by what the renderer keeps. -/
theorem renders (hh : Host.Sound objects known h) (hc : c.Faithful objects)
    (hrenders : h.Renders i j t c) :
    ∃ known' root r blank s label closing shown f, (h.call c).roots[j]? = some root ∧
      (h.call c).renderers[i]? = some r ∧ r.cache.Coherent objects known' ∧
      root.Shows objects known' false blank s r t label closing shown f := by
  cases hrenders with
  | anew hi hok hj =>
    obtain ⟨known', ha, hshows, -⟩ :=
      Renderer.renderRoot_spec (hh.renderers i _ hi).2 hc.1 hc.2 false
    obtain ⟨label, closing, shown, f, hshows⟩ := hshows _ hok
    refine ⟨known', _, _, true, _, label, closing, shown, f, ?_, ?_, ha.coherent, hshows⟩
    · simp [Host.call, Host.withRenderer, hi, hok, Except.toOption, Host.keep, ← hj]
    · rw [Host.call, Host.withRenderer, hi]
      exact getElem?_keep hi _
  | again hi hj hok =>
    obtain ⟨_, _, _, _, hst⟩ := hh.roots _ (List.mem_of_getElem? hj)
    obtain ⟨known', label, closing, shown, f, ha, -, hshows⟩ :=
      hst.render (hh.renderers i _ hi).2 hc.1 hc.2
    refine ⟨known', _, _, false, _, label, closing, shown, f, ?_, ?_, ha.coherent, hshows hok⟩
    · rw [Host.call, Host.withRoot, hj, Option.elim_some, Host.withRenderer, hi]
      exact getElem?_keepRoot hj _
    · rw [Host.call, Host.withRoot, hj, Option.elim_some, Host.withRenderer, hi]
      exact getElem?_keep hi _

end Sound

/-- A result that was rendered is rendered once more, perhaps after other calls: the root is what
it was. -/
theorem Reachable.rerender_rests (hh : h.Reachable objects) (hc : c.Faithful objects)
    (hrenders : h.Renders i j t c) (calls : List Call)
    (hcalls : ∀ d ∈ calls, d.Faithful objects ∧ d.Spares i j) :
    ∃ root r, (h.call c).roots[j]? = some root ∧
      ((h.call c).run calls).roots[j]? = some root ∧
      ((h.call c).run calls).renderers[i]? = some r ∧
      ∀ (s : Setting) (t' : TemplateResult), t'.Faithful objects →
        (Value.ofResult t).Repeats r.cache.get? (Value.ofResult t') →
        (root.render r s t').result = ⟨root, none⟩ := by
  obtain ⟨known, hsound⟩ := hh.sound
  obtain ⟨known₀, hsound₀⟩ := hsound.call hc
  obtain ⟨known₁, root, r, blank, s₀, label, closing, shown, f, hroot, hr, hcoherent, hshows⟩ :=
    hsound.renders hc hrenders
  have hkeeps := hsound₀.keeps_run hcalls
  obtain ⟨known₂, hsound₂⟩ := hsound₀.run fun d hd => (hcalls d hd).1
  obtain ⟨r', hr', hcontinues⟩ := hkeeps.renderer r hr
  exact ⟨root, r', hroot, hkeeps.root root hroot, hr', fun s t' ht hrepeats =>
    hshows.render_rests hcoherent hcontinues (hsound₂.renderers i r' hr').2 ht hrepeats⟩

/-- A paragraph with a list. -/
def listing (x : Decimal.Binary64) : TemplateResult :=
  paragraph [.primitive (.str "note"), .iterable [.primitive (.number x), .absent]]

theorem listing_faithful (x : Decimal.Binary64) :
    (listing x).Faithful (.only (paragraph []).strings) :=
  ⟨rfl, trivial, ⟨trivial, trivial, trivial⟩, trivial⟩

/-- A host that shows a paragraph with a list, and renders another paragraph after that. -/
def withListing : Host :=
  run {} [.newRenderer {}, .renderRoot 0 {} (listing ⟨0⟩), .html 0 {} (paragraph [.absent, .absent])]

/-- The paragraph with the list is rendered once more, with minus zero for zero. -/
theorem withListing_rerender_rests :
    ∃ root ∈ withListing.roots, ∃ r ∈ withListing.renderers,
      (root.render r {} (listing ⟨0x8000000000000000⟩)).result = ⟨root, none⟩ := by
  obtain ⟨first, hfirst⟩ : ∃ first,
      ((Renderer.new 0 {}).renderRoot {} (listing ⟨0⟩)).result.toOption = some first :=
    Option.isSome_iff_exists.1 (by decide +kernel)
  have hhtml : (paragraph [.absent, .absent]).Faithful (.only (paragraph []).strings) :=
    ⟨rfl, trivial, trivial, trivial⟩
  obtain ⟨root, r, -, hroot, hr, hrests⟩ := Reachable.rerender_rests
    (h := run {} [.newRenderer {}]) (c := .renderRoot 0 {} (listing ⟨0⟩)) (j := 0)
    ⟨[.newRenderer {}], fun c hc => List.mem_singleton.1 hc ▸ trivial, rfl⟩
    ⟨Setting.faithful_empty, listing_faithful _⟩ (.anew rfl (Except.ok_of_toOption hfirst) rfl)
    [.html 0 {} (paragraph [.absent, .absent])]
    fun d hd => List.mem_singleton.1 hd ▸ ⟨⟨Setting.faithful_empty, hhtml⟩, trivial⟩
  -- A list is no value for an attribute: the template writes the first value only.
  have hwrites : (withListing.renderers[0]?.bind
      (·.cache.get? (paragraph []).strings .html)).all (fun t => ¬t.template.WritesAt 1) = true := by
    decide +kernel
  have hlist : (Value.ofResult (listing ⟨0⟩)).Repeats r.cache.get?
      (.ofResult (listing ⟨0x8000000000000000⟩)) := by
    refine ⟨rfl, rfl, fun found hfound => ⟨fun _ => rfl, fun _ => rfl,
      fun _ => ⟨rfl, trivial, trivial⟩, fun hw => ?_, trivial⟩⟩
    rw [Option.all_eq_true] at hwrites
    exact absurd hw (of_decide_eq_true (hwrites found (Option.bind_eq_some_iff.2 ⟨r, hr, hfound⟩)))
  exact ⟨root, List.mem_of_getElem? hroot, r, List.mem_of_getElem? hr,
    hrests _ _ (listing_faithful _) hlist⟩

end Host

end LiveMarkup
