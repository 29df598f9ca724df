import LiveMarkup.Proofs.Render.Html
import LiveMarkup.Proofs.Template.Recompiling
import LiveMarkup.Proofs.Value.Leading
import LiveMarkup.Proofs.Value.Replacing
import Mathlib

set_option autoImplicit false

/-!
Settling in any order. While a root is shown, the deferred values in it settle one after the other,
and what has settled is applied every now and then. As long as the joined text of fragments tells
which fragments they are, the root comes to one and the same HTML in the end.
-/

namespace LiveMarkup

open Branch (mapAll)

variable {objects : Objects} {known : Registry}

namespace Look

variable {c : TemplateCache} {strings : TemplateStrings} {kind : TemplateKind}
  {detectDocuments : Bool} {template : Template} {found : SharedTemplate}

/-- Templates as their fragments compile, whatever was compiled before. -/
def compiled (detectDocuments : Bool) : Look := fun strings kind =>
  (Template.compile strings kind detectDocuments).outcome.toOption.map (SharedTemplate.mk ⟨0, 0⟩)

theorem compiled_of_ok
    (h : (Template.compile strings kind detectDocuments).outcome = .ok template) :
    compiled detectDocuments strings kind = some ⟨⟨0, 0⟩, template⟩ := by
  rw [compiled, h]
  rfl

theorem ok_of_compiled (h : compiled detectDocuments strings kind = some found) :
    (Template.compile strings kind detectDocuments).outcome = .ok found.template := by
  obtain ⟨template, hok, rfl⟩ := Option.map_eq_some_iff.1 h
  exact Except.ok_of_toOption hok

/-- What a cache keeps is what compiling gives. -/
theorem compiled_agrees (htell : objects.Telling) (hc : c.Coherent objects known)
    (hd : c.detectDocuments = detectDocuments) : (compiled detectDocuments).Agrees objects c := by
  intro strings kind shared hs hget
  rw [hc.get? hs] at hget
  obtain ⟨id, hjoined, hcompile⟩ := hc.origin _ _ _ hget
  have hfragments : strings.fragments = (objects.strings id).fragments := by
    have h := htell strings.identity id (by rw [hs, hjoined])
    rwa [hs] at h
  rw [← Template.compile_congr hfragments, hd] at hcompile
  exact ⟨_, compiled_of_ok hcompile, rfl⟩

/-- What compiling gives is what a cache answers, whether or not it keeps it. -/
theorem compiled_yields (htell : objects.Telling) (hd : c.detectDocuments = detectDocuments) :
    (compiled detectDocuments).Yields objects c := by
  intro strings kind found hs hfound c' known' he hc' alive
  have hd' : c'.detectDocuments = detectDocuments := he.detectDocuments.trans hd
  have hok := ok_of_compiled hfound
  cases c'.response alive strings kind with
  | hit shared hget houtcome =>
    obtain ⟨other, hother, htemplate⟩ := compiled_agrees htell hc' hd' strings kind shared hs hget
    rw [hfound] at hother
    obtain rfl := Option.some.inj hother
    exact ⟨shared, houtcome, htemplate.symm⟩
  | compiled template _ hcompile houtcome =>
    rw [hd', hok] at hcompile
    exact ⟨_, houtcome, (Except.ok.inj hcompile).symm⟩
  | failed errors _ hcompile =>
    rw [hd', hok] at hcompile
    cases hcompile

theorem compiled_lasts (htell : objects.Telling) (hd : c.detectDocuments = detectDocuments) :
    (compiled detectDocuments).Lasts objects c :=
  ⟨fun _ _ he hc => compiled_agrees htell hc (he.detectDocuments.trans hd),
    compiled_yields htell hd⟩

end Look

/-- A value can be rendered alone, by a renderer that has compiled nothing yet. -/
def Value.Renders (objects : Objects) (config : RenderConfig) (v : Value) : Prop :=
  ∃ hole : TemplateStrings, objects.strings hole.identity = hole ∧ hole.fragments = ["", ""] ∧
    ∃ html, ((Renderer.new 0 config).render {} ⟨hole, [v], .html⟩).result = .ok html

/-- The template of two empty fragments is a hole between nodes. -/
theorem Template.parts_of_hole {hole : TemplateStrings} {detectDocuments : Bool}
    {template : Template} (hhole : hole.fragments = ["", ""])
    (hok : (Template.compile hole .html detectDocuments).outcome = .ok template) :
    template.parts = [⟨.node, 1, 0⟩] := by
  have hparts : (Template.compile (.ofFragments ⟨0⟩ ["", ""]) .html
      detectDocuments).outcome.toOption.map Template.parts = some [⟨.node, 1, 0⟩] := by
    cases detectDocuments <;> decide +kernel
  have hcongr : Template.compile hole .html detectDocuments =
      Template.compile (.ofFragments ⟨0⟩ ["", ""]) .html detectDocuments :=
    Template.compile_congr hhole ..
  rw [← hcongr, hok] at hparts
  exact Option.some.inj hparts

/-- What a value shows is there if it can be rendered. -/
theorem Value.Renders.exists_denote {config : RenderConfig} {v : Value} (htell : objects.Telling)
    (h : v.Renders objects config) (hv : v.Faithful objects) (hnil : v.deferreds = []) :
    ∃ bs, v.denote (.compiled config.detectDocuments) config.strictValueCount = some bs := by
  obtain ⟨hole, hs, hhole, html, hok⟩ := h
  obtain ⟨root, hroot, -⟩ := Renderer.render_ok_iff.1 hok
  have hcoherent : (Renderer.new 0 config).cache.Coherent objects .empty :=
    .new config fun _ h => h.elim
  obtain ⟨known, ha, hshown, -⟩ := Renderer.renderRoot_yields (s := {}) (t := ⟨hole, [v], .html⟩)
    hcoherent Setting.faithful_empty ⟨hs, hv, trivial⟩ true
  obtain ⟨_, _, _, _, hshows⟩ := hshown root hroot
  have hlook := Look.compiled_agrees htell ha.coherent ha.extends_cache.detectDocuments
  have hplain : (Value.ofResult ⟨hole, [v], .html⟩).deferreds = [] := by
    rw [ofResult, deferreds, deferredsOfAll, deferredsOfAll, hnil, List.append_nil]
  obtain ⟨read, hforesee, -⟩ := hshows.reads (plain_of_nil hplain) _ .still hlook
    (foreseeable_still _)
  rw [foresee_still, ofResult, denote, Option.bind_eq_some_iff] at hforesee
  obtain ⟨found, hfound, hdenote⟩ := hforesee
  have hparts := Template.parts_of_hole hhole (Look.ok_of_compiled hfound)
  rw [ha.config, Template.denote] at hdenote
  split at hdenote
  · cases hdenote
  · obtain ⟨shown, hshown, -⟩ := Option.map_eq_some_iff.1 hdenote
    rw [hparts, Template.shows] at hshown
    obtain ⟨bs, hbs, -⟩ := Option.bind_eq_some_iff.1 hshown
    exact ⟨bs, hbs⟩

namespace Deferreds

/-- A deferred value is there and has not settled. -/
def Awaits (ds : Deferreds) (d : DeferredId) : Prop := ds.outcomes[d.index]? = some .waiting

theorem Awaits.poll_eq {ds : Deferreds} {d : DeferredId} (h : ds.Awaits d) :
    ds.poll d = .waiting := by
  rw [poll, Array.getD_eq_getD_getElem?, h]
  rfl

theorem Awaits.lt_size {ds : Deferreds} {d : DeferredId} (h : ds.Awaits d) :
    d.index < ds.outcomes.size :=
  (Array.getElem?_eq_some_iff.1 h).1

end Deferreds

/-- A root that is shown by a renderer while deferred values settle. -/
structure Live where
  root : RenderRoot
  renderer : Renderer
  deferreds : Deferreds

/-- What happens while a root is shown. What else exists at a flush may differ each time. -/
inductive LiveStep where
  | settle (d : DeferredId)
  | flush (holders : Holders)

namespace Live

/-- What is there after a step, where `outcome` says how deferred values settle. -/
def step (outcome : DeferredId → Settlement) (l : Live) : LiveStep → Live
  | .settle d => { l with deferreds := l.deferreds.settle d (outcome d) }
  | .flush holders =>
    let work := l.root.flush l.renderer { deferreds := l.deferreds, holders }
    { l with root := work.result.1.root, renderer := work.renderer }

def run (outcome : DeferredId → Settlement) (l : Live) (steps : List LiveStep) : Live :=
  steps.foldl (step outcome) l

variable {outcome : DeferredId → Settlement} {l : Live} {d : DeferredId}

/-- Once it has settled, a deferred value stays as it is. -/
theorem poll_run {steps : List LiveStep} (hd : d.index < l.deferreds.outcomes.size)
    (h : .settle d ∈ steps ∨ l.deferreds.poll d = outcome d) :
    (l.run outcome steps).deferreds.poll d = outcome d := by
  induction steps generalizing l with
  | nil => exact h.resolve_left List.not_mem_nil
  | cons c steps ih =>
    cases c with
    | flush holders => exact ih hd (h.imp_left fun hm => by simpa using hm)
    | settle d' =>
      refine ih (by simpa [step, Deferreds.settle] using hd) ?_
      have hpoll := l.deferreds.poll_settle d' d (outcome d')
      rcases h with hm | hpolled
      · rcases List.mem_cons.1 hm with he | hm
        · obtain rfl := LiveStep.settle.inj he
          exact .inr (hpoll.trans (if_pos ⟨rfl, hd⟩))
        · exact .inl hm
      · refine .inr (hpoll.trans ?_)
        split
        · next he => rw [he.1]
        · exact hpolled

end Live

namespace Forecast

/-- Some of what was expected has been applied. -/
def Remains (left forecast : Forecast) : Prop := ∀ d, left d = .gone ∨ left d = forecast d

variable {left forecast : Forecast} {look : Look} {strict : Bool}
  {outcome poll : DeferredId → Settlement}

theorem Remains.refl (forecast : Forecast) : forecast.Remains forecast := fun _ => .inr rfl

theorem Remains.after (h : left.Remains forecast) (ds : Deferreds) :
    (left.after ds).Remains forecast := by
  intro d
  rw [Forecast.after]
  split
  · exact .inl rfl
  · exact h d

theorem Remains.not_gone (h : left.Remains forecast) {d : DeferredId} (hd : left d ≠ .gone) :
    forecast d ≠ .gone := by
  rwa [← (h d).resolve_left hd]

/-- When everything that is expected has settled and been applied, nothing is expected any more. -/
theorem Remains.final_after (h : left.Remains forecast) {ds : Deferreds}
    (hds : ∀ d, forecast d ≠ .gone → (ds.poll d).isSettled = true) : (left.after ds).Final := by
  intro d bs hd
  rw [Forecast.after] at hd
  split at hd
  · cases hd
  · next hwaiting => exact hwaiting (hds d (h.not_gone (by simp [hd])))

/-- What is left comes to what is expected of it, as far as it has settled. -/
theorem Due.of_remains (h : forecast.Due look strict outcome) (hleft : left.Remains forecast)
    (hpoll : ∀ d, forecast d ≠ .gone → poll d = .waiting ∨ poll d = outcome d) :
    left.Due look strict poll where
  rejected d hd hgone := by
    have hgone' := hleft.not_gone hgone
    rw [(hleft d).resolve_left hgone]
    rcases hpoll d hgone' with hp | hp
    · rw [hd] at hp
      cases hp
    · exact h.rejected d (hp.symm.trans hd) hgone'
  fulfilled d value hd hgone := by
    have hgone' := hleft.not_gone hgone
    rw [(hleft d).resolve_left hgone]
    rcases hpoll d hgone' with hp | hp
    · rw [hd] at hp
      cases hp
    · exact h.fulfilled d value (hp.symm.trans hd) hgone'

end Forecast

/-- What comes of the deferred values that are waited for, by how they settle. -/
def Forecast.ofOutcome (outcome : DeferredId → Settlement) (look : Look) (strict : Bool)
    (waited : List DeferredId) : Forecast := fun d =>
  if d ∈ waited then
    ((outcome d).value?.bind fun value => value.denote look strict).elim .stays .becomes
  else .gone

namespace Forecast

variable {outcome : DeferredId → Settlement} {look : Look} {strict : Bool}
  {waited : List DeferredId} {d : DeferredId}

theorem ofOutcome_ne_gone_iff :
    ofOutcome outcome look strict waited d ≠ .gone ↔ d ∈ waited := by
  rw [ofOutcome]
  split
  · next hd =>
    refine iff_of_true ?_ hd
    cases (outcome d).value?.bind fun value => value.denote look strict <;> nofun
  · next hd => exact iff_of_false (fun h => h rfl) hd

theorem ofOutcome_of_fulfilled {value : Value} {bs : List (Branch NodeKind)} (hd : d ∈ waited)
    (hvalue : outcome d = .fulfilled value) (hdenote : value.denote look strict = some bs) :
    ofOutcome outcome look strict waited d = .becomes bs := by
  rw [ofOutcome, if_pos hd, hvalue, Settlement.value?, Option.bind_some, hdenote, Option.elim_some]

theorem due_ofOutcome (h : ∀ d ∈ waited, ∀ value, outcome d = .fulfilled value →
      value.deferreds = [] ∧ ∃ bs, value.denote look strict = some bs) :
    (ofOutcome outcome look strict waited).Due look strict outcome where
  rejected d hd hgone := by
    rw [ofOutcome, if_pos (ofOutcome_ne_gone_iff.1 hgone), hd]
    rfl
  fulfilled d value hd hgone := by
    have hwaited := ofOutcome_ne_gone_iff.1 hgone
    obtain ⟨hnil, bs, hdenote⟩ := h d hwaited value hd
    exact ⟨hnil, bs, ofOutcome_of_fulfilled hwaited hd hdenote, hdenote⟩

end Forecast

/-- A root on its way: it stands and will show what was read, once what is left of the forecast has
been applied. -/
structure Live.OnTheWay (objects : Objects) (known : Registry) (r : Renderer)
    (outcome : DeferredId → Settlement) (forecast left : Forecast) (shared : SharedTemplate)
    (read : List (Shown NodeKind)) (l : Live) : Prop where
  coherent : l.renderer.cache.Coherent objects known
  extends_cache : r.cache.Extends l.renderer.cache
  config : l.renderer.config = r.config
  faithful : l.deferreds.Faithful objects
  there : ∀ d, forecast d ≠ .gone → d.index < l.deferreds.outcomes.size
  settled : ∀ d, forecast d ≠ .gone →
    l.deferreds.poll d = .waiting ∨ l.deferreds.poll d = outcome d
  remains : left.Remains forecast
  template_eq : l.root.template = shared
  stands : ∃ label closing shown f, l.root.Stands objects known true label closing shown f ∧
    Part.ReadsAll left objects known l.root.tree.kind true l.root.parts shown read

namespace Live.OnTheWay

variable {r : Renderer} {outcome : DeferredId → Settlement} {forecast left : Forecast}
  {shared : SharedTemplate} {read : List (Shown NodeKind)} {l : Live} {look : Look}

theorem settle (h : l.OnTheWay objects known r outcome forecast left shared read) (d : DeferredId)
    (hfaithful : ∀ value, outcome d = .fulfilled value → value.Faithful objects) :
    (l.step outcome (.settle d)).OnTheWay objects known r outcome forecast left shared read where
  coherent := h.coherent
  extends_cache := h.extends_cache
  config := h.config
  faithful d' value hvalue := by
    have hpoll := (l.deferreds.poll_settle d d' (outcome d)).symm.trans hvalue
    split at hpoll
    · exact hfaithful value hpoll
    · exact h.faithful d' value hpoll
  there d' hd' := by simpa [step, Deferreds.settle] using h.there d' hd'
  settled d' hd' := by
    rw [step, Deferreds.poll_settle]
    split
    · next he => exact .inr (by rw [he.1])
    · exact h.settled d' hd'
  remains := h.remains
  template_eq := h.template_eq
  stands := h.stands

theorem flush (h : l.OnTheWay objects known r outcome forecast left shared read)
    (hlook : look.Lasts objects r.cache) (hdue : forecast.Due look r.config.strictValueCount outcome)
    (holders : Holders) :
    ∃ known', (l.step outcome (.flush holders)).OnTheWay objects known' r outcome forecast
      (left.after l.deferreds) shared read := by
  obtain ⟨label, closing, shown, f, hst, hread⟩ := h.stands
  obtain ⟨known', shown', f', ha, hst', hflush⟩ :=
    hst.reads_flush (s := { deferreds := l.deferreds, holders }) h.coherent h.faithful hread
  have hdue' : left.Due look l.renderer.config.strictValueCount l.deferreds.poll :=
    h.config ▸ hdue.of_remains h.remains h.settled
  obtain ⟨-, hread'⟩ := hflush look (hlook.of_extends h.extends_cache) hdue'
  exact ⟨known', {
    coherent := ha.coherent
    extends_cache := h.extends_cache.trans ha.extends_cache
    config := ha.config.trans h.config
    faithful := h.faithful
    there := h.there
    settled := h.settled
    remains := h.remains.after l.deferreds
    template_eq := h.template_eq
    stands := ⟨label, closing, shown', f', hst', hread'⟩ }⟩

/-- Whatever happens, the root stays on its way. -/
theorem run (h : l.OnTheWay objects known r outcome forecast left shared read)
    (hlook : look.Lasts objects r.cache) (hdue : forecast.Due look r.config.strictValueCount outcome)
    (hfaithful : ∀ d value, outcome d = .fulfilled value → value.Faithful objects)
    (steps : List LiveStep) :
    ∃ known' left', (l.run outcome steps).OnTheWay objects known' r outcome forecast left' shared
      read := by
  induction steps generalizing l known left with
  | nil => exact ⟨known, left, h⟩
  | cons c steps ih =>
    cases c with
    | settle d => exact ih (h.settle d (hfaithful d))
    | flush holders =>
      obtain ⟨known', h'⟩ := h.flush hlook hdue holders
      exact ih h'

/-- Where nothing is left, the root shows what was read. -/
theorem toHtml (h : l.OnTheWay objects known r outcome forecast left shared read)
    (hfinal : left.Final) (style : Html.Style) :
    l.root.toHtml style = Html.writeAll style false (shared.template.filled read) := by
  obtain ⟨label, closing, shown, f, hst, hread⟩ := h.stands
  rw [hst.toHtml, (hst.copied.like (hread.like hfinal)).eq, h.template_eq]

end Live.OnTheWay

/-- A result with what the deferred values come to in their place. -/
def TemplateResult.replace (value : DeferredId → Value) (t : TemplateResult) : TemplateResult :=
  { t with values := Value.replaceAll value t.values }

/-- A result that has been rendered with nothing settled is on its way to what it is foreseen to
show. -/
theorem Live.onTheWay_renderRoot {r : Renderer} {s : Setting} {t : TemplateResult}
    {root : RenderRoot} {look : Look} {forecast : Forecast} (outcome : DeferredId → Settlement)
    (hr : r.cache.Coherent objects known) (hs : s.deferreds.Faithful objects)
    (ht : t.Faithful objects) (hroot : (r.renderRoot s t).result = .ok root)
    (hawaits : ∀ d ∈ (Value.ofResult t).deferreds, s.deferreds.Awaits d)
    (hforecast : ∀ d, forecast d ≠ .gone ↔ d ∈ (Value.ofResult t).deferreds)
    (hlook : look.Lasts objects r.cache) :
    ∃ known' read, (Value.ofResult t).foresee look r.config.strictValueCount forecast =
        some (root.template.template.filled read) ∧
      (Live.mk root (r.renderRoot s t).renderer s.deferreds).OnTheWay objects known' r outcome
        forecast forecast root.template read := by
  obtain ⟨known', ha, hshown, -⟩ := r.renderRoot_yields hr hs ht true
  obtain ⟨label, closing, shown, f, hshows⟩ := hshown root hroot
  have hout : (Value.ofResult t).Outstanding s.deferreds := fun d hd value hvalue => by
    rw [(hawaits d hd).poll_eq] at hvalue
    cases hvalue
  obtain ⟨read, hforesee, hread⟩ := hshows.reads ⟨hout, nofun⟩ look forecast
    (hlook.agrees _ _ ha.extends_cache ha.coherent) fun d hd => (hforecast d).2 hd
  rw [ha.config] at hforesee
  exact ⟨known', read, hforesee, {
    coherent := ha.coherent
    extends_cache := ha.extends_cache
    config := ha.config
    faithful := hs
    there := fun d hd => (hawaits d ((hforecast d).1 hd)).lt_size
    settled := fun d hd => .inl (hawaits d ((hforecast d).1 hd)).poll_eq
    remains := .refl forecast
    template_eq := rfl
    stands := ⟨label, closing, shown, f, hshows.stands, hread⟩ }⟩

/-- A result without deferred values that has a denotation is rendered to it. -/
theorem Renderer.render_eq_writeAll {r : Renderer} {s : Setting} {t : TemplateResult} {look : Look}
    {bs : List (Branch NodeKind)} (hr : r.cache.Coherent objects known)
    (hs : s.deferreds.Faithful objects) (ht : t.Faithful objects)
    (hnil : (Value.ofResult t).deferreds = []) (hlook : look.Lasts objects r.cache)
    (hdenote : (Value.ofResult t).denote look r.config.strictValueCount = some bs) :
    (r.render s t).result = .ok (Html.writeAll r.config.style false bs) := by
  obtain ⟨known', ha, hshown, hsucceeds⟩ := r.renderRoot_yields hr hs ht true
  have hplain : (Value.ofResult t).Plain true s.deferreds := Value.plain_of_nil hnil
  obtain ⟨root, hroot⟩ := hsucceeds hplain.1 look hlook.yields (by simp [hdenote])
  obtain ⟨label, closing, shown, f, hshows⟩ := hshown root hroot
  obtain ⟨read, hforesee, hread⟩ := hshows.reads hplain look .still
    (hlook.agrees _ _ ha.extends_cache ha.coherent) (Value.foreseeable_still _)
  rw [Value.foresee_still, ha.config, hdenote] at hforesee
  have hlike := hshows.stands.copied.like (hread.like Forecast.final_still)
  refine Renderer.render_ok_iff.2 ⟨root, hroot, ?_⟩
  rw [hshows.stands.toHtml, hlike.eq, Option.some.inj hforesee]

/-- Deferred values that a root waits for may settle in any order, with any number of flushes in
between: after a flush that has seen all of them the root shows one and the same HTML. If all are
fulfilled, it is what the result shows with their values in their place. -/
theorem Host.Reachable.settles_in_any_order (htell : objects.Telling) {h : Host}
    (hh : h.Reachable objects) {r : Renderer} (hr : r ∈ h.renderers) {s : Setting}
    (hs : s.deferreds.Faithful objects) {t : TemplateResult} (ht : t.Faithful objects)
    {root : RenderRoot} (hroot : (r.renderRoot s t).result = .ok root)
    (hawaits : ∀ d ∈ (Value.ofResult t).deferreds, s.deferreds.Awaits d)
    (outcome : DeferredId → Settlement)
    (hfaithful : ∀ d value, outcome d = .fulfilled value → value.Faithful objects)
    (hsettled : ∀ d ∈ (Value.ofResult t).deferreds, (outcome d).isSettled = true)
    (hrenders : ∀ d ∈ (Value.ofResult t).deferreds, ∀ value, outcome d = .fulfilled value →
      value.deferreds = [] ∧ value.Renders objects r.config) :
    ∃ html : String,
      (∀ (steps : List LiveStep) (holders : Holders),
        (∀ d ∈ (Value.ofResult t).deferreds, LiveStep.settle d ∈ steps) →
        ((Live.mk root (r.renderRoot s t).renderer s.deferreds).run outcome
          (steps ++ [.flush holders])).root.toHtml r.config.style = html) ∧
      ∀ value : DeferredId → Value,
        (∀ d ∈ (Value.ofResult t).deferreds, outcome d = .fulfilled (value d)) →
        (Value.ofResult t).BetweenNodes (.compiled r.config.detectDocuments) →
        ∀ h' : Host, h'.Reachable objects → ∀ r' ∈ h'.renderers, r'.config = r.config →
        ∀ s' : Setting, s'.deferreds.Faithful objects →
          (r'.render s' (t.replace value)).result = .ok html := by
  obtain ⟨look, hlook⟩ : ∃ look, look = Look.compiled r.config.detectDocuments := ⟨_, rfl⟩
  -- Every renderer of the configuration goes with what compiling gives.
  have hlasts {h' : Host} {r' : Renderer} (hh' : h'.Reachable objects) (hr' : r' ∈ h'.renderers)
      (hconfig : r'.config = r.config) :
      look.Lasts objects r'.cache ∧ ∃ known, r'.cache.Coherent objects known := by
    obtain ⟨known, hsound⟩ := hh'.sound
    obtain ⟨i, hi⟩ := List.getElem?_of_mem hr'
    rw [hlook, ← hconfig]
    exact ⟨Look.compiled_lasts htell (hsound.detects r' hr'), known, (hsound.renderers i r' hi).2⟩
  obtain ⟨hlast, known, hcoherent⟩ := hlasts hh hr rfl
  have hdenotes : ∀ d ∈ (Value.ofResult t).deferreds, ∀ value, outcome d = .fulfilled value →
      value.deferreds = [] ∧ ∃ bs, value.denote look r.config.strictValueCount = some bs := by
    intro d hd value hvalue
    obtain ⟨hnil, hrender⟩ := hrenders d hd value hvalue
    exact ⟨hnil, hlook ▸ hrender.exists_denote htell (hfaithful d value hvalue) hnil⟩
  obtain ⟨forecast, hforecast⟩ : ∃ forecast, forecast = Forecast.ofOutcome outcome look
      r.config.strictValueCount (Value.ofResult t).deferreds := ⟨_, rfl⟩
  have hdue : forecast.Due look r.config.strictValueCount outcome :=
    hforecast ▸ Forecast.due_ofOutcome hdenotes
  have hgone (d : DeferredId) : forecast d ≠ .gone ↔ d ∈ (Value.ofResult t).deferreds :=
    hforecast ▸ Forecast.ofOutcome_ne_gone_iff
  obtain ⟨known₁, read, hforesee, hway⟩ :=
    Live.onTheWay_renderRoot outcome hcoherent hs ht hroot hawaits hgone hlast
  refine ⟨Html.writeAll r.config.style false (root.template.template.filled read),
    fun steps holders hsteps => ?_, fun value hvalue hbetween h' hh' r' hr' hconfig s' hs' => ?_⟩
  · obtain ⟨known₂, left, hran⟩ := hway.run hlast hdue hfaithful steps
    obtain ⟨known₃, hdone⟩ := hran.flush hlast hdue holders
    rw [Live.run, List.foldl_append, List.foldl_cons, List.foldl_nil]
    refine hdone.toHtml (hran.remains.final_after fun d hd => ?_) r.config.style
    have hwaited := (hgone d).1 hd
    rw [Live.poll_run (hawaits d hwaited).lt_size (.inl (hsteps d hwaited))]
    exact hsettled d hwaited
  · obtain ⟨hlast', known', hcoherent'⟩ := hlasts hh' hr' hconfig
    have hdenote : (Value.ofResult (t.replace value)).denote look r'.config.strictValueCount =
        some (root.template.template.filled read) := by
      rw [hconfig, ← hforesee]
      refine Value.denote_replace (Value.ofResult t) (hlook ▸ hbetween) fun d hd => ?_
      obtain ⟨-, bs, hbs⟩ := hdenotes d hd _ (hvalue d hd)
      exact ⟨bs, hforecast ▸ Forecast.ofOutcome_of_fulfilled hd (hvalue d hd) hbs, hbs⟩
    rw [← hconfig]
    refine Renderer.render_eq_writeAll hcoherent' hs' ?_ ?_ hlast' hdenote
    · exact Value.Faithful.replace (Value.ofResult t) ht fun d hd => hfaithful d _ (hvalue d hd)
    · exact Value.deferreds_replace (Value.ofResult t) fun d hd =>
        (hdenotes d hd _ (hvalue d hd)).1

/-- A hole with nothing around it. -/
def bareHole (index : Nat) : TemplateStrings := .ofFragments ⟨index⟩ ["", ""]

/-- A list of two values that are to come, with something in the place of one of them. -/
def awaitedPair : TemplateResult :=
  ⟨bareHole 0, [.iterable [.pending ⟨0⟩, .placeholder ⟨1⟩ (.primitive (.str "soon"))]], .html⟩

/-- The values of the pair: a text, and a text in a template. -/
def pairValue (d : DeferredId) : Value :=
  if d.index = 0 then .primitive (.str "one")
  else .template (bareHole 1) [.primitive (.str "two")] .html

/-- Two deferred values, both waiting. -/
def Setting.twoWaiting : Setting := { deferreds := ⟨#[.waiting, .waiting]⟩ }

theorem Setting.faithful_twoWaiting : twoWaiting.deferreds.Faithful objects := by
  rintro ⟨i⟩ value hvalue
  match i with
  | 0 | 1 | _ + 2 => cases hvalue

theorem awaitedPair_betweenNodes (detectDocuments : Bool) :
    (Value.ofResult awaitedPair).BetweenNodes (.compiled detectDocuments) := by
  refine ⟨fun shared hshared c hc name segments hk => ?_, ⟨trivial, trivial, trivial⟩, trivial⟩
  rw [Template.parts_of_hole rfl (Look.ok_of_compiled hshared)] at hc
  obtain rfl := List.mem_singleton.1 hc
  cases hk

theorem pairValue_faithful (d : DeferredId) : (pairValue d).Faithful (.twins ["", ""]) := by
  rw [pairValue]
  split
  · trivial
  · exact ⟨rfl, trivial, trivial⟩

theorem pairValue_renders (d : DeferredId) :
    (pairValue d).deferreds = [] ∧ (pairValue d).Renders (.twins ["", ""]) {} := by
  rw [pairValue]
  split
  · exact ⟨rfl, bareHole 0, rfl, rfl, "one", Except.ok_of_toOption (by cbv)⟩
  · exact ⟨rfl, bareHole 0, rfl, rfl, "two", Except.ok_of_toOption (by cbv)⟩

/-- The second value comes before the first. -/
theorem Host.awaitedPair_settles :
    ∃ root, ((Renderer.new 0 {}).renderRoot .twoWaiting awaitedPair).result = .ok root ∧
      ((Live.mk root ((Renderer.new 0 {}).renderRoot .twoWaiting awaitedPair).renderer
          Setting.twoWaiting.deferreds).run (fun d => .fulfilled (pairValue d))
        [.settle ⟨1⟩, .flush {}, .settle ⟨0⟩, .flush {}]).root.toHtml {} = "onetwo" := by
  have hsome : ((Renderer.new 0 {}).renderRoot .twoWaiting awaitedPair).result.toOption.isSome :=
    by cbv
  obtain ⟨root, hroot⟩ := Option.isSome_iff_exists.1 hsome
  have hroot := Except.ok_of_toOption hroot
  have hreachable : (Host.run {} [.newRenderer {}]).Reachable (.twins ["", ""]) :=
    ⟨_, fun c hc => by obtain rfl := List.mem_singleton.1 hc; trivial, rfl⟩
  have hrenderer : Renderer.new 0 {} ∈ (Host.run {} [.newRenderer {}]).renderers :=
    List.mem_singleton.2 rfl
  have hdeferreds : (Value.ofResult awaitedPair).deferreds = [⟨0⟩, ⟨1⟩] := rfl
  obtain ⟨html, hsame, hreplaced⟩ := Host.Reachable.settles_in_any_order
    (Objects.telling_twins ["", ""]) hreachable hrenderer Setting.faithful_twoWaiting
    (t := awaitedPair) ⟨rfl, ⟨trivial, trivial, trivial⟩, trivial⟩ hroot
    (fun d hd => by rcases List.mem_pair.1 (hdeferreds ▸ hd) with rfl | rfl <;> rfl)
    (fun d => .fulfilled (pairValue d))
    (fun d _ hvalue => Settlement.fulfilled.inj hvalue ▸ pairValue_faithful d) (fun _ _ => rfl)
    (fun d _ _ hvalue => Settlement.fulfilled.inj hvalue ▸ pairValue_renders d)
  have hrendered : ((Renderer.new 0 {}).render {} (awaitedPair.replace pairValue)).result =
      .ok html :=
    hreplaced pairValue (fun _ _ => rfl) (awaitedPair_betweenNodes _) _ hreachable _ hrenderer rfl {}
      Setting.faithful_empty
  have hhtml : ((Renderer.new 0 {}).render {} (awaitedPair.replace pairValue)).result.toOption =
      some "onetwo" := by cbv
  rw [hrendered] at hhtml
  obtain rfl := Option.some.inj hhtml
  refine ⟨root, hroot, hsame [.settle ⟨1⟩, .flush {}, .settle ⟨0⟩] {} fun d hd => ?_⟩
  rcases List.mem_pair.1 (hdeferreds ▸ hd) with rfl | rfl <;> simp

/-- Two values that are to come between nodes, one of which will hold the marker as text. -/
def markedPair : TemplateResult :=
  ⟨.ofFragments ⟨0⟩ ["", "", ""], [.pending ⟨0⟩, .pending ⟨1⟩], .html⟩

def markedValue (d : DeferredId) : Value :=
  if d.index = 0 then .template (.ofFragments ⟨1⟩ ["<p>", "</p>"]) [.primitive (.str "x")] .html
  else .template (.ofFragments ⟨2⟩ ["<p>" ++ marker ++ "</p>"]) [] .html

/-- Where fragments hold the marker, the value that comes first decides what both are shown by. -/
theorem Live.order_matters_of_marked :
    let work := (Renderer.new 0 {}).renderRoot .twoWaiting markedPair
    let html (first second : DeferredId) := work.result.toOption.map fun root =>
      ((Live.mk root work.renderer Setting.twoWaiting.deferreds).run
        (fun d => .fulfilled (markedValue d))
        [.settle first, .flush {}, .settle second, .flush {}]).root.toHtml {}
    html ⟨0⟩ ⟨1⟩ = some "<p>x</p><p></p>" ∧
      html ⟨1⟩ ⟨0⟩ = some ("<p>" ++ marker ++ "</p><p>" ++ marker ++ "</p>") := by
  constructor <;> cbv

end LiveMarkup
