import LiveMarkup.Proofs.Part.Filling

set_option autoImplicit false

/-!
Showing a template in a region. If the part holds a copy of the same compiled template, its parts
get the new values; otherwise the region is cleared and a new copy takes its place. Which template
it is depends on the cache only, which answers by what the fragments say.
-/

namespace LiveMarkup

open Branch (labelsOfAll mapAll)
open LiveMarkup.Tree (Exchange Grows Stretch)

variable {objects : Objects} {known known₁ : Registry} {exact blank strict : Bool} {ds : Deferreds}
  {depth : Nat} {w w₁ : World} {p : NodeId} {before after : List NodeId} {part : NodePart}
  {f : List (Branch NodeId)} {patch : Patch} {s : Setting} {shared : SharedTemplate}
  {values : List Value}

namespace Patch

/-- Shows a new copy of a template. -/
def fresh (patch : Patch) (s : Setting) (w : World) (part : NodePart) (shared : SharedTemplate)
    (values : List Value) : Applied NodePart :=
  match shared.template.copyInto (part.clear w.tree) with
  | (tree, .error e) => { part, world := w.withTree tree, error := some e }
  | (tree, .ok copy) =>
    let tree := (tree.moveChildrenBefore copy.root part.stop).1.remove copy.root
    let w := (w.withTree tree).report (.clonedTemplate copy.parts.length)
    (update patch s w shared.template copy.parts values).map fun ps =>
      part.withState (.nested shared ps)

/-- Shows a template once the cache has answered. -/
def answered (patch : Patch) (s : Setting) (w : World) (part : NodePart) (values : List Value) :
    Except (List Markup.SyntaxError) SharedTemplate → Applied NodePart
  | .error errors => { part, world := w, error := some (.parse errors) }
  | .ok shared =>
    match part.state with
    | .nested shown ps =>
      if shown.id = shared.id then
        (update patch s (w.report .reusedInstance) shared.template ps values).map fun ps =>
          part.withState (.nested shown ps)
      else fresh patch s w part shared values
    | _ => fresh patch s w part shared values

theorem template_eq (patch : Patch) (s : Setting) (w : World) (part : NodePart)
    (r : TemplateResult) : ∃ (alive : StringsId → Bool) (v : World),
    v.tree = w.tree ∧ v.cache = (w.cache.getOrCompile alive r.strings r.kind).cache ∧
      template patch s w part r =
        answered patch s v part r.values (w.cache.getOrCompile alive r.strings r.kind).outcome := by
  refine ⟨_, _, ?_, ?_, rfl⟩ <;> rfl

end Patch

/-- A copy that has just come into being is moved into a stretch. -/
theorem Template.Copies.unpack {t : Template} {tree tree' : Tree} {copy : Copied} {stop : NodeId}
    {label closing : Nat → NodeId} {g : List (Branch NodeId)}
    (h : t.Copies objects known exact tree tree' copy label closing g) (hs : t.Sound)
    (hstretch : Stretch tree p before [] (stop :: after))
    (howner : (tree.kind p).isText = false) (hl : tree.TextLeaves) :
    let u := (tree'.moveChildrenBefore copy.root stop).1.remove copy.root
    Exchange tree u p [] (labelsOfAll g) ∧ Stretch u p before g (stop :: after) ∧ u.TextLeaves ∧
      t.Copy u.kind exact label closing (t.parts.map TemplatePart.blank) g ∧
      Part.FitsAll objects known u.kind exact label (t.stopAt label closing) copy.parts t.parts
        (t.parts.map TemplatePart.blank) := by
  have hin := h.stretch
  have hg : Grows tree tree' (.node copy.root g) :=
    ⟨h.adds, ⟨hin.live, h.parent_root, by simpa using hin.children, hin.holds⟩,
      by simpa using hin.nodup⟩
  obtain ⟨hx, hput, hk⟩ := hstretch.unpack hg
  rw [List.nil_append] at hx hput
  have hleaves : Branch.LeavesAll NodeKind.isText (mapAll tree'.kind g) :=
    hin.holds.leaves_iff.2 fun n hn ht => h.textLeaves hl n (hin.holds.contains hn) ht
  refine ⟨hx, hput, hl.exchange hx hput howner ?_, h.copied.mono hs hk id, ?_⟩
  · rwa [Branch.mapAll_congr hk]
  · exact h.fits.mono (Registry.le_refl known)
      (fun b hb n hn => hk n (h.copied.region_subset hs hb hn)) id

namespace NodePart

/-- A region in a world that knows more templates. -/
theorem Region.later (h : part.Region objects known exact w p before after f)
    (hle : known ≤ known₁) (ht : w₁.tree = w.tree) (hc : w₁.cache.Coherent objects known₁) :
    part.Region objects known₁ exact w₁ p before after f :=
  ⟨hc, ht ▸ h.accounted, ht ▸ h.textLeaves, ht ▸ h.stretch,
    ht ▸ h.fits.mono hle (fun _ _ => rfl) id⟩

theorem fits_nested {ps : List Part} {kind : NodeId → NodeKind}
    (hp : part.state = .nested shared ps) :
    part.Fits objects known kind exact f ↔ known.has shared ∧ ∃ label closing shown,
      shared.template.Copy kind exact label closing shown f ∧
        Part.FitsAll objects known kind exact label (shared.template.stopAt label closing) ps
          shared.template.parts shown := by
  rw [part.eq_mk, hp]
  rfl

/-- What showing a template comes to, once the template is there. -/
structure Shows (objects : Objects) (known known' : Registry) (exact blank strict : Bool)
    (ds : Deferreds) (depth : Nat) (w : World) (p : NodeId) (before after : List NodeId)
    (part : NodePart) (f f' : List (Branch NodeId)) (shared : SharedTemplate) (values : List Value)
    (a : Applied NodePart) : Prop where
  turned : Turned objects known known' exact w a.world p before after part a.part f f'
  reads : a.error = none → (∀ v ∈ values, v.Plain blank ds) → ∀ (look : Look) (forecast : Forecast),
    look.Agrees objects a.world.cache → (∀ v ∈ values, v.Foreseeable forecast) →
    ∃ bs, shared.template.denote strict (Value.foreseeAll look strict forecast values) = some bs ∧
      a.part.Reads forecast objects known' a.world.tree.kind exact f' bs
  succeeds : 0 < depth → (∀ v ∈ values, v.Reached depth) → (∀ v ∈ values, v.Outstanding ds) →
    ∀ look : Look, look.Yields objects w.cache →
    shared.template.denote strict (Value.meanings look strict values) ≠ none → a.error = none
  carries : a.error = none → ∀ look : Look, look.Covers objects a.world.cache → ∀ strings kind,
    look strings kind = some shared → a.part.Carries look strict f' (.template strings values kind)

theorem Region.reuse (h : part.Region objects known exact w p before after f)
    (hp : patch.Correct objects exact strict ds depth) (hds : s.deferreds = ds)
    (hstrict : s.strictValueCount = strict) {ps : List Part}
    (hstate : part.state = .nested shared ps) (hvalues : ∀ v ∈ values, v.Faithful objects)
    (hready : part.Ready exact blank f) :
    ∃ known' f', Shows objects known known' exact blank strict ds depth w p before after part f f'
      shared values
      ((Patch.update patch s (w.report .reusedInstance) shared.template ps values).map fun ps =>
        part.withState (.nested shared ps)) := by
  obtain ⟨hhas, label, closing, shown, hcopy, hfits⟩ := (fits_nested hstate).1 h.fits
  have hstands : shared.template.Stands objects known exact (w.report .reusedInstance) p
      (before ++ [part.start]) (part.stop :: after) label closing shown f :=
    ⟨known.sound _ hhas, h.coherent, h.accounted, h.textLeaves, h.stretch, hcopy⟩
  have hold : ¬(exact = true ∨ blank = true) := by
    rintro (he | he)
    · exact (hready.bare he).1 shared ps hstate
    · have hempty := (hready.empty he).1
      rw [hstate] at hempty
      cases hempty
  obtain ⟨known', shown', f', hu⟩ := hp.update hds hstrict hstands hfits blank
    (fun he => absurd he hold) hvalues
  have hhas' := hu.turns.grown.1 _ hhas
  refine ⟨known', f', ⟨hu.turns.of_tree rfl rfl rfl rfl, hu.stands.stretch, rfl, rfl, ?_⟩,
    fun he hplain look forecast hlook hforesee => ?_, hu.succeeds,
    fun he look hlook strings kind hfound => ?_⟩
  · exact ⟨hhas', label, closing, shown', hu.stands.copied, hu.fits⟩
  · obtain ⟨read, hdenote, hread⟩ := hu.reads he hplain look forecast hlook hforesee
    exact ⟨_, hdenote, hhas', label, closing, shown', read, hu.stands.copied, hu.fits, hread, rfl⟩
  · obtain ⟨hcount, hcarries⟩ := hu.carries he look hlook
    exact ⟨hfound, hu.stands.sound, hcount, label, closing, shown', hu.stands.copied.forest, hcarries⟩

theorem Region.fresh (h : part.Region objects known exact w p before after f)
    (hp : patch.Correct objects exact strict ds depth) (hds : s.deferreds = ds)
    (hstrict : s.strictValueCount = strict) (hhas : known.has shared)
    (hvalues : ∀ v ∈ values, v.Faithful objects) (blank : Bool) :
    ∃ known' f', Shows objects known known' exact blank strict ds depth w p before after part f f'
      shared values (patch.fresh s w part shared values) := by
  have hsound := known.sound _ hhas
  obtain ⟨hx, hs, hl⟩ := h.clear
  obtain ⟨tree, copy, label, closing, g, hcopy, hcopies⟩ :=
    hsound.copyInto hx.accounted objects known exact
  obtain ⟨hx', hs', hl', hcopied, hfits⟩ :=
    hcopies.unpack hsound hs (hs.owner_not_text hl) hl
  obtain ⟨v, hv⟩ : ∃ v : World, v = (w.withTree
      ((tree.moveChildrenBefore copy.root part.stop).1.remove copy.root)).report
        (.clonedTemplate copy.parts.length) := ⟨_, rfl⟩
  have htree : v.tree = (tree.moveChildrenBefore copy.root part.stop).1.remove copy.root := by
    rw [hv]
    rfl
  have hcache : v.cache = w.cache := by
    rw [hv]
    rfl
  have hturns : World.Turns objects known known w v p (labelsOfAll f) (labelsOfAll g) :=
    .of_exchange h.coherent hcache (htree ▸ hx.trans hx') (htree ▸ hl')
  have hstands : shared.template.Stands objects known exact v p
      (before ++ [part.start]) (part.stop :: after) label closing
      (shared.template.parts.map TemplatePart.blank) g :=
    ⟨hsound, hcache ▸ h.coherent, htree ▸ hx'.accounted, htree ▸ hl', htree ▸ hs',
      htree ▸ hcopied⟩
  obtain ⟨known', shown', f', hu⟩ := hp.update hds hstrict hstands (htree ▸ hfits) blank
    (fun _ => hcopies.blank) hvalues
  have heq : patch.fresh s w part shared values =
      (Patch.update patch s v shared.template copy.parts values).map fun ps =>
        part.withState (.nested shared ps) := by
    simp only [Patch.fresh, hcopy, hv]
  rw [heq]
  have hhas' := hu.turns.grown.1 _ hhas
  refine ⟨known', f', ⟨hturns.trans hu.turns, hu.stands.stretch, rfl, rfl, ?_⟩,
    fun he hplain look forecast hlook hforesee => ?_,
    fun hd hr ho look hlook => hu.succeeds hd hr ho look (hcache ▸ hlook),
    fun he look hlook strings kind hfound => ?_⟩
  · exact ⟨hhas', label, closing, shown', hu.stands.copied, hu.fits⟩
  · obtain ⟨read, hdenote, hread⟩ := hu.reads he hplain look forecast hlook hforesee
    exact ⟨_, hdenote, hhas', label, closing, shown', read, hu.stands.copied, hu.fits, hread, rfl⟩
  · obtain ⟨hcount, hcarries⟩ := hu.carries he look hlook
    exact ⟨hfound, hu.stands.sound, hcount, label, closing, shown', hu.stands.copied.forest, hcarries⟩

/-- A template is shown in the copy that is there or in a new one. -/
theorem Region.answered (h : part.Region objects known exact w p before after f)
    (hp : patch.Correct objects exact strict ds depth) (hds : s.deferreds = ds)
    (hstrict : s.strictValueCount = strict) (hhas : known.has shared)
    (hvalues : ∀ v ∈ values, v.Faithful objects) (hready : part.Ready exact blank f) :
    ∃ known' f', Shows objects known known' exact blank strict ds depth w p before after part f f'
      shared values (patch.answered s w part values (.ok shared)) := by
  have hfresh := h.fresh hp hds hstrict hhas hvalues blank
  cases hstate : part.state with
  | nested shown ps =>
    by_cases hid : shown.id = shared.id
    · obtain rfl := known.agree shown shared ((fits_nested hstate).1 h.fits).1 hhas hid
      have hreuse := h.reuse hp hds hstrict hstate hvalues hready
      simpa only [Patch.answered, hstate, if_true] using hreuse
    · simpa only [Patch.answered, hstate, hid, if_false] using hfresh
  | _ => simpa only [Patch.answered, hstate] using hfresh

end NodePart

theorem Patch.Correct.template (hp : patch.Correct objects exact strict ds depth)
    (hds : s.deferreds = ds) (hstrict : s.strictValueCount = strict)
    (h : part.Region objects known exact w p before after f) {r : TemplateResult}
    (hr : (Value.ofResult r).Faithful objects) (hready : part.Ready exact blank f) :
    ∃ known' f', NodePart.Outcome objects known known' exact blank strict ds (depth + 1) w p before
      after part f f' (.ofResult r) (Patch.template patch s w part r) := by
  obtain ⟨hstrings, hvalues⟩ := hr
  rw [Value.faithfulAll_iff] at hvalues
  obtain ⟨alive, v, htree, hcache, heq⟩ := Patch.template_eq patch s w part r
  obtain ⟨known₁, ha⟩ := h.coherent.answers hstrings alive r.kind
  have hyields {look : Look} (hlook : look.Yields objects w.cache) {found : SharedTemplate}
      (hfound : look r.strings r.kind = some found) :=
    hlook _ _ _ hstrings hfound _ _ (.refl _) h.coherent alive
  rw [heq]
  generalize w.cache.getOrCompile alive r.strings r.kind = answer at ha hcache hyields
  have hv := h.later ha.grown.1 htree (hcache ▸ ha.coherent)
  have hturns : World.Turns objects known known₁ w v p (labelsOfAll f) (labelsOfAll f) :=
    ⟨ha.grown, hcache ▸ ha.coherent, hcache ▸ ha.extends_cache, htree ▸ .refl h.accounted p _,
      htree ▸ h.textLeaves⟩
  match houtcome : answer.outcome with
  | .error errors =>
    refine ⟨known₁, f, ⟨hturns, htree ▸ h.stretch, rfl, rfl, hv.fits⟩, fun he => (by cases he), ?_,
      fun he => by cases he⟩
    intro _ _ look hlook hne
    match hfound : look r.strings r.kind with
    | some found =>
      obtain ⟨shared, hok, -⟩ := hyields hlook hfound
      rw [houtcome] at hok
      cases hok
    | none => simp [Value.ofResult, Value.denote, hfound] at hne
  | .ok shared =>
    obtain ⟨known₂, f', hshows⟩ := hv.answered hp hds hstrict (ha.has shared houtcome) hvalues
      hready
    have ht := hshows.turned
    have hkept := ht.turns.extends_cache.get? hv.coherent ht.turns.coherent hstrings
      (hcache ▸ ha.kept shared houtcome)
    refine ⟨known₂, f', ⟨hturns.trans ht.turns, ht.stretch, ht.start_eq, ht.stop_eq, ht.fits⟩,
      fun he hplain look forecast hlook hforesee => ?_, fun hreached hout look hlook hne => ?_,
      fun he look hlook => hshows.carries he look hlook _ _ (hlook _ _ _ hstrings hkept)⟩
    · obtain ⟨bs, hbs, hread⟩ := hshows.reads he
        (fun v hm => Value.plain_of_mem hplain.1 hplain.2 hm) look forecast hlook
        (fun v hm d hd => hforesee d (Value.deferreds_of_mem hm hd))
      refine ⟨bs, ?_, hread⟩
      obtain ⟨found, hfound, htemplate⟩ := hlook _ _ _ hstrings hkept
      rw [Value.ofResult, Value.foresee, hfound, Option.bind_some, htemplate]
      exact hbs
    · have hweight : Value.weights r.values < depth := by
        rcases hreached with hlt | ⟨hnull, -⟩
        · simpa [Value.ofResult, Value.weight] using hlt
        · cases hnull
      match hfound : look r.strings r.kind with
      | some found =>
        obtain ⟨shared', hok, htemplate⟩ := hyields hlook hfound
        rw [houtcome] at hok
        obtain rfl : shared = shared' := Except.ok.inj hok
        refine hshows.succeeds (by omega)
          (fun v hm => .inl (lt_of_le_of_lt (Value.weight_le_weights hm) hweight))
          (fun v hm => Value.outstanding_of_mem hout hm) look ?_ fun hn => hne ?_
        · exact hlook.of_extends hturns.extends_cache
        · rw [Value.ofResult, Value.denote, hfound, Option.bind_some, ← htemplate]
          exact hn
      | none => simp [Value.ofResult, Value.denote, hfound] at hne

end LiveMarkup
