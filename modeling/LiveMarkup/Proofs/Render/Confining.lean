import LiveMarkup.Proofs.Render.Sparing

set_option autoImplicit false

/-!
A value that is given to one part of a root. Around a part are the copies and lists that it is in;
whatever happens in the part's own region, they say what is in theirs if the part does. So a part
that is given a value changes no node outside its region, and all other parts keep to theirs.
-/

namespace LiveMarkup

open Branch (labelsOfAll)
open NodePart (Listing Region Turned)

/-- The copies and lists that a part is in, with the other parts there. -/
inductive NodePart.Context where
  | here
  | nested (start stop : NodeId) (shared : SharedTemplate) (before : List Part)
      (inner : NodePart.Context) (after : List Part)
  | item (start stop : NodeId) (before : List NodePart) (inner : NodePart.Context)
      (after : List NodePart)

def NodePart.Context.fill (part : NodePart) : NodePart.Context → NodePart
  | .here => part
  | .nested start stop shared before inner after =>
    .mk start stop (.nested shared (before ++ .node (inner.fill part) :: after))
  | .item start stop before inner after =>
    .mk start stop (.items (before ++ inner.fill part :: after))

/-- Where a part is among the parts of a copy. -/
structure Part.Site where
  before : List Part
  context : NodePart.Context
  after : List Part

def Part.Site.fill (site : Part.Site) (part : NodePart) : List Part :=
  site.before ++ .node (site.context.fill part) :: site.after

/-- From one tree to the next, a part has brought its own region in step and touched nothing else. -/
structure NodePart.Confined (t t' : Tree) (part part' : NodePart) : Prop where
  spares : t.Spares t' (t.region part.start part.stop)
  live : ∀ n, t'.contains n = true →
    t.spared (t.region part.start part.stop) n = true ∨ n ∈ t'.region part.start part.stop
  bounds : t'.Bounds part.start part.stop
  start_eq : part'.start = part.start
  stop_eq : part'.stop = part.stop

variable {objects : Objects} {known known' : Registry} {exact : Bool} {w w' : World} {p : NodeId}
  {before after : List NodeId} {part part' q : NodePart} {f f' : List (Branch NodeId)} {s : Setting}
  {value : Value}

mutual

/-- Each part below a part is there in some context. -/
theorem NodePart.exists_context {part : NodePart} (h : q ∈ part.subparts) :
    ∃ context : NodePart.Context, part = context.fill q := by
  match part with
  | .mk start stop (.nested shared parts) =>
    rw [NodePart.subparts, NodeState.subparts, List.mem_cons] at h
    rcases h with rfl | h
    · exact ⟨.here, rfl⟩
    obtain ⟨⟨before, context, after⟩, rfl⟩ := Part.exists_site h
    exact ⟨.nested start stop shared before context after, rfl⟩
  | .mk start stop (.items parts) =>
    rw [NodePart.subparts, NodeState.subparts, List.mem_cons] at h
    rcases h with rfl | h
    · exact ⟨.here, rfl⟩
    obtain ⟨before, context, after, rfl⟩ := NodePart.exists_contextOfAll h
    exact ⟨.item start stop before context after, rfl⟩
  | .mk start stop .empty | .mk start stop (.text _) | .mk start stop (.node _)
  | .mk start stop (.pending _) =>
    obtain rfl : q = _ := by simpa [NodePart.subparts, NodeState.subparts] using h
    exact ⟨.here, rfl⟩

theorem NodePart.exists_contextOfAll {parts : List NodePart}
    (h : q ∈ NodePart.subpartsOfAll parts) :
    ∃ (before : List NodePart) (context : NodePart.Context) (after : List NodePart),
      parts = before ++ context.fill q :: after := by
  match parts with
  | part :: parts =>
    rw [NodePart.subpartsOfAll, List.mem_append] at h
    rcases h with h | h
    · obtain ⟨context, rfl⟩ := NodePart.exists_context h
      exact ⟨[], context, parts, rfl⟩
    · obtain ⟨before, context, after, rfl⟩ := NodePart.exists_contextOfAll h
      exact ⟨part :: before, context, after, rfl⟩

theorem Part.exists_site {parts : List Part} (h : q ∈ Part.subpartsOfAll parts) :
    ∃ site : Part.Site, parts = site.fill q := by
  match parts with
  | .node part :: parts =>
    rw [Part.subpartsOfAll, List.mem_append] at h
    rcases h with h | h
    · obtain ⟨context, rfl⟩ := NodePart.exists_context h
      exact ⟨⟨[], context, parts⟩, rfl⟩
    · obtain ⟨⟨before, context, after⟩, rfl⟩ := Part.exists_site h
      exact ⟨⟨.node part :: before, context, after⟩, rfl⟩
  | .attribute part :: parts =>
    rw [Part.subpartsOfAll] at h
    obtain ⟨⟨before, context, after⟩, rfl⟩ := Part.exists_site h
    exact ⟨⟨.attribute part :: before, context, after⟩, rfl⟩

end

theorem NodePart.Turned.confined
    (h : Turned objects known known' exact w w' p before after part part' f f')
    (hst : Tree.Stretch w.tree p (before ++ [part.start]) f (part.stop :: after)) :
    Confined w.tree w'.tree part part' := by
  have hregion := hst.region_eq
  refine ⟨?_, fun n hn => ?_, h.stretch.bounds, h.start_eq, h.stop_eq⟩
  · rw [hregion]
    exact .of_exchange hst h.turns.exchange h.stretch
  · rw [hregion, h.stretch.region_eq, Tree.spared_iff]
    exact (h.turns.exchange.live n hn).symm

/-- One node part of a copy, set apart: the copy stands again with whatever comes of the part. -/
theorem Template.Stands.focus_part {t : Template} {label closing : Nat → NodeId} {ps qs : List Part}
    {shown : List (Shown NodeId)}
    (h : t.Stands objects known exact w p before after label closing shown f)
    (hfits : Part.FitsAll objects known w.tree.kind exact label (t.stopAt label closing)
      (ps ++ .node part :: qs) t.parts shown) :
    ∃ o left right g, part.Region objects known exact w o left right g ∧
      ∀ {known' w' part' g'}, Turned objects known known' exact w w' o left right part part' g g' →
        ∃ shown' f', World.Turns objects known known' w w' p (labelsOfAll f) (labelsOfAll f') ∧
          t.Stands objects known' exact w' p before after label closing shown' f' ∧
          Part.FitsAll objects known' w'.tree.kind exact label (t.stopAt label closing)
            (ps ++ .node part' :: qs) t.parts shown' := by
  obtain ⟨front, rest, ss, rs, hparts, rfl, hps, hqs⟩ := hfits.split
  obtain ⟨c, rest, b, rs, rfl, rfl, ⟨g, rfl, hk, hstart, hstop, hpart⟩, hqs⟩ := hqs
  obtain ⟨o, left, right, hregion, hback⟩ :=
    h.focus hparts hk hps.length_eq.2 hstart hstop hpart
  refine ⟨o, left, right, g, hregion, fun {known' w' part' g'} ht => ?_⟩
  obtain ⟨f', hturns, hstands, hkept⟩ := hback ht
  refine ⟨_, f', hturns, hstands, ?_⟩
  rw [hparts]
  have hg := hturns.grown.1
  exact (hps.kept hkept (List.subset_append_left _ _) hg).append
    ⟨c, rest, .region g', rs, rfl, rfl,
      ⟨g', rfl, hk, ht.start_eq.trans hstart, ht.stop_eq.trans hstop, ht.fits⟩,
      hqs.kept hkept (List.subset_append_right _ _) hg⟩

namespace NodePart

/-- One item of a list, set apart: the list says what is there with whatever comes of the item. -/
theorem Region.focus_item {start stop : NodeId} {ps qs : List NodePart}
    (h : (NodePart.mk start stop (.items (ps ++ part :: qs))).Region objects known exact w p before
      after f) :
    ∃ left right g, part.Region objects known exact w p left right g ∧
      ∀ {known' w' part' g'}, Turned objects known known' exact w w' p left right part part' g g' →
        ∃ f', Turned objects known known' exact w w' p before after
          (.mk start stop (.items (ps ++ part :: qs))) (.mk start stop (.items (ps ++ part' :: qs)))
          f f' := by
  obtain ⟨cells, hlaid, htexts, hcells⟩ := h.fits
  obtain ⟨done, left, rfl, hps, hqs⟩ := hcells.split
  obtain ⟨n, g, rest, rfl, -⟩ := id hqs
  have hlisting : Listing objects known exact w p before after start stop ps (part :: qs) done
      ((n, g) :: rest) f :=
    ⟨h.coherent, h.accounted, h.textLeaves, h.stretch, .inr hlaid, Cells.texts_tail htexts, hps, hqs⟩
  obtain ⟨before', after', hregion, hback⟩ := hlisting.focus
  refine ⟨before', after', g, hregion, fun {known' w' part' g'} ht => ?_⟩
  obtain ⟨f', hturns, hl, -⟩ := hback ht
  refine ⟨f', hturns, hl.stretch, rfl, rfl, ?_⟩
  have hitems := hl.done.append hl.waiting
  rw [List.append_assoc] at hitems
  show ((NodePart.mk start stop .empty).withState (.items (ps ++ part' :: qs))).Fits objects known'
    w'.tree.kind exact f'
  exact fits_withState_items (hl.laid.resolve_left (by simp)) hl.texts hitems

/-- The region of a part in a context, set apart. -/
theorem Context.focus (context : Context)
    (h : (context.fill part).Region objects known exact w p before after f) :
    ∃ o left right g, part.Region objects known exact w o left right g ∧
      ∀ {known' w' part' g'}, Turned objects known known' exact w w' o left right part part' g g' →
        ∃ f', Turned objects known known' exact w w' p before after (context.fill part)
          (context.fill part') f f' := by
  induction context generalizing p before after f with
  | here => exact ⟨p, before, after, f, h, fun ht => ⟨_, ht⟩⟩
  | nested start stop shared front inner rest ih =>
    obtain ⟨hhas, label, closing, shown, hcopy, hfits⟩ := h.fits
    have hstands : shared.template.Stands objects known exact w p (before ++ [start]) (stop :: after)
        label closing shown f :=
      ⟨known.sound _ hhas, h.coherent, h.accounted, h.textLeaves, h.stretch, hcopy⟩
    obtain ⟨o, left, right, g, hregion, hback⟩ := hstands.focus_part hfits
    obtain ⟨o', left', right', g', hinner, hback'⟩ := ih hregion
    refine ⟨o', left', right', g', hinner, fun ht => ?_⟩
    obtain ⟨k, ht⟩ := hback' ht
    obtain ⟨shown', f', hturns, hst, hf⟩ := hback ht
    exact ⟨f', hturns, hst.stretch, rfl, rfl, hturns.grown.1 _ hhas, label, closing, shown',
      hst.copied, hf⟩
  | item start stop front inner rest ih =>
    obtain ⟨left, right, g, hregion, hback⟩ := h.focus_item
    obtain ⟨o', left', right', g', hinner, hback'⟩ := ih hregion
    refine ⟨o', left', right', g', hinner, fun ht => ?_⟩
    obtain ⟨k, ht⟩ := hback' ht
    exact hback ht

end NodePart

/-- The region of a part of a root, set apart: the root stands with whatever comes of the part. -/
theorem RenderRoot.Stands.focus {root : RenderRoot} {r : Renderer} {label closing : Nat → NodeId}
    {shown : List (Shown NodeId)} {site : Part.Site}
    (h : root.Stands objects known exact label closing shown f)
    (hr : r.cache.Coherent objects known) (hparts : root.parts = site.fill part) :
    ∃ o left right g, part.Region objects known exact (root.world r) o left right g ∧
      ∀ {known' w' part' g'},
        Turned objects known known' exact (root.world r) w' o left right part part' g g' →
        ∃ shown' f', RenderRoot.Stands objects known' exact
          { root with tree := w'.tree, parts := site.fill part' } label closing shown' f' := by
  obtain ⟨o, left, right, g, hregion, hback⟩ :=
    (h.template hr).focus_part (hparts ▸ h.fits)
  obtain ⟨o', left', right', g', hinner, hback'⟩ := site.context.focus hregion
  refine ⟨o', left', right', g', hinner, fun ht => ?_⟩
  obtain ⟨k, ht⟩ := hback' ht
  obtain ⟨shown', f', hturns, hst, hf⟩ := hback ht
  exact ⟨shown', f', h.turned hturns hst hf⟩

/-- A part of a root to which calls have led changes only its own region when it is given a value,
whether or not it is given it completely, and all parts keep to their regions. -/
theorem Host.Reachable.setValue_confined {h : Host} (hh : h.Reachable objects) {root : RenderRoot}
    (hroot : root ∈ h.roots) {r : Renderer} (hr : r ∈ h.renderers)
    (hpart : part ∈ Part.subpartsOfAll root.parts) (hs : s.deferreds.Faithful objects)
    (hvalue : value.Faithful objects) :
    let a := part.setValue s (root.world r) value
    NodePart.Confined root.tree a.world.tree part a.part ∧
      (∃ site : Part.Site, root.parts = site.fill part) ∧
      ∀ site : Part.Site, root.parts = site.fill part →
        Part.Apart a.world.tree (site.fill a.part) ∧
          Part.KeepsAll a.world.tree (site.fill a.part) := by
  intro a
  obtain ⟨known, hsound⟩ := hh.sound
  obtain ⟨label, closing, shown, f, hst⟩ := hsound.roots root hroot
  obtain ⟨i, hi⟩ := List.getElem?_of_mem hr
  have hcorrect : Patch.Correct (.within (Patch.depthFor s part.depth value.weight)) objects false
      s.strictValueCount s.deferreds (Patch.depthFor s part.depth value.weight) :=
    Patch.correct_within hs _
  -- Wherever the part is, its region is set apart and turned.
  have hgiven (site : Part.Site) (hsite : root.parts = site.fill part) :
      NodePart.Confined root.tree a.world.tree part a.part ∧
        ∃ known' shown' f', RenderRoot.Stands objects known' false
          { root with tree := a.world.tree, parts := site.fill a.part } label closing shown' f' := by
    obtain ⟨o, left, right, g, hregion, hback⟩ := hst.focus (hsound.renderers i r hi).2 hsite
    obtain ⟨known', g', houtcome⟩ := hcorrect rfl rfl hregion hvalue false
      ⟨fun he => (by cases he), fun he => by cases he⟩
    obtain ⟨shown', f', hstands⟩ := hback houtcome.turned
    exact ⟨houtcome.turned.confined hregion.stretch, known', shown', f', hstands⟩
  obtain ⟨site, hsite⟩ := Part.exists_site hpart
  refine ⟨(hgiven site hsite).1, ⟨site, hsite⟩, fun site hsite => ?_⟩
  obtain ⟨-, known', shown', f', hstands⟩ := hgiven site hsite
  have hsound' := known'.sound _ hstands.has
  exact ⟨hstands.copied.apart [] [] hsound' hstands.stretch rfl rfl hstands.fits,
    hstands.fits.keepsAll [] [] hstands.copied hsound' hstands.stretch rfl rfl⟩

/-- The paragraph's text gives way to a list, its class not being touched. -/
theorem Host.withParagraph_setValue_confined :
    ∃ root ∈ Host.withParagraph.roots, ∃ r ∈ Host.withParagraph.renderers,
      ∃ part ∈ Part.subpartsOfAll root.parts,
        let a := part.setValue {} (root.world r)
          (.iterable [.primitive (.str "one"), .primitive (.str "two")])
        NodePart.Confined root.tree a.world.tree part a.part ∧
          ∃ site : Part.Site, root.parts = site.fill part ∧
            Part.KeepsAll a.world.tree (site.fill a.part) := by
  obtain ⟨hroots, hrenderers⟩ := Host.withParagraph_length
  have hparts : 0 < (Part.subpartsOfAll Host.withParagraph.roots[0].parts).length := by
    decide +kernel +revert
  obtain ⟨hconfined, ⟨site, hsite⟩, hkeeps⟩ := Host.Reachable.setValue_confined
    Host.reachable_withParagraph (List.getElem_mem hroots) (List.getElem_mem hrenderers)
    (List.getElem_mem hparts) Setting.faithful_empty
    (show (Value.iterable [.primitive (.str "one"), .primitive (.str "two")]).Faithful _ from
      ⟨trivial, trivial, trivial⟩)
  exact ⟨_, List.getElem_mem hroots, _, List.getElem_mem hrenderers, _, List.getElem_mem hparts,
    hconfined, site, hsite, (hkeeps site hsite).2⟩

end LiveMarkup
