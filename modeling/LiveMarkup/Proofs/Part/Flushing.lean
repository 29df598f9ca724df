import LiveMarkup.Part.Flush
import LiveMarkup.Proofs.Part.Patching

set_option autoImplicit false

/-!
Applying what has settled. A flush walks down to the parts that wait and brings their regions in
step; every region on the way is a region again afterwards, whether or not the walk was stopped by
an error. If the deferred values that have settled came to what was expected, there is no error, and
every region will show what it was going to show before.
-/

namespace LiveMarkup

open Branch (labelsOfAll mapAll)
open NodePart (Listing Region Turned)

/-- Values end within the depth that is counted from their weight. -/
theorem Patch.lt_depthFor {s : Setting} {partDepth weight n : Nat} (h : n ≤ weight) :
    n < Patch.depthFor s partDepth weight := by
  have hle : 1 * (weight + s.deferreds.weight + 1) ≤ Patch.depthFor s partDepth weight :=
    Nat.mul_le_mul_right _ (by omega)
  omega

/-- A way to find templates goes with a cache for good. -/
structure Look.Lasts (look : Look) (objects : Objects) (c : TemplateCache) : Prop where
  agrees : ∀ c' known', c.Extends c' → c'.Coherent objects known' → look.Agrees objects c'
  yields : look.Yields objects c

theorem Look.Lasts.of_extends {look : Look} {objects : Objects} {c c' : TemplateCache}
    (h : look.Lasts objects c) (he : c.Extends c') : look.Lasts objects c' :=
  ⟨fun c'' known'' he' hc => h.agrees c'' known'' (he.trans he') hc, h.yields.of_extends he⟩

/-- Deferred values that are waited for come to what is expected of them: those that are rejected to
nothing, and the others to values without deferred ones that can be shown. -/
structure Forecast.Due (forecast : Forecast) (look : Look) (strict : Bool)
    (outcome : DeferredId → Settlement) : Prop where
  rejected : ∀ d, outcome d = .rejected → forecast d ≠ .gone → forecast d = .stays
  fulfilled : ∀ d value, outcome d = .fulfilled value → forecast d ≠ .gone →
    value.deferreds = [] ∧ ∃ bs, forecast d = .becomes bs ∧ value.denote look strict = some bs

variable {objects : Objects} {known : Registry} {exact : Bool} {w : World} {p : NodeId}
  {before after : List NodeId} {f : List (Branch NodeId)} {bs : List (Branch NodeKind)}
  {s : Setting} {forecast : Forecast}

theorem Forecast.after_of_waiting {ds : Deferreds} {d : DeferredId} (h : ds.poll d = .waiting) :
    forecast.after ds d = forecast d := by simp [after, h, Settlement.isSettled]

/-- What waits for a value is brought in step with it. -/
theorem NodePart.Region.settle {part : NodePart} {d : DeferredId}
    (h : part.Region objects known exact w p before after f) (hstate : part.state = .pending d)
    (hs : s.deferreds.Faithful objects) (report : FlushReport)
    (hread : part.Reads forecast objects known w.tree.kind exact f bs) :
    let a := part.settle s w report d
    ∃ known' f', Turned objects known known' exact w a.world p before after part a.part f f' ∧
      ∀ look : Look, look.Lasts objects w.cache →
        forecast.Due look s.strictValueCount s.deferreds.poll → a.error = none ∧
        a.part.Reads (forecast.after s.deferreds) objects known' a.world.tree.kind exact f' bs := by
  obtain ⟨start, stop, state⟩ := part
  obtain rfl : state = .pending d := hstate
  have hexpected : forecast d ≠ .gone := fun hd => by
    rw [NodePart.Reads, hd] at hread
    exact hread
  unfold NodePart.settle
  cases hpoll : s.deferreds.poll d with
  | waiting =>
    refine ⟨known, f, h.turned_refl rfl rfl rfl rfl h.fits, fun look _ _ => ⟨rfl, ?_⟩⟩
    rw [NodePart.Reads, Forecast.after_of_waiting hpoll]
    rwa [NodePart.Reads] at hread
  | rejected =>
    refine ⟨known, f, h.turned_refl rfl rfl rfl rfl trivial, fun look _ hdue => ⟨rfl, ?_⟩⟩
    rw [NodePart.Reads, hdue.rejected d hpoll hexpected] at hread
    exact hread
  | fulfilled value =>
    have htree : (w.report (.appliedOutcome value.kind)).tree = w.tree := rfl
    have hw := h.later (Registry.le_refl known) htree h.coherent
    have hcorrect : Patch.Correct
        (.within (Patch.depthFor s (NodePart.mk start stop (.pending d)).depth value.weight)) objects
        exact s.strictValueCount s.deferreds
        (Patch.depthFor s (NodePart.mk start stop (.pending d)).depth value.weight) :=
      Patch.correct_within hs _
    obtain ⟨known', f', ho⟩ := hcorrect rfl rfl hw (hs d value hpoll) false
      ⟨fun _ => ⟨fun _ _ he => (by cases he), fun _ he => (by cases he)⟩, fun he => (by cases he)⟩
    have ht := ho.turned
    refine ⟨known', f', ⟨ht.turns.of_tree rfl rfl rfl rfl, ht.stretch, ht.start_eq, ht.stop_eq,
      ht.fits⟩, fun look hlook hdue => ?_⟩
    obtain ⟨hnil, cs, hbecomes, hdenote⟩ := hdue.fulfilled d value hpoll hexpected
    have hplain : value.Plain false s.deferreds := Value.plain_of_nil hnil
    have herror := ho.succeeds (.inl (Patch.lt_depthFor (Nat.le_refl _))) hplain.1 look hlook.yields
      (by rw [hdenote]; exact Option.some_ne_none cs)
    refine ⟨herror, ?_⟩
    obtain ⟨cs', hcs', hread'⟩ := ho.reads herror hplain look (forecast.after s.deferreds)
      (hlook.agrees _ _ ht.turns.extends_cache ht.turns.coherent) (Value.foreseeable_of_nil hnil)
    rw [Value.foresee_of_nil hnil, hdenote] at hcs'
    obtain rfl := Option.some.inj hcs'
    rw [NodePart.Reads, hbecomes] at hread
    exact hread ▸ hread'

namespace NodePart.Listing

variable {part : NodePart} {ps qs : List NodePart} {cells left : Cells}

theorem laid_of_ne (h : Listing objects known exact w p before after part.start part.stop ps qs cells
    left f) (hne : ps ++ qs ≠ []) : (cells ++ left).branches = .node part.start [] :: f := by
  refine h.laid.resolve_left fun hnil => hne ?_
  have hlength := (h.done.append h.waiting).length_eq
  rw [hnil.1] at hlength
  exact List.length_eq_zero_iff.1 hlength

/-- The items of a list that is being brought in step are still those of a list. -/
theorem fits (h : Listing objects known exact w p before after part.start part.stop ps qs cells left f)
    (hne : ps ++ qs ≠ []) :
    (part.withState (.items (ps ++ qs))).Fits objects known w.tree.kind exact f :=
  fits_withState_items (h.laid_of_ne hne) h.texts (h.done.append h.waiting)

end NodePart.Listing

mutual

theorem NodePart.reads_flush {s : Setting} {known : Registry} {w : World} {p : NodeId}
    {before after : List NodeId} {f : List (Branch NodeId)} {bs : List (Branch NodeKind)}
    (report : FlushReport) (part : NodePart)
    (h : part.Region objects known exact w p before after f) (hs : s.deferreds.Faithful objects)
    (hread : part.Reads forecast objects known w.tree.kind exact f bs) :
    let a := part.flush s w report
    ∃ known' f', Turned objects known known' exact w a.world p before after part a.part f f' ∧
      ∀ look : Look, look.Lasts objects w.cache →
        forecast.Due look s.strictValueCount s.deferreds.poll → a.error = none ∧
        a.part.Reads (forecast.after s.deferreds) objects known' a.world.tree.kind exact f' bs := by
  match part with
  | .mk start stop (.pending d) =>
    rw [NodePart.flush]
    exact h.settle rfl hs report hread
  | .mk start stop (.nested shared parts) =>
    obtain ⟨hhas, label, closing, shown, read, hcopy, hfits, hreads, rfl⟩ := hread
    have hstands : shared.template.Stands objects known exact w p (before ++ [start]) (stop :: after)
        label closing ([] ++ shown) f :=
      ⟨known.sound _ hhas, h.coherent, h.accounted, h.textLeaves, h.stretch, hcopy⟩
    have hnone : Part.FitsAll objects known w.tree.kind exact label
        (shared.template.stopAt label closing) [] [] [] := ⟨rfl, rfl⟩
    obtain ⟨known', shown', f', ht, hst, hfits', hreads'⟩ :=
      Part.reads_flushAll report parts hstands (List.nil_append _).symm hnone hfits hs hreads
    rw [NodePart.flush]
    refine ⟨known', f', ⟨ht, hst.stretch, rfl, rfl, ht.grown.1 _ hhas, label, closing, shown',
      hst.copied, hfits'⟩, fun look hlook hdue => ?_⟩
    obtain ⟨herror, hreads'⟩ := hreads' look hlook hdue [] ⟨rfl, rfl⟩
    exact ⟨herror, ht.grown.1 _ hhas, label, closing, shown', read, hst.copied, hfits', hreads', rfl⟩
  | .mk start stop (.items parts) =>
    obtain ⟨cells, bss, hlaid, htexts, hcells, hreads, rfl⟩ := hread
    have hlisting : Listing objects known exact w p before after start stop [] parts [] cells f :=
      ⟨h.coherent, h.accounted, h.textLeaves, h.stretch, .inr hlaid, Cells.texts_tail htexts, rfl,
        hcells⟩
    have hne : parts ≠ [] := hcells.placedAll.ne_nil hlaid
    obtain ⟨known', f', ht, hst, hfits, hreads'⟩ := NodePart.reads_flushAll report
      (.mk start stop (.items parts)) parts hlisting (by simpa using hne) hs hreads
    rw [NodePart.flush]
    exact ⟨known', f', ⟨ht, hst, rfl, rfl, hfits⟩, fun look hlook hdue =>
      hreads' look hlook hdue [] ⟨rfl, rfl⟩⟩
  | .mk start stop .empty | .mk start stop (.text _) | .mk start stop (.node _) =>
    exact ⟨known, f, h.turned_refl rfl rfl rfl rfl h.fits, fun _ _ _ => ⟨rfl, hread⟩⟩

theorem NodePart.reads_flushAll {s : Setting} {known : Registry} {w : World} {p : NodeId}
    {before after : List NodeId} {f : List (Branch NodeId)} (report : FlushReport) (part : NodePart)
    {ps : List NodePart} {cells left : Cells} {bss : List (List (Branch NodeKind))}
    (qs : List NodePart)
    (h : Listing objects known exact w p before after part.start part.stop ps qs cells left f)
    (hne : ps ++ qs ≠ []) (hs : s.deferreds.Faithful objects)
    (hread : NodePart.ReadsCells forecast objects known w.tree.kind exact qs left bss) :
    let a := NodePart.flushAll s w report ps.reverse qs
    ∃ known' f', World.Turns objects known known' w a.world p (labelsOfAll f) (labelsOfAll f') ∧
      Tree.Stretch a.world.tree p (before ++ [part.start]) f' (part.stop :: after) ∧
      (part.withState (.items a.part)).Fits objects known' a.world.tree.kind exact f' ∧
      ∀ look : Look, look.Lasts objects w.cache →
        forecast.Due look s.strictValueCount s.deferreds.poll → ∀ first,
        NodePart.ReadsCells (forecast.after s.deferreds) objects known w.tree.kind exact ps cells
          first →
        a.error = none ∧ (part.withState (.items a.part)).Reads (forecast.after s.deferreds) objects
          known' a.world.tree.kind exact f' (Branch.separated (first ++ bss)) := by
  match qs with
  | [] =>
    obtain ⟨rfl, rfl⟩ := hread
    have hlaid := h.laid_of_ne hne
    have htexts := h.texts
    rw [List.append_nil] at hlaid htexts
    have hfits := h.fits hne
    rw [List.append_nil] at hfits
    rw [NodePart.flushAll, List.reverse_reverse]
    refine ⟨known, f, .of_exchange h.coherent rfl (.refl h.accounted p _) h.textLeaves, h.stretch,
      hfits, fun _ _ _ first hfirst => ⟨rfl, ?_⟩⟩
    rw [List.append_nil]
    exact NodePart.reads_withState_items hlaid htexts h.done hfirst
  | q :: qs =>
    obtain ⟨n, g, rest, bs, others, rfl, rfl, hq, hread⟩ := hread
    obtain ⟨before', after', hregion, hback⟩ := h.focus
    obtain ⟨holding, hholding⟩ : ∃ holding, holding =
        s.holding (NodePart.heldByAll ps.reverse ++ NodePart.heldByAll qs) := ⟨_, rfl⟩
    have hds : holding.deferreds = s.deferreds := by rw [hholding]; rfl
    obtain ⟨known₁, g', ht, hq'⟩ := NodePart.reads_flush report q hregion (hds ▸ hs) hq
    obtain ⟨f₁, hturns, hlisting, hkept⟩ := hback ht
    obtain ⟨a, ha⟩ : ∃ a, a = q.flush holding w report := ⟨_, rfl⟩
    rw [← ha] at hturns hlisting hkept hq'
    have hq' (look : Look) (hlook : look.Lasts objects w.cache)
        (hdue : forecast.Due look s.strictValueCount s.deferreds.poll) :
        a.error = none ∧ a.part.Reads (forecast.after s.deferreds) objects known₁ a.world.tree.kind
          exact g' bs := by
      have hdue' : forecast.Due look holding.strictValueCount holding.deferreds.poll := by
        rw [hholding]
        exact hdue
      exact hds ▸ hq' look hlook hdue'
    have hrest : NodePart.ReadsCells forecast objects known₁ a.world.tree.kind exact qs rest others :=
      hread.mono hturns.grown.1 hkept.right
    rw [NodePart.flushAll]
    simp only [← hholding, ← ha]
    cases herror : a.error with
    | some e =>
      have hfits := hlisting.fits (by simp)
      rw [List.append_assoc, List.singleton_append] at hfits
      simp only [Flushed.map, List.reverse_reverse]
      refine ⟨known₁, f₁, hturns, hlisting.stretch, hfits, fun look hlook hdue => ?_⟩
      rw [(hq' look hlook hdue).1] at herror
      cases herror
    | none =>
      obtain ⟨known₂, f₂, hturns', hst, hfits, hreads⟩ :=
        NodePart.reads_flushAll a.report part qs hlisting (by simp) hs hrest
      rw [List.reverse_append, List.reverse_singleton, List.singleton_append]
        at hturns' hst hfits hreads
      refine ⟨known₂, f₂, hturns.trans hturns', hst, hfits, fun look hlook hdue first hfirst => ?_⟩
      have hall := hreads look (hlook.of_extends hturns.extends_cache) hdue _
        ((hfirst.mono hturns.grown.1 hkept.left).snoc (hq' look hlook hdue).2)
      rwa [← List.append_cons] at hall

theorem Part.reads_flushAll {s : Setting} {known : Registry} {w : World} {p : NodeId}
    {before after : List NodeId} {f : List (Branch NodeId)} (report : FlushReport) {t : Template}
    {label closing : Nat → NodeId} {qs : List Part} {front cs : List TemplatePart}
    {done ss : List (Shown NodeId)} {read : List (Shown NodeKind)} (ps : List Part)
    (h : t.Stands objects known exact w p before after label closing (done ++ ss) f)
    (hparts : t.parts = front ++ cs)
    (hdone : Part.FitsAll objects known w.tree.kind exact label (t.stopAt label closing) qs front
      done)
    (hleft : Part.FitsAll objects known w.tree.kind exact label (t.stopAt label closing) ps cs ss)
    (hs : s.deferreds.Faithful objects)
    (hread : Part.ReadsAll forecast objects known w.tree.kind exact ps ss read) :
    let a := Part.flushAll s w report qs.reverse ps
    ∃ known' shown f', World.Turns objects known known' w a.world p (labelsOfAll f)
        (labelsOfAll f') ∧
      t.Stands objects known' exact a.world p before after label closing shown f' ∧
      Part.FitsAll objects known' a.world.tree.kind exact label (t.stopAt label closing) a.part
        t.parts shown ∧
      ∀ look : Look, look.Lasts objects w.cache →
        forecast.Due look s.strictValueCount s.deferreds.poll → ∀ first,
        Part.ReadsAll (forecast.after s.deferreds) objects known w.tree.kind exact qs done first →
        a.error = none ∧ Part.ReadsAll (forecast.after s.deferreds) objects known'
          a.world.tree.kind exact a.part shown (first ++ read) := by
  match ps with
  | [] =>
    obtain ⟨rfl, rfl⟩ := hleft
    obtain ⟨-, rfl⟩ := hread
    rw [Part.flushAll, List.reverse_reverse]
    rw [List.append_nil] at hparts h
    refine ⟨known, done, f, .of_exchange h.coherent rfl (.refl h.accounted p _) h.textLeaves, h,
      hparts ▸ hdone, fun _ _ _ first hfirst => ⟨rfl, ?_⟩⟩
    rwa [List.append_nil]
  | .attribute part :: ps =>
    obtain ⟨c, cs, s', ss, rfl, rfl, hpart, hleft⟩ := hleft
    obtain ⟨_, _, b, read, he, rfl, hb, hread⟩ := hread
    obtain ⟨rfl, rfl⟩ := List.cons.inj he
    rw [List.append_cons] at h hparts
    rw [Part.flushAll]
    obtain ⟨known', shown, f', hturns, hst, hfits, hreads⟩ :=
      Part.reads_flushAll report ps h hparts (hdone.snoc hpart) hleft hs hread
    rw [List.reverse_append, List.reverse_singleton, List.singleton_append]
        at hturns hst hfits hreads
    refine ⟨known', shown, f', hturns, hst, hfits, fun look hlook hdue first hfirst => ?_⟩
    have hall := hreads look hlook hdue _ (hfirst.snoc (p := .attribute part) hb)
    rwa [← List.append_cons] at hall
  | .node part :: ps =>
    obtain ⟨c, cs, s', ss, rfl, rfl, hpart, hleft⟩ := hleft
    obtain ⟨g, rfl, hk, hstart, hstop, hfits⟩ := hpart
    obtain ⟨_, _, _, read, he, rfl, ⟨g₀, bs, rfl, rfl, hpart⟩, hread⟩ := hread
    obtain ⟨hg, rfl⟩ := List.cons.inj he
    obtain rfl := Shown.region.inj hg
    obtain ⟨q, left, right, hregion, hback⟩ := h.focus hparts hk hdone.length_eq.2 hstart hstop
      hfits
    obtain ⟨holding, hholding⟩ : ∃ holding, holding =
        s.holding (Part.heldByAll qs.reverse ++ Part.heldByAll ps) := ⟨_, rfl⟩
    have hds : holding.deferreds = s.deferreds := by rw [hholding]; rfl
    obtain ⟨known₁, g', ht, hpart'⟩ := NodePart.reads_flush report part hregion (hds ▸ hs) hpart
    obtain ⟨f₁, hturns, hstands, hkept⟩ := hback ht
    obtain ⟨a, ha⟩ : ∃ a, a = part.flush holding w report := ⟨_, rfl⟩
    rw [← ha] at hturns hstands hkept ht hpart'
    have hpart' (look : Look) (hlook : look.Lasts objects w.cache)
        (hdue : forecast.Due look s.strictValueCount s.deferreds.poll) :
        a.error = none ∧ a.part.Reads (forecast.after s.deferreds) objects known₁ a.world.tree.kind
          exact g' bs := by
      have hdue' : forecast.Due look holding.strictValueCount holding.deferreds.poll := by
        rw [hholding]
        exact hdue
      exact hds ▸ hpart' look hlook hdue'
    have hgrown := hturns.grown.1
    have hnode : Part.Fits objects known₁ a.world.tree.kind exact label
        (t.stopAt label closing) (.node a.part) c (.region g') :=
      ⟨g', rfl, hk, ht.start_eq.trans hstart, ht.stop_eq.trans hstop, ht.fits⟩
    have hdone' := (hdone.kept hkept (List.subset_append_left _ _) hgrown).snoc hnode
    have hleft' := hleft.kept hkept (List.subset_append_right _ _) hgrown
    have hread' : Part.ReadsAll forecast objects known₁ a.world.tree.kind exact ps ss read :=
      hread.mono hgrown fun k hk => hkept k (List.mem_append_right _ hk)
    rw [Part.flushAll]
    simp only [← hholding, ← ha]
    cases herror : a.error with
    | some e =>
      have hall := hdone'.append hleft'
      rw [List.append_assoc, List.append_assoc, List.append_assoc] at hall
      simp only [Flushed.map, List.reverse_reverse]
      refine ⟨known₁, _, f₁, hturns, hstands, hparts ▸ hall, fun look hlook hdue => ?_⟩
      rw [(hpart' look hlook hdue).1] at herror
      cases herror
    | none =>
      rw [List.append_cons] at hstands hparts
      obtain ⟨known₂, shown, f₂, hturns', hst, hfits', hreads⟩ :=
        Part.reads_flushAll a.report ps hstands hparts hdone' hleft' hs hread'
      rw [List.reverse_append, List.reverse_singleton, List.singleton_append]
        at hturns' hst hfits' hreads
      refine ⟨known₂, shown, f₂, hturns.trans hturns', hst, hfits',
        fun look hlook hdue first hfirst => ?_⟩
      have hfirst' := (hfirst.mono hgrown fun k hk => hkept k (List.mem_append_left _ hk)).snoc
        (p := .node a.part) ⟨g', bs, rfl, rfl, (hpart' look hlook hdue).2⟩
      have hall := hreads look (hlook.of_extends hturns.extends_cache) hdue _ hfirst'
      rwa [← List.append_cons] at hall

end

end LiveMarkup
