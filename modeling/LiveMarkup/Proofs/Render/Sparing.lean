import LiveMarkup.Proofs.Part.Waiting
import LiveMarkup.Proofs.Render.Regions
import LiveMarkup.Proofs.Tree.Sparing

set_option autoImplicit false

/-!
What a flush leaves alone. Which branches stand between the ends of a part is settled by the part
that it is below, so a change elsewhere does not move them; and each part that a flush comes to
gives up no nodes but those in its own region.
-/

namespace LiveMarkup

open Branch (labelsOfAll)
open LiveMarkup.Tree (Stretch Spares)
open NodePart (Listing Region)

/-- Between two siblings there are just the given branches. -/
def Tree.Fenced (t : Tree) (start stop : NodeId) (f : List (Branch NodeId)) : Prop :=
  ∃ p left right, Stretch t p (left ++ [start]) f (stop :: right)

/-- Whether a part waits for a value that is there. -/
def NodePart.isDue (ds : Deferreds) (part : NodePart) : Bool :=
  match part.state with
  | .pending d => (ds.outcome? d).isSome
  | _ => false

/-- The nodes in the regions of those parts that wait for values that are there. -/
def NodePart.dueNodes (ds : Deferreds) (t : Tree) (parts : List NodePart) : List NodeId :=
  (parts.filter (·.isDue ds)).flatMap fun part => t.region part.start part.stop

variable {objects : Objects} {known known' : Registry} {exact : Bool} {w w' : World} {p : NodeId}
  {before after : List NodeId} {start stop : NodeId} {f g : List (Branch NodeId)}
  {kind : NodeId → NodeKind} {s : Setting} {t t' : Tree} {part q : NodePart} {ds : Deferreds}

theorem Tree.Fenced.region_eq (h : t.Fenced start stop f) : t.region start stop = labelsOfAll f := by
  obtain ⟨p, left, right, hst⟩ := h
  exact hst.region_eq

theorem Tree.Fenced.eq_map_branch (h : t.Fenced start stop f) :
    f = (t.between start stop).map t.branch := by
  obtain ⟨p, left, right, hst⟩ := h
  rw [hst.between_eq, hst.holds.map_branch hst.nodup_labels]

/-- Two siblings have one list of branches between them. -/
theorem Tree.Fenced.unique (h : t.Fenced start stop f) (h' : t.Fenced start stop g) : f = g :=
  h.eq_map_branch.trans h'.eq_map_branch.symm

namespace NodePart

theorem dueNodes_append (ps qs : List NodePart) :
    dueNodes ds t (ps ++ qs) = dueNodes ds t ps ++ dueNodes ds t qs := by
  simp [dueNodes]

theorem dueNodes_congr {parts : List NodePart}
    (h : ∀ q ∈ parts, t'.region q.start q.stop = t.region q.start q.stop) :
    dueNodes ds t' parts = dueNodes ds t parts :=
  List.flatMap_congr fun q hq => h q (List.mem_of_mem_filter hq)

theorem subset_dueNodes_subparts (part : NodePart) :
    dueNodes ds t part.state.subparts ⊆ dueNodes ds t part.subparts := by
  rw [subparts_eq, ← List.singleton_append, dueNodes_append]
  exact List.subset_append_right _ _

end NodePart

/-- A cell of a list is fenced by where it begins and where the next begins. -/
theorem Cells.fenced {cells rest : Cells} {n : NodeId}
    (h : branches (cells ++ (n, g) :: rest) = .node start [] :: f)
    (hst : Stretch t p (before ++ [start]) f (stop :: after)) :
    t.Fenced n (Cells.start stop rest) g := by
  obtain ⟨left, rfl, -, hbefore⟩ := exists_split h
  obtain ⟨before', hb⟩ := hbefore before
  obtain ⟨after', ha⟩ := exists_after rest stop after
  have hnarrow := hst.narrow
  rw [hb, ha] at hnarrow
  exact ⟨p, before', after', hnarrow⟩

mutual

/-- What stands between the ends of a part below is settled by what stands between the part's own. -/
theorem NodePart.Fits.exists_fenced {part : NodePart} {f : List (Branch NodeId)}
    (h : part.Fits objects known kind exact f) {q : NodePart} (hq : q ∈ part.subparts) :
    ∃ g, ∀ t : Tree, t.Fenced part.start part.stop f → t.Fenced q.start q.stop g := by
  match part with
  | .mk start stop (.nested shared parts) =>
    rw [NodePart.subparts, NodeState.subparts, List.mem_cons] at hq
    rcases hq with rfl | hq
    · exact ⟨f, fun _ ht => ht⟩
    obtain ⟨hhas, label, closing, shown, hcopy, hfits⟩ := h
    obtain ⟨front, c, rest, done, g, left, g', hparts, rfl, hl, hk, hq⟩ := hfits.exists_fenced hq
    refine ⟨g', fun t ht => hq t ?_⟩
    obtain ⟨p, before, after, hst⟩ := ht
    exact hcopy.exists_stretch (known.sound _ hhas) hst hparts hk hl
  | .mk start stop (.items parts) =>
    rw [NodePart.subparts, NodeState.subparts, List.mem_cons] at hq
    rcases hq with rfl | hq
    · exact ⟨f, fun _ ht => ht⟩
    obtain ⟨cells, hlaid, -, hcells⟩ := h
    obtain ⟨front, n, g, rest, g', rfl, hq⟩ := hcells.exists_fenced hq
    refine ⟨g', fun t ht => hq t ?_⟩
    obtain ⟨p, before, after, hst⟩ := ht
    exact Cells.fenced hlaid hst
  | .mk start stop .empty | .mk start stop (.text _) | .mk start stop (.node _)
  | .mk start stop (.pending _) =>
    obtain rfl : q = _ := by simpa [NodePart.subparts, NodeState.subparts] using hq
    exact ⟨f, fun _ ht => ht⟩

theorem NodePart.FitsCells.exists_fenced {stop : NodeId} {parts : List NodePart} {cells : Cells}
    (h : NodePart.FitsCells objects known kind exact stop parts cells) {q : NodePart}
    (hq : q ∈ NodePart.subpartsOfAll parts) :
    ∃ front n g rest g', cells = front ++ (n, g) :: rest ∧
      ∀ t : Tree, t.Fenced n (Cells.start stop rest) g → t.Fenced q.start q.stop g' := by
  match parts with
  | part :: ps =>
    obtain ⟨n, f, rest, rfl, rfl, hstop, hfits, h⟩ := h
    rw [NodePart.subpartsOfAll, List.mem_append] at hq
    rcases hq with hq | hq
    · obtain ⟨g', hq⟩ := hfits.exists_fenced hq
      exact ⟨[], part.start, f, rest, g', rfl, fun t ht => hq t (hstop ▸ ht)⟩
    · obtain ⟨front, m, g, rest', g', rfl, hq⟩ := h.exists_fenced hq
      exact ⟨(part.start, f) :: front, m, g, rest', g', rfl, hq⟩

theorem Part.FitsAll.exists_fenced {label stop : Nat → NodeId} {parts : List Part}
    {cs : List TemplatePart} {shown : List (Shown NodeId)}
    (h : Part.FitsAll objects known kind exact label stop parts cs shown) {q : NodePart}
    (hq : q ∈ Part.subpartsOfAll parts) :
    ∃ front c rest done g left g', cs = front ++ c :: rest ∧ shown = done ++ .region g :: left ∧
      front.length = done.length ∧ c.kind = .node ∧
      ∀ t : Tree, t.Fenced (label c.index) (stop c.index) g → t.Fenced q.start q.stop g' := by
  match parts with
  | .attribute part :: ps =>
    obtain ⟨c, cs, b, shown, rfl, rfl, -, h⟩ := h
    obtain ⟨front, d, rest, done, g, left, g', rfl, rfl, hl, hk, hq⟩ := h.exists_fenced hq
    exact ⟨c :: front, d, rest, b :: done, g, left, g', rfl, rfl, congrArg (· + 1) hl, hk, hq⟩
  | .node part :: ps =>
    obtain ⟨c, cs, b, shown, rfl, rfl, ⟨f, rfl, hk, hstart, hstop, hfits⟩, h⟩ := h
    rw [Part.subpartsOfAll, List.mem_append] at hq
    rcases hq with hq | hq
    · obtain ⟨g', hq⟩ := hfits.exists_fenced hq
      exact ⟨[], c, cs, [], f, shown, g', rfl, rfl, rfl, hk,
        fun t ht => hq t (hstart ▸ hstop ▸ ht)⟩
    · obtain ⟨front, d, rest, done, g, left, g', rfl, rfl, hl, hk, hq⟩ := h.exists_fenced hq
      exact ⟨c :: front, d, rest, .region f :: done, g, left, g', rfl, rfl, congrArg (· + 1) hl, hk,
        hq⟩

end

/-- Where the parts of the last items stand does not depend on the items before them. -/
theorem NodePart.FitsCells.region_eq {qs : List NodePart} {cells cells' rest : Cells}
    {start' p' : NodeId} {before' after' : List NodeId} {f' : List (Branch NodeId)}
    (h : NodePart.FitsCells objects known kind exact stop qs rest)
    (hlaid : Cells.branches (cells ++ rest) = .node start [] :: f)
    (hst : Stretch t p (before ++ [start]) f (stop :: after))
    (hlaid' : Cells.branches (cells' ++ rest) = .node start' [] :: f')
    (hst' : Stretch t' p' (before' ++ [start']) f' (stop :: after'))
    (hq : q ∈ NodePart.subpartsOfAll qs) :
    t'.region q.start q.stop = t.region q.start q.stop := by
  obtain ⟨front, n, g, rest, g', rfl, hq⟩ := h.exists_fenced hq
  rw [← List.append_assoc] at hlaid hlaid'
  rw [(hq _ (Cells.fenced hlaid hst)).region_eq, (hq _ (Cells.fenced hlaid' hst')).region_eq]

/-- Where the last parts of a copy stand does not depend on what those before them show. -/
theorem Template.Stands.region_eq {t : Template} {label closing : Nat → NodeId}
    {cs front : List TemplatePart} {done done' ss : List (Shown NodeId)} {ps : List Part}
    {f' : List (Branch NodeId)}
    (h : t.Stands objects known exact w p before after label closing (done ++ ss) f)
    (h' : t.Stands objects known' exact w' p before after label closing (done' ++ ss) f')
    (hp : t.parts = front ++ cs) (hl : front.length = done.length)
    (hl' : front.length = done'.length)
    (hfits : Part.FitsAll objects known w.tree.kind exact label (t.stopAt label closing) ps cs ss)
    (hq : q ∈ Part.subpartsOfAll ps) :
    w'.tree.region q.start q.stop = w.tree.region q.start q.stop := by
  obtain ⟨front', c, rest, seen, g, left, g', rfl, rfl, hl₂, hk, hq⟩ := hfits.exists_fenced hq
  have hparts : t.parts = (front ++ front') ++ c :: rest := by rw [hp, List.append_assoc]
  have hcopied := h.copied
  have hcopied' := h'.copied
  rw [← List.append_assoc] at hcopied hcopied'
  have hfenced : w.tree.Fenced (label c.index) (t.stopAt label closing c.index) g :=
    hcopied.exists_stretch h.sound h.stretch hparts hk (by simp [hl, hl₂])
  have hfenced' : w'.tree.Fenced (label c.index) (t.stopAt label closing c.index) g :=
    hcopied'.exists_stretch h.sound h'.stretch hparts hk (by simp [hl', hl₂])
  rw [(hq _ hfenced).region_eq, (hq _ hfenced').region_eq]

/-- A part that waits gives up what is in its region, and that only if the value is there. -/
theorem NodePart.Region.spares_settle {d : DeferredId}
    (h : part.Region objects known exact w p before after f) (hstate : part.state = .pending d)
    (hs : s.deferreds.Faithful objects) (report : FlushReport) :
    w.tree.Spares (part.settle s w report d).world.tree
      (NodePart.dueNodes s.deferreds w.tree [part]) := by
  by_cases hdue : part.isDue s.deferreds = true
  · obtain ⟨bs, hread⟩ := h.fits.exists_reads
    obtain ⟨known', f', ht, -⟩ := h.settle hstate hs report hread
    have hgone : NodePart.dueNodes s.deferreds w.tree [part] = labelsOfAll f := by
      simp [NodePart.dueNodes, hdue, h.stretch.region_eq]
    rw [hgone]
    exact .of_exchange h.stretch ht.turns.exchange ht.stretch
  · have hnot : ¬ s.deferreds.Fulfilled d := by
      rintro ⟨value, hpoll⟩
      simp [NodePart.isDue, hstate, Deferreds.outcome?, hpoll, Settlement.value?] at hdue
    rw [(NodePart.tree_settle report hnot).1]
    exact .refl _ _

mutual

theorem NodePart.spares_flush {s : Setting} {known : Registry} {w : World} {p : NodeId}
    {before after : List NodeId} {f : List (Branch NodeId)} (report : FlushReport) (part : NodePart)
    (h : part.Region objects known exact w p before after f) (hs : s.deferreds.Faithful objects) :
    w.tree.Spares (part.flush s w report).world.tree
      (NodePart.dueNodes s.deferreds w.tree part.subparts) := by
  match part with
  | .mk start stop (.pending d) =>
    rw [NodePart.flush]
    exact h.spares_settle rfl hs report
  | .mk start stop (.nested shared parts) =>
    obtain ⟨hhas, label, closing, shown, hcopy, hfits⟩ := h.fits
    have hstands : shared.template.Stands objects known exact w p (before ++ [start]) (stop :: after)
        label closing ([] ++ shown) f :=
      ⟨known.sound _ hhas, h.coherent, h.accounted, h.textLeaves, h.stretch, hcopy⟩
    rw [NodePart.flush]
    exact (Part.spares_flushAll report [] parts hstands (List.nil_append _).symm rfl hfits hs).mono
      (NodePart.subset_dueNodes_subparts (.mk start stop (.nested shared parts)))
  | .mk start stop (.items parts) =>
    obtain ⟨cells, hlaid, htexts, hcells⟩ := h.fits
    have hlisting : Listing objects known exact w p before after start stop [] parts [] cells f :=
      ⟨h.coherent, h.accounted, h.textLeaves, h.stretch, .inr hlaid, Cells.texts_tail htexts, rfl,
        hcells⟩
    rw [NodePart.flush]
    exact (NodePart.spares_flushAll report [] parts hlisting hs).mono
      (NodePart.subset_dueNodes_subparts (.mk start stop (.items parts)))
  | .mk start stop .empty | .mk start stop (.text _) | .mk start stop (.node _) =>
    rw [NodePart.flush]
    · exact .refl _ _
    all_goals simp

theorem NodePart.spares_flushAll {s : Setting} {known : Registry} {w : World} {p : NodeId}
    {before after : List NodeId} {start stop : NodeId} {f : List (Branch NodeId)}
    (report : FlushReport) (done : List NodePart) {ps : List NodePart} {cells left : Cells}
    (qs : List NodePart)
    (h : Listing objects known exact w p before after start stop ps qs cells left f)
    (hs : s.deferreds.Faithful objects) :
    w.tree.Spares (NodePart.flushAll s w report done qs).world.tree
      (NodePart.dueNodes s.deferreds w.tree (NodePart.subpartsOfAll qs)) := by
  match qs with
  | [] =>
    rw [NodePart.flushAll]
    exact .refl _ _
  | q :: qs =>
    obtain ⟨n, g, rest, rfl, hstart, hstop, hfits, hwaiting⟩ := h.waiting
    obtain ⟨before', after', hregion, hback⟩ := h.focus
    obtain ⟨holding, hholding⟩ : ∃ holding, holding =
        s.holding (NodePart.heldByAll done ++ NodePart.heldByAll qs) := ⟨_, rfl⟩
    have hds : holding.deferreds = s.deferreds := by rw [hholding]; rfl
    obtain ⟨bs, hread⟩ := hregion.fits.exists_reads
    obtain ⟨known₁, g', ht, -⟩ := NodePart.reads_flush report q hregion (hds ▸ hs) hread
    have hfirst := NodePart.spares_flush report q hregion (hds ▸ hs)
    obtain ⟨f₁, -, hlisting, -⟩ := hback ht
    obtain ⟨a, ha⟩ : ∃ a, a = q.flush holding w report := ⟨_, rfl⟩
    rw [← ha] at hlisting hfirst
    rw [hds] at hfirst
    rw [NodePart.flushAll, NodePart.subpartsOfAll, NodePart.dueNodes_append]
    simp only [← hholding, ← ha]
    cases herror : a.error with
    | some e => exact hfirst.mono (List.subset_append_left _ _)
    | none =>
      have hrest := NodePart.spares_flushAll a.report (a.part :: done) qs hlisting hs
      -- The nodes that are given up from here on are named in the tree that this part has left; they
      -- are the same in the tree before, as the items that follow stand where they stood.
      have hlaid := h.laid.resolve_left (by simp)
      have hlaid' := hlisting.laid.resolve_left (by simp)
      rw [List.append_cons] at hlaid
      rw [NodePart.dueNodes_congr fun _ => hwaiting.region_eq hlaid h.stretch hlaid' hlisting.stretch]
        at hrest
      exact hfirst.trans hrest

theorem Part.spares_flushAll {s : Setting} {known : Registry} {w : World} {p : NodeId}
    {before after : List NodeId} {f : List (Branch NodeId)} (report : FlushReport)
    (finished : List Part) {t : Template} {label closing : Nat → NodeId}
    {front cs : List TemplatePart} {done ss : List (Shown NodeId)} (ps : List Part)
    (h : t.Stands objects known exact w p before after label closing (done ++ ss) f)
    (hparts : t.parts = front ++ cs) (hl : front.length = done.length)
    (hfits : Part.FitsAll objects known w.tree.kind exact label (t.stopAt label closing) ps cs ss)
    (hs : s.deferreds.Faithful objects) :
    w.tree.Spares (Part.flushAll s w report finished ps).world.tree
      (NodePart.dueNodes s.deferreds w.tree (Part.subpartsOfAll ps)) := by
  match ps with
  | [] =>
    rw [Part.flushAll]
    exact .refl _ _
  | .attribute part :: ps =>
    obtain ⟨c, cs, b, ss, rfl, rfl, -, hfits⟩ := hfits
    rw [List.append_cons] at h hparts
    rw [Part.flushAll]
    exact Part.spares_flushAll report (.attribute part :: finished) ps h hparts (by simp [hl]) hfits hs
  | .node part :: ps =>
    obtain ⟨c, cs, b, ss, rfl, rfl, ⟨g, rfl, hk, hstart, hstop, hpart⟩, hfits⟩ := hfits
    obtain ⟨q, left, right, hregion, hback⟩ := h.focus hparts hk hl hstart hstop hpart
    obtain ⟨holding, hholding⟩ : ∃ holding, holding =
        s.holding (Part.heldByAll finished ++ Part.heldByAll ps) := ⟨_, rfl⟩
    have hds : holding.deferreds = s.deferreds := by rw [hholding]; rfl
    obtain ⟨bs, hread⟩ := hpart.exists_reads
    obtain ⟨known₁, g', ht, -⟩ := NodePart.reads_flush report part hregion (hds ▸ hs) hread
    have hfirst := NodePart.spares_flush report part hregion (hds ▸ hs)
    obtain ⟨f₁, hturns, hstands, hkept⟩ := hback ht
    obtain ⟨a, ha⟩ : ∃ a, a = part.flush holding w report := ⟨_, rfl⟩
    rw [← ha] at hturns hstands hkept hfirst
    rw [hds] at hfirst
    rw [Part.flushAll, Part.subpartsOfAll, NodePart.dueNodes_append]
    simp only [← hholding, ← ha]
    cases herror : a.error with
    | some e => exact hfirst.mono (List.subset_append_left _ _)
    | none =>
      rw [List.append_cons] at h hstands hparts
      have hfits' := hfits.kept hkept (List.subset_append_right _ _) hturns.grown.1
      have hrest := Part.spares_flushAll a.report (.node a.part :: finished) ps hstands hparts
        (by simp [hl]) hfits' hs
      rw [NodePart.dueNodes_congr fun _ => h.region_eq hstands hparts (by simp [hl]) (by simp [hl])
        hfits] at hrest
      exact hfirst.trans hrest

end

end LiveMarkup
