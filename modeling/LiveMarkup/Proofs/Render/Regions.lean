import LiveMarkup.Proofs.Render.Rerendering

set_option autoImplicit false

/-!
Where the parts of a root are. Each part stands between two siblings and says what is there; the
items of a list stand one behind the other; the parts of a copy stand inside the region of the
copy, apart from each other.
-/

namespace LiveMarkup

open Branch (labelsOfAll mapAll)
open LiveMarkup.Tree (Stretch)

namespace Tree

/-- The siblings strictly between two nodes. -/
def between (t : Tree) (start stop : NodeId) : List NodeId :=
  (((t.parent start).elim [] t.children).dropWhile (· ≠ start)).tail.takeWhile (· ≠ stop)

/-- The nodes strictly between two nodes, with all below them. -/
def region (t : Tree) (start stop : NodeId) : List NodeId :=
  (t.between start stop).flatMap t.preorder

/-- Two live siblings, the first before the second. -/
def Bounds (t : Tree) (start stop : NodeId) : Prop :=
  (t.contains start = true ∧ t.contains stop = true) ∧
    ∃ p left right, t.contains p = true ∧ t.parent start = some p ∧ t.parent stop = some p ∧
      t.children p = left ++ start :: (t.between start stop ++ stop :: right) ∧
      (t.children p).Nodup

end Tree

/-- The node parts among parts. -/
def Part.nodes (parts : List Part) : List NodePart :=
  parts.filterMap fun
    | .node part => some part
    | .attribute _ => none

/-- Items that follow each other from `start` to `stop`. -/
def NodePart.Chained (stop : NodeId) : NodeId → List NodePart → Prop
  | start, [] => start = stop
  | start, part :: parts => part.start = start ∧ NodePart.Chained stop part.stop parts

/-- No two node parts have a node in common. -/
def Part.Apart (t : Tree) (parts : List Part) : Prop :=
  (Part.nodes parts).Pairwise fun p q =>
    List.Disjoint (t.region p.start p.stop) (t.region q.start q.stop)

section

variable (t : Tree)

mutual

/-- A part stands between two siblings and says what is between them. -/
def NodePart.Keeps : NodePart → Prop
  | .mk start stop .empty | .mk start stop (.pending _) => t.Bounds start stop
  | .mk start stop (.text shown) => t.Bounds start stop ∧
    (t.between start stop).map t.content = [.node (.text shown.text) []]
  | .mk start stop (.node fragment) => t.Bounds start stop ∧
    (t.between start stop).map t.content = fragment.branches
  | .mk start stop (.items parts) => t.Bounds start stop ∧
    parts ≠ [] ∧ NodePart.Chained stop start parts ∧ NodePart.KeepsAll parts
  | .mk start stop (.nested _ parts) => t.Bounds start stop ∧
    (∀ q ∈ Part.nodes parts, q.start ∈ t.region start stop ∧ q.stop ∈ t.region start stop ∧
      q.stop ≠ stop) ∧ Part.Apart t parts ∧ Part.KeepsAll parts

def NodePart.KeepsAll : List NodePart → Prop
  | [] => True
  | part :: parts => NodePart.Keeps part ∧ NodePart.KeepsAll parts

def Part.KeepsAll : List Part → Prop
  | [] => True
  | .attribute _ :: parts => Part.KeepsAll parts
  | .node part :: parts => NodePart.Keeps part ∧ Part.KeepsAll parts

end

end

variable {objects : Objects} {known : Registry} {exact : Bool} {tree : Tree} {p : NodeId}
  {before after : List NodeId} {start stop : NodeId} {f g : List (Branch NodeId)}

namespace Tree.Stretch

theorem between_eq (h : Stretch tree p (before ++ [start]) f (stop :: after)) :
    tree.between start stop = f.map Branch.label := by
  have hstart := (h.sides start (by simp)).2
  have hnodup := h.nodup_children
  rw [h.children, List.append_assoc, List.append_assoc, List.singleton_append] at hnodup
  have hbefore : ∀ n ∈ before, decide (n ≠ start) = true := fun n hn => by
    rw [decide_eq_true_eq]
    exact (List.nodup_append.1 hnodup).2.2 n hn start List.mem_cons_self
  have hinside : ∀ n ∈ f.map Branch.label, decide (n ≠ stop) = true := fun n hn => by
    have htail := (List.nodup_cons.1 (List.nodup_append.1 hnodup).2.1).2
    rw [decide_eq_true_eq]
    exact (List.nodup_append.1 htail).2.2 n hn stop List.mem_cons_self
  rw [between, hstart, Option.elim_some, h.children, List.append_assoc, List.append_assoc,
    List.singleton_append, List.dropWhile_append_of_pos hbefore,
    List.dropWhile_cons_of_neg (by simp), List.tail_cons, List.takeWhile_append_of_pos hinside,
    List.takeWhile_cons_of_neg (by simp), List.append_nil]

theorem bounds (h : Stretch tree p (before ++ [start]) f (stop :: after)) :
    tree.Bounds start stop := by
  obtain ⟨hlive, hparent⟩ := h.sides start (by simp)
  obtain ⟨hlive', hparent'⟩ := h.sides stop (by simp)
  refine ⟨⟨hlive, hlive'⟩, p, before, after, h.live, hparent, hparent', ?_, h.nodup_children⟩
  rw [h.between_eq, h.children, List.append_assoc, List.append_assoc, List.singleton_append]

end Tree.Stretch

namespace Tree.HoldsAll

variable {up : Option NodeId}

theorem flatMap_preorder (h : tree.HoldsAll up f) (hn : (labelsOfAll f).Nodup) :
    (f.map Branch.label).flatMap tree.preorder = labelsOfAll f := by
  induction f with
  | nil => rfl
  | cons b f ih =>
    rw [Branch.labelsOfAll_cons] at hn
    obtain ⟨hb, hf⟩ := h
    rw [List.map_cons, List.flatMap_cons, hb.preorder (List.nodup_append.1 hn).1,
      ih hf (List.nodup_append.1 hn).2.1, Branch.labelsOfAll_cons]

theorem map_content (h : tree.HoldsAll up f) (hn : (labelsOfAll f).Nodup) :
    (f.map Branch.label).map tree.content = mapAll tree.kind f := by
  induction f with
  | nil => rfl
  | cons b f ih =>
    rw [Branch.labelsOfAll_cons] at hn
    obtain ⟨hb, hf⟩ := h
    rw [List.map_cons, List.map_cons, hb.content (List.nodup_append.1 hn).1,
      ih hf (List.nodup_append.1 hn).2.1, Branch.mapAll_cons]

end Tree.HoldsAll

namespace Tree.Stretch

theorem region_eq (h : Stretch tree p (before ++ [start]) f (stop :: after)) :
    tree.region start stop = labelsOfAll f := by
  rw [region, h.between_eq, h.holds.flatMap_preorder h.nodup_labels]

theorem contents_eq (h : Stretch tree p (before ++ [start]) f (stop :: after)) :
    (tree.between start stop).map tree.content = mapAll tree.kind f := by
  rw [h.between_eq, h.holds.map_content h.nodup_labels]

end Tree.Stretch

variable {t : Template} {label closing : Nat → NodeId} {ss rs : List (Shown NodeId)}
  {front rest : List TemplatePart} {c : TemplatePart}

/-- What a part shows in a planted template is a stretch of its own. -/
theorem Template.Sound.exists_stretch (hs : t.Sound)
    (hst : Stretch tree p before
      ((t.planting label closing (ss ++ .region g :: rs)).forest t.pattern) after)
    (hp : t.parts = front ++ c :: rest) (hk : c.kind = .node) (hl : front.length = ss.length) :
    ∃ q left right, Stretch tree q (left ++ [label c.index]) g
      (t.stopAt label closing c.index :: right) := by
  obtain ⟨place, hfill, hbetween⟩ := hs.exists_place hp hk hl rs label closing
  obtain ⟨left, hleft⟩ := hbetween.1 before
  obtain ⟨right, hright⟩ := hbetween.2 after
  rw [hfill] at hst
  have hinner := hst.inner
  rw [hleft, hright] at hinner
  exact ⟨place.owner p, left, right, hinner⟩

namespace Template.Copy

/-- The region of a part is a stretch of its own. -/
theorem exists_stretch {kind : NodeId → NodeKind}
    (h : t.Copy kind exact label closing (ss ++ .region g :: rs) f) (hs : t.Sound)
    (hst : Stretch tree p before f after) (hp : t.parts = front ++ c :: rest)
    (hk : c.kind = .node) (hl : front.length = ss.length) :
    ∃ q left right, Stretch tree q (left ++ [label c.index]) g
      (t.stopAt label closing c.index :: right) := by
  rw [h.forest] at hst
  exact hs.exists_stretch hst hp hk hl

/-- Each node part of a copy has the region that it shows, and both its ends in the copy. -/
theorem region_of_mem {ps : List Part} {cs : List TemplatePart} (done : List (Shown NodeId))
    (front : List TemplatePart)
    (h : t.Copy tree.kind exact label closing (done ++ ss) f) (hs : t.Sound)
    (hst : Stretch tree p before f after) (hp : t.parts = front ++ cs)
    (hl : front.length = done.length)
    (hfits : Part.FitsAll objects known tree.kind exact label (t.stopAt label closing) ps cs ss)
    {q : NodePart} (hq : q ∈ Part.nodes ps) :
    (∃ g, Shown.region g ∈ ss ∧ tree.region q.start q.stop = labelsOfAll g) ∧
      q.start ∈ labelsOfAll f ∧ q.stop ∈ labelsOfAll f := by
  induction ps generalizing done ss front cs with
  | nil => cases hq
  | cons part ps ih =>
    obtain ⟨c, cs, s, ss, rfl, rfl, hpart, hfits⟩ := hfits
    have hrest (hq : q ∈ Part.nodes ps) := ih (done ++ [s]) (front ++ [c])
      (by simpa using h) (by simpa using hp) (by simp [hl]) hfits hq
    match part with
    | .attribute part =>
      obtain ⟨⟨g, hg, hregion⟩, hends⟩ := hrest hq
      exact ⟨⟨g, List.mem_cons_of_mem _ hg, hregion⟩, hends⟩
    | .node part =>
      rcases List.mem_cons.1 hq with rfl | hq
      · obtain ⟨g, rfl, hk, hstart, hstop, -⟩ := hpart
        have hc : c ∈ t.parts := by simp [hp]
        obtain ⟨o, left, right, hregion⟩ := h.exists_stretch hs hst hp hk hl
        rw [hstart, hstop]
        exact ⟨⟨g, List.mem_cons_self, hregion.region_eq⟩, h.label_mem (hs.index_mem hc),
          h.stopAt_mem hs hc hk⟩
      · obtain ⟨⟨g, hg, hregion⟩, hends⟩ := hrest hq
        exact ⟨⟨g, List.mem_cons_of_mem _ hg, hregion⟩, hends⟩

/-- What two parts of a copy show is apart. -/
theorem disjoint_regions (h : t.Copy tree.kind exact label closing (ss ++ .region g :: rs) f)
    (hs : t.Sound) (hn : (labelsOfAll f).Nodup) (hp : t.parts = front ++ c :: rest)
    (hk : c.kind = .node) (hl : front.length = ss.length) {g' : List (Branch NodeId)}
    (hg' : Shown.region g' ∈ rs) : List.Disjoint (labelsOfAll g) (labelsOfAll g') := by
  intro n hm hm'
  have haligned := h.aligned
  rw [hp] at haligned
  have hreplaced : List.Forall₂ Shown.Matches (front ++ c :: rest) (ss ++ .region [] :: rs) :=
    Shown.matches_replace haligned hl id
  refine h.disjoint_region hs hn hp hk hl (hs.region_subset
    (hp ▸ hreplaced) (g := g') ?_ hm') hm
  exact List.mem_append_right _ (List.mem_cons_of_mem _ hg')

/-- The node parts of a copy are apart. -/
theorem apart {ps : List Part} {cs : List TemplatePart} (done : List (Shown NodeId))
    (front : List TemplatePart)
    (h : t.Copy tree.kind exact label closing (done ++ ss) f) (hs : t.Sound)
    (hst : Stretch tree p before f after) (hp : t.parts = front ++ cs)
    (hl : front.length = done.length)
    (hfits : Part.FitsAll objects known tree.kind exact label (t.stopAt label closing) ps cs ss) :
    Part.Apart tree ps := by
  induction ps generalizing done ss front cs with
  | nil => exact List.Pairwise.nil
  | cons part ps ih =>
    obtain ⟨c, cs, s, ss, rfl, rfl, hpart, hfits⟩ := hfits
    have h' : t.Copy tree.kind exact label closing (done ++ [s] ++ ss) f := by simpa using h
    have hp' : t.parts = front ++ [c] ++ cs := by simpa using hp
    have hl' : (front ++ [c]).length = (done ++ [s]).length := by simp [hl]
    have hrest := ih _ _ h' hp' hl' hfits
    match part with
    | .attribute part => exact hrest
    | .node part =>
      refine List.Pairwise.cons (fun q hq => ?_) hrest
      obtain ⟨g, rfl, hk, hstart, hstop, -⟩ := hpart
      obtain ⟨o, left, right, hregion⟩ := h.exists_stretch hs hst hp hk hl
      obtain ⟨⟨g', hg', hq⟩, -⟩ := h'.region_of_mem _ _ hs hst hp' hl' hfits hq
      rw [hstart, hstop, hregion.region_eq, hq]
      exact h.disjoint_regions hs hst.nodup_labels hp hk hl hg'

end Template.Copy

mutual

theorem NodePart.Fits.keeps {tree : Tree} {p : NodeId} {before after : List NodeId}
    {f : List (Branch NodeId)} {part : NodePart}
    (h : part.Fits objects known tree.kind exact f)
    (hst : Stretch tree p (before ++ [part.start]) f (part.stop :: after)) : part.Keeps tree := by
  match part with
  | .mk start stop .empty | .mk start stop (.pending _) => exact hst.bounds
  | .mk start stop (.text shown) =>
    obtain ⟨n, rfl, hk⟩ := h
    refine ⟨hst.bounds, hst.contents_eq.trans ?_⟩
    rw [Branch.mapAll_cons, Branch.map_node, hk]
    rfl
  | .mk start stop (.node fragment) => exact ⟨hst.bounds, hst.contents_eq.trans h.2⟩
  | .mk start stop (.items parts) =>
    obtain ⟨cells, hlaid, -, hcells⟩ := h
    obtain ⟨g, rest, rfl, rfl⟩ := Cells.eq_cons hlaid
    obtain ⟨hchained, hkeeps⟩ := hcells.keepsAll hst
    exact ⟨hst.bounds, fun hnil => (by subst hnil; cases hcells), hchained, hkeeps⟩
  | .mk start stop (.nested shared parts) =>
    obtain ⟨hhas, label, closing, shown, hcopy, hfits⟩ := h
    have hs := known.sound _ hhas
    refine ⟨hst.bounds, fun q hq => ?_, hcopy.apart [] [] hs hst rfl rfl hfits,
      hfits.keepsAll [] [] hcopy hs hst rfl rfl⟩
    obtain ⟨-, hstart, hstop⟩ :=
      hcopy.region_of_mem [] [] hs hst rfl rfl hfits hq
    have hregion : tree.region start stop = labelsOfAll f := hst.region_eq
    rw [hregion]
    refine ⟨hstart, hstop, fun he => hst.side_not_mem (x := stop) ?_ (he ▸ hstop)⟩
    exact List.mem_append_right _ List.mem_cons_self

/-- Items follow each other, each in its region. -/
theorem NodePart.FitsCells.keepsAll {tree : Tree} {p start stop : NodeId}
    {before after : List NodeId} {g : List (Branch NodeId)} {rest : Cells} {parts : List NodePart}
    (h : NodePart.FitsCells objects known tree.kind exact stop parts ((start, g) :: rest))
    (hst : Stretch tree p (before ++ [start]) (g ++ rest.branches) (stop :: after)) :
    NodePart.Chained stop start parts ∧ NodePart.KeepsAll tree parts := by
  match parts with
  | [] => cases h
  | part :: parts =>
    obtain ⟨n, f, cells, heq, hstart, hstop, hfits, hparts⟩ := h
    obtain ⟨⟨rfl, rfl⟩, rfl⟩ : (start = n ∧ g = f) ∧ rest = cells := by simpa using heq
    have hfirst : Stretch tree p (before ++ [part.start]) g
        ((Cells.branches rest).map Branch.label ++ stop :: after) := by
      have hwhole : Stretch tree p (before ++ [start]) ([] ++ g ++ Cells.branches rest)
          (stop :: after) := hst
      simpa [hstart] using hwhole.narrow
    obtain ⟨after', hafter⟩ := Cells.exists_after rest stop after
    rw [hafter, ← hstop] at hfirst
    have hkeeps := hfits.keeps hfirst
    match rest, parts with
    | [], [] => exact ⟨⟨hstart, hstop⟩, hkeeps, trivial⟩
    | (m, g') :: rest, parts =>
      have hnext : Stretch tree p (before ++ [start] ++ g.map Branch.label ++ [m])
          (g' ++ Cells.branches rest) (stop :: after) := by
        have heq : g ++ Cells.branches ((m, g') :: rest) =
            (g ++ [.node m []]) ++ (g' ++ Cells.branches rest) ++ [] := by simp
        rw [heq] at hst
        simpa [Branch.label] using hst.narrow
      obtain ⟨hchained, hall⟩ := hparts.keepsAll hnext
      exact ⟨⟨hstart, hstop ▸ hchained⟩, hkeeps, hall⟩

theorem Part.FitsAll.keepsAll {tree : Tree} {p : NodeId} {before after : List NodeId}
    {f : List (Branch NodeId)} {t : Template} {label closing : Nat → NodeId}
    {ss : List (Shown NodeId)} {cs : List TemplatePart} {ps : List Part}
    (done : List (Shown NodeId)) (front : List TemplatePart)
    (hfits : Part.FitsAll objects known tree.kind exact label (t.stopAt label closing) ps cs ss)
    (h : t.Copy tree.kind exact label closing (done ++ ss) f) (hs : t.Sound)
    (hst : Stretch tree p before f after) (hp : t.parts = front ++ cs)
    (hl : front.length = done.length) : Part.KeepsAll tree ps := by
  match ps with
  | [] => trivial
  | part :: ps =>
    obtain ⟨c, cs, s, ss, rfl, rfl, hpart, hfits⟩ := hfits
    have hrest := Part.FitsAll.keepsAll (done ++ [s]) (front ++ [c]) hfits
      (by simpa using h) hs hst (by simpa using hp) (by simp [hl])
    match part with
    | .attribute part => exact hrest
    | .node part =>
      obtain ⟨g, rfl, hk, hstart, hstop, hpart⟩ := hpart
      obtain ⟨o, left, right, hregion⟩ := h.exists_stretch hs hst hp hk hl
      rw [← hstart, ← hstop] at hregion
      exact ⟨hpart.keeps hregion, hrest⟩

end

/-- In every root to which calls have led, failing ones among them, each part keeps to its region. -/
theorem Host.Reachable.parts_keep_regions {h : Host} (hh : h.Reachable objects) {root : RenderRoot}
    (hroot : root ∈ h.roots) :
    Part.Apart root.tree root.parts ∧ Part.KeepsAll root.tree root.parts := by
  obtain ⟨known, hsound⟩ := hh.sound
  obtain ⟨label, closing, shown, f, hst⟩ := hsound.roots root hroot
  have hs := known.sound _ hst.has
  exact ⟨hst.copied.apart [] [] hs hst.stretch rfl rfl hst.fits,
    hst.fits.keepsAll [] [] hst.copied hs hst.stretch rfl rfl⟩

theorem Host.withParagraph_parts_keep_regions : ∃ root ∈ Host.withParagraph.roots,
    Part.Apart root.tree root.parts ∧ Part.KeepsAll root.tree root.parts :=
  ⟨_, List.getElem_mem Host.withParagraph_length.1,
    Host.Reachable.parts_keep_regions Host.reachable_withParagraph (List.getElem_mem Host.withParagraph_length.1)⟩

end LiveMarkup
