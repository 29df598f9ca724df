import LiveMarkup.Proofs.Part.Bind
import LiveMarkup.Proofs.Part.Region

set_option autoImplicit false

/-!
A copy of a template that stands in a tree. One of its regions can be brought in step as if it were
alone, and one of its attributes can be renewed; either way the copy stands again and what the other
parts show is kept.
-/

namespace LiveMarkup

open Branch (labelsOfAll mapAll)
open LiveMarkup.Tree (Exchange Stretch)

/-- A copy of a template among the children of `p`, between the siblings `before` and `after`. -/
structure Template.Stands (t : Template) (objects : Objects) (known : Registry) (exact : Bool)
    (w : World) (p : NodeId) (before after : List NodeId) (label closing : Nat → NodeId)
    (shown : List (Shown NodeId)) (f : List (Branch NodeId)) : Prop where
  sound : t.Sound
  coherent : w.cache.Coherent objects known
  accounted : w.tree.Accounted
  textLeaves : w.tree.TextLeaves
  stretch : Stretch w.tree p before f after
  copied : t.Copy w.tree.kind exact label closing shown f

/-- What the parts but one show is kept. -/
def Shown.Kept (w w' : World) (shown : List (Shown NodeId)) : Prop :=
  ∀ g, Shown.region g ∈ shown → ∀ n ∈ labelsOfAll g, w'.tree.kind n = w.tree.kind n

variable {t : Template} {objects : Objects} {known known' : Registry} {exact : Bool}
  {w w' : World} {p : NodeId} {before after : List NodeId} {label closing : Nat → NodeId}
  {front rest : List TemplatePart} {c : TemplatePart} {ss rs shown : List (Shown NodeId)}
  {f g : List (Branch NodeId)}

theorem Shown.Kept.trans {w'' : World} (h : Kept w w' shown) (h' : Kept w' w'' shown) :
    Kept w w'' shown :=
  fun g hg n hn => (h' g hg n hn).trans (h g hg n hn)

theorem Shown.Kept.of_subset (h : Kept w w' shown) (hs : ss ⊆ shown) : Kept w w' ss :=
  fun g hg => h g (hs hg)

namespace Template.Stands

/-- One region of a copy, set apart. -/
theorem focus (h : t.Stands objects known exact w p before after label closing
      (ss ++ .region g :: rs) f)
    (hp : t.parts = front ++ c :: rest) (hk : c.kind = .node) (hl : front.length = ss.length)
    {part : NodePart} (hstart : part.start = label c.index)
    (hstop : part.stop = t.stopAt label closing c.index)
    (hfits : part.Fits objects known w.tree.kind exact g) :
    ∃ q left right, part.Region objects known exact w q left right g ∧
      ∀ {known' w' part' g'},
        NodePart.Turned objects known known' exact w w' q left right part part' g g' →
        ∃ f', World.Turns objects known known' w w' p (labelsOfAll f) (labelsOfAll f') ∧
          t.Stands objects known' exact w' p before after label closing
            (ss ++ .region g' :: rs) f' ∧
          Shown.Kept w w' (ss ++ rs) := by
  obtain ⟨place, rfl, hbetween, hfill⟩ := h.copied.exists_place h.sound hp hk hl
  obtain ⟨left, hleft⟩ := hbetween.1 before
  obtain ⟨right, hright⟩ := hbetween.2 after
  have hinner := h.stretch.inner
  rw [hleft, hright, ← hstart, ← hstop] at hinner
  refine ⟨place.owner p, left, right,
    ⟨h.coherent, h.accounted, h.textLeaves, hinner, hfits⟩, ?_⟩
  intro known' w' part' g' ht
  obtain ⟨hx, hs⟩ := h.stretch.outer ht.turns.exchange (by
    rw [hleft, hright, ← hstart, ← hstop]
    exact ht.stretch)
  -- Nodes of the copy outside the region stay what they are.
  have hkind : ∀ n ∈ labelsOfAll ((t.planting label closing
      (ss ++ .region [] :: rs)).forest t.pattern), w'.tree.kind n = w.tree.kind n := by
    intro n hn
    refine ht.turns.kind_eq (h.stretch.holds.contains ?_)
      (h.copied.disjoint_region h.sound h.stretch.nodup_labels hp hk hl hn)
    rw [hfill] at hn
    exact (place.labels_fill g).mem_iff.2 (List.mem_append_left _ hn)
  have hcopied := h.copied.replace h.sound hp hl g' hkind
  rw [hfill] at hcopied
  refine ⟨place.fill g', ⟨ht.turns.grown, ht.turns.coherent, ht.turns.extends_cache, hx,
    ht.turns.textLeaves⟩, ⟨h.sound, ht.turns.coherent, hx.accounted, ht.turns.textLeaves, hs,
    hcopied⟩, fun g'' hg n hn => hkind n ?_⟩
  have haligned := h.copied.aligned
  rw [hp] at haligned
  refine h.sound.region_subset (hp ▸ Shown.matches_replace haligned hl id) (g := g'') ?_ hn
  rcases List.mem_append.1 hg with hg | hg
  · exact List.mem_append_left _ hg
  · exact List.mem_append_right _ (List.mem_cons_of_mem _ hg)

/-- The attributes of an element, with those of its parts, differ in name. -/
theorem nodup_names (hs : t.Sound) (hp : t.parts = front ++ c :: rest) {name tag : String}
    {strings : AttributeStrings} {own : List Attribute} (hk : c.kind = .attribute name strings)
    (hkind : t.kindAt c.index = .element tag own)
    (hss : ((Shown.attributesAt front ss c.index).map (·.name)).Sublist
      ((front.filter (·.index == c.index)).filterMap TemplatePart.name?))
    (hrs : ((Shown.attributesAt rest rs c.index).map (·.name)).Sublist
      ((rest.filter (·.index == c.index)).filterMap TemplatePart.name?)) :
    name ∉ (own ++ Shown.attributesAt front ss c.index ++
        Shown.attributesAt rest rs c.index).map (·.name) ∧
      ((own ++ Shown.attributesAt front ss c.index ++
        Shown.attributesAt rest rs c.index).map (·.name)).Nodup := by
  obtain ⟨tag', own', hkind', hnd⟩ := hs.attribute_part (c := c) (by simp [hp]) hk
  rw [hkind] at hkind'
  injection hkind' with _ hown
  subst hown
  have hname : c.name? = some name := by simp [TemplatePart.name?, hk]
  rw [hp, List.filter_append, List.filter_cons_of_pos (by simp), List.filterMap_append,
    List.filterMap_cons, hname] at hnd
  have hsub := ((List.Sublist.refl (own.map (·.name))).append
    (hss.append (hrs.cons_cons name))).nodup hnd
  rw [← List.append_assoc, List.nodup_middle, List.nodup_cons] at hsub
  simpa only [List.map_append] using hsub

/-- One attribute of a copy, renewed. -/
theorem renew {part : AttributePart} {values : List Value} {ps qs : List Part}
    {stop : Nat → NodeId}
    (h : t.Stands objects known exact w p before after label closing
      (ss ++ .attribute part.current :: rs) f)
    (hp : t.parts = front ++ c :: rest) (hk : c.kind = .attribute part.name part.strings)
    (hl : front.length = ss.length) (helement : part.element = label c.index)
    (hprevious : ∀ vs, part.previous = some vs → Value.FaithfulAll objects vs)
    (hss : Part.FitsAll objects known w.tree.kind exact label stop ps front ss)
    (hrs : Part.FitsAll objects known w.tree.kind exact label stop qs rest rs)
    (hblank : exact = true → part.previous = none ∧ Shown.attributesAt rest rs c.index = [])
    (hvalues : Value.FaithfulAll objects values) {part' : AttributePart} {tree : Tree}
    {events : List Event} (hset : part.setValues w.tree values = (part', tree, events))
    (ht : w'.tree = tree) (hc : w'.cache = w.cache) :
    World.Turns objects known known w w' p (labelsOfAll f) (labelsOfAll f) ∧
      t.Stands objects known exact w' p before after label closing
        (ss ++ .attribute part'.current :: rs) f ∧
      Part.Fits objects known w'.tree.kind exact label stop (.attribute part') c
        (.attribute part'.current) ∧
      part'.current = AttributePart.shownBy part.name part.strings values ∧
      Shown.Kept w w' (ss ++ rs) := by
  have hcm : c ∈ t.parts := by simp [hp]
  have hi := h.sound.index_mem hcm
  obtain ⟨tag, own, hkind, -⟩ := h.sound.attribute_part hcm hk
  obtain ⟨hn, hnd⟩ := nodup_names h.sound hp hk hkind (hss.names_sublist c.index)
    (hrs.names_sublist c.index)
  have hlive : w.tree.contains part.element = true :=
    helement ▸ h.stretch.holds.contains (h.copied.label_mem hi)
  have hview := h.copied.kinds c.index hi
  rw [hkind, hp, Shown.attributesAt_attribute hl, if_pos rfl, ← helement] at hview
  simp only [NodeKind.extended, ← List.append_assoc] at hview
  obtain ⟨kind, hr, hview'⟩ := AttributePart.renews_setValues h.accounted hlive hview hn hnd hblank
    hprevious hvalues
  rw [hset] at hr
  obtain ⟨he, helement', hname, hstrings, hcurrent, hfaithful⟩ := hr
  replace he : Tree.Edits w.tree tree part.element kind := he
  replace hcurrent : part'.current = AttributePart.shownBy part.name part.strings values := hcurrent
  subst ht
  obtain ⟨hx, hs⟩ := h.stretch.edit he (helement ▸ h.copied.label_mem hi)
  have hleaves : w'.tree.TextLeaves := h.textLeaves.edit he fun htext => by
    obtain ⟨_, rfl, -⟩ := NodeKind.view_element.1 hview'
    cases htext
  have hcopied := h.copied.renew h.sound h.stretch.nodup_labels hp hl hkind
    (b := part'.current)
    (by rw [← helement, he.kind_self, hcurrent]; exact hview')
    fun n hn => he.kind_other (helement ▸ hn)
  refine ⟨.of_exchange h.coherent hc hx hleaves,
    ⟨h.sound, hc ▸ h.coherent, he.accounted, hleaves, hs, hcopied⟩,
    ⟨rfl, ?_, helement'.trans helement, hfaithful⟩, hcurrent, fun g hg n hn => ?_⟩
  · rw [hk]
    exact congrArg₂ _ hname.symm hstrings.symm
  · refine he.kind_other fun hne => ?_
    have hg' : Shown.region g ∈ ss ++ .attribute part.current :: rs := by
      rcases List.mem_append.1 hg with hg | hg
      · exact List.mem_append_left _ hg
      · exact List.mem_append_right _ (List.mem_cons_of_mem _ hg)
    exact h.copied.label_not_mem h.sound h.stretch.nodup_labels hg' hi (helement ▸ hne ▸ hn)

end Template.Stands

end LiveMarkup
