import LiveMarkup.Proofs.Render.Sparing
import LiveMarkup.Proofs.Value.Repeating

set_option autoImplicit false

/-!
A value that says once more what a part carries. Each part on the way finds that it has nothing to
do: the cache answers with the template that the copy is of, a list has a part for each item, texts,
nodes and attributes are what they should be. So no value inside is cut off or refused, the parts are
what they were, and the tree is not touched.
-/

namespace LiveMarkup

open Branch (labelsOfAll)
open LiveMarkup.Tree (Stretch)

/-- Nothing has come of applying a value but what the cache has counted. -/
structure Applied.Rests {α : Type} (objects : Objects) (w : World) (x : α) (a : Applied α) :
    Prop where
  error_eq : a.error = none
  part_eq : a.part = x
  tree_eq : a.world.tree = w.tree
  coherent : ∃ known, a.world.cache.Coherent objects known
  extends_cache : w.cache.Extends a.world.cache

/-- A way to apply values does nothing where a part carries what a value says. -/
def Patch.Rests (patch : Patch) (objects : Objects) (look : Look) (strict : Bool) (depth : Nat) :
    Prop :=
  ∀ {s : Setting} {known : Registry} {w : World} {part : NodePart} {f : List (Branch NodeId)}
    {value value' : Value},
    s.strictValueCount = strict → w.cache.Coherent objects known → look.Within objects w.cache →
    w.tree.Fenced part.start part.stop f → part.Carries look strict f value →
    value.Repeats look value' → value'.Faithful objects → value'.Reached depth →
    (patch s w part value').Rests objects w part

variable {objects : Objects} {known : Registry} {look : Look} {strict : Bool} {depth : Nat}
  {s : Setting} {w w' : World} {p : NodeId} {before after : List NodeId} {part : NodePart}
  {f : List (Branch NodeId)} {patch : Patch} {values values' : List Value}

namespace Applied.Rests

variable {α β : Type} {x : α} {y : β} {a : Applied α} {b : Applied β}

theorem of_eq (hc : w'.cache.Coherent objects known) (ht : w'.tree = w.tree)
    (he : w.cache.Extends w'.cache) : Rests objects w x { part := x, world := w' } :=
  ⟨rfl, rfl, ht, ⟨known, hc⟩, he⟩

theorem later (h : b.Rests objects w' y) (ht : w'.tree = w.tree) (he : w.cache.Extends w'.cache) :
    b.Rests objects w y :=
  ⟨h.error_eq, h.part_eq, h.tree_eq.trans ht, h.coherent, he.trans h.extends_cache⟩

theorem map (h : a.Rests objects w x) (g : α → β) : (a.map g).Rests objects w (g x) :=
  ⟨h.error_eq, congrArg g h.part_eq, h.tree_eq, h.coherent, h.extends_cache⟩

end Applied.Rests

namespace NodePart

theorem rests_setPrimitive {shown q : Primitive} (hc : w.cache.Coherent objects known)
    (hstate : part.state = .text shown) (hsame : shown.same q = true) :
    (part.setPrimitive w q).Rests objects w part := by
  have hshows : part.showsPrimitive q = true := by simp only [showsPrimitive, hstate, hsame]
  rw [setPrimitive, if_pos hshows]
  exact .of_eq hc rfl (.refl _)

theorem rests_setNode {shown fragment : Fragment} (hc : w.cache.Coherent objects known)
    (hstate : part.state = .node shown) (hid : shown.identity = fragment.identity) :
    (part.setNode w fragment).Rests objects w part := by
  simp only [setNode, hstate, hid, beq_self_eq_true, if_true]
  exact .of_eq hc rfl (.refl _)

/-- There is nothing to clear between siblings that follow each other. -/
theorem clear_of_fenced {t : Tree} (h : t.Fenced part.start part.stop []) : part.clear t = t := by
  obtain ⟨p, left, right, hst⟩ := h
  have hnext : t.nextSibling part.start = some part.stop :=
    Tree.nextSibling_of_children (hst.sides part.start (by simp)).2
      (by rw [hst.children]; simp; rfl) hst.nodup_children
  simp [clear, Tree.removeBetween, hnext]

/-- The items of a list are each fenced by where they begin and end. -/
theorem PlacedAll.fenced {t : Tree} {start stop : NodeId} {parts : List NodePart}
    {front cells : Cells} (h : PlacedAll stop parts cells) (hlaid : (front ++ cells).branches = .node start [] :: f)
    (hst : Stretch t p (before ++ [start]) f (stop :: after)) :
    List.Forall₂ (fun part c => t.Fenced part.start part.stop c.2) parts cells := by
  induction parts generalizing front cells with
  | nil =>
    obtain rfl : cells = [] := h
    exact .nil
  | cons part parts ih =>
    obtain ⟨n, g, rest, rfl, rfl, hstop, h⟩ := h
    have hbehind : ((front ++ [(part.start, g)]) ++ rest).branches = .node start [] :: f := by
      rwa [← List.append_cons]
    refine .cons ?_ (ih h hbehind)
    rw [hstop]
    exact Cells.fenced hlaid hst

end NodePart

/-- A part in an attribute whose values count as the same. -/
theorem AttributePart.unchanged_of_repeat {t : Template} {c : TemplatePart} (hmem : c ∈ t.parts) {part : AttributePart}
    (hk : c.kind = .attribute part.name part.strings) {slots slots' : Slots} {previous : List Value}
    (hprevious : part.previous = some previous)
    (hsame : previous = (slots.takeMany c.valueIndex part.strings.size).1 ∨
      Value.sameAll previous (slots.takeMany c.valueIndex part.strings.size).1 = true)
    (hrepeats : Slots.Repeat look t slots slots') :
    part.unchanged (slots'.takeMany c.valueIndex part.strings.size).1 = true ∧
      Slots.Repeat look t (slots.takeMany c.valueIndex part.strings.size).2
        (slots'.takeMany c.valueIndex part.strings.size).2 := by
  have hwrites (j : Nat) (hi : c.valueIndex ≤ j) (hj : j < c.valueIndex + part.strings.size) :
      t.WritesAt j := ⟨c, hmem, part.strings.size, by simp [TemplatePart.size, hk], hi, hj⟩
  obtain ⟨hagain, hrest⟩ := hrepeats.takeMany hwrites
  refine ⟨?_, hrest⟩
  rw [AttributePart.unchanged, hprevious]
  rcases hsame with rfl | hsame
  · exact hagain
  · exact Value.sameAll_trans hsame hagain

/-- A list all of whose parts have their items. -/
theorem Patch.finish_done {parts : List NodePart} (hne : parts ≠ []) :
    Patch.finish part { part := (parts.reverse, []), world := w } =
      { part := part.withState (.items parts), world := w } := by
  rcases List.eq_nil_or_concat parts with rfl | ⟨front, last, rfl⟩
  · exact absurd rfl hne
  · simp [Patch.finish, Applied.map]

namespace Patch.Rests

theorem items (hp : patch.Rests objects look strict depth) (hs : s.strictValueCount = strict)
    (hc : w.cache.Coherent objects known) (hlook : look.Within objects w.cache)
    {parts : List NodePart} {cells : Cells}
    (hfenced : List.Forall₂ (fun part c => w.tree.Fenced part.start part.stop c.2) parts cells)
    (hcarries : NodePart.CarriesAll look strict parts cells values)
    (hrepeats : Value.RepeatsAll look values values') (hfaithful : ∀ v ∈ values', v.Faithful objects)
    (hreached : ∀ v ∈ values', v.Reached depth) (start stop : NodeId) (done : List NodePart) :
    (Patch.items patch s start stop w done parts values').Rests objects w
      (parts.reverse ++ done, []) := by
  induction parts generalizing known w cells values values' done with
  | nil =>
    obtain ⟨rfl, rfl⟩ := hcarries
    cases values' with
    | nil =>
      rw [Patch.items]
      exact .of_eq hc rfl (.refl _)
    | cons v vs => exact hrepeats.elim
  | cons part parts ih =>
    obtain ⟨n, g, rest, value, others, rfl, rfl, hpart, hcarries⟩ := hcarries
    obtain ⟨hfirst, hfenced⟩ := List.forall₂_cons.1 hfenced
    cases values' with
    | nil => exact hrepeats.elim
    | cons value' values' =>
      obtain ⟨hvalue, hvalues⟩ := List.forall_mem_cons.1 hfaithful
      obtain ⟨hends, hothers⟩ := List.forall_mem_cons.1 hreached
      have ha := hp
        (s := s.holding (values' ++ NodePart.heldByAll done ++ NodePart.heldByAll parts)) hs hc hlook hfirst hpart hrepeats.1 hvalue hends
      obtain ⟨a, heq⟩ : ∃ a, a = patch
        (s.holding (values' ++ NodePart.heldByAll done ++ NodePart.heldByAll parts)) w part value' :=
        ⟨_, rfl⟩
      rw [← heq] at ha
      obtain ⟨known', hc'⟩ := ha.coherent
      have hrest := ih hc' (hlook.of_extends ha.extends_cache hc hc') (ha.tree_eq ▸ hfenced) hcarries
        hrepeats.2 hvalues hothers (part :: done)
      rw [Patch.items]
      simp only [← heq, ha.error_eq, ha.part_eq]
      rw [List.reverse_cons, List.append_assoc]
      exact hrest.later ha.tree_eq ha.extends_cache

/-- A part between nodes of a copy that carries its value. -/
theorem node (hp : patch.Rests objects look strict depth) (hs : s.strictValueCount = strict)
    (hdepth : 0 < depth) (hc : w.cache.Coherent objects known) (hlook : look.Within objects w.cache)
    {t : Template} (ht : t.Sound) {label closing : Nat → NodeId} {front cs : List TemplatePart}
    {c : TemplatePart} {done ss : List (Shown NodeId)} {g : List (Branch NodeId)}
    {slots slots' : Slots}
    (hst : Stretch w.tree p before ((t.planting label closing (done ++ .region g :: ss)).forest
      t.pattern) after)
    (hparts : t.parts = front ++ c :: cs) (hk : c.kind = .node) (hl : front.length = done.length)
    (hstart : part.start = label c.index) (hstop : part.stop = t.stopAt label closing c.index)
    (hcarries : part.Carries look strict g (slots.take c.valueIndex).1)
    (hrepeats : Slots.Repeat look t slots slots') (hfaithful : slots'.All (Value.Faithful objects))
    (hreached : slots'.All (Value.Reached depth)) :
    (patch s w part (slots'.take c.valueIndex).1).Rests objects w part := by
  have hfenced : w.tree.Fenced part.start part.stop g := by
    rw [hstart, hstop]
    exact ht.exists_stretch hst hparts hk hl
  have hshows : t.ShowsAt c.valueIndex :=
    ⟨c, by simp [hparts], by simp [TemplatePart.size, hk], rfl⟩
  exact hp hs hc hlook hfenced hcarries ((hrepeats c.valueIndex).1 hshows)
    (hfaithful.take trivial c.valueIndex).1
    (hreached.take (Value.reached_null hdepth) c.valueIndex).1

theorem parts (hp : patch.Rests objects look strict depth) (hs : s.strictValueCount = strict)
    (hdepth : 0 < depth) (hc : w.cache.Coherent objects known) (hlook : look.Within objects w.cache)
    {t : Template} (ht : t.Sound) {label closing : Nat → NodeId} {ps : List Part}
    {front cs : List TemplatePart} {done ss : List (Shown NodeId)} {slots slots' : Slots}
    (hst : Stretch w.tree p before ((t.planting label closing (done ++ ss)).forest t.pattern) after)
    (hparts : t.parts = front ++ cs) (hl : front.length = done.length)
    (hcarries : Part.CarriesAll look strict label (t.stopAt label closing) ps cs ss
      (slots.dealt cs))
    (hrepeats : Slots.Repeat look t slots slots') (hfaithful : slots'.All (Value.Faithful objects))
    (hreached : slots'.All (Value.Reached depth)) (qs : List Part) :
    (Patch.parts patch s w qs ps cs slots').Rests objects w (qs.reverse ++ ps) := by
  induction ps generalizing known w front cs done ss slots slots' qs with
  | nil =>
    have heq : Patch.parts patch s w qs [] cs slots' = { part := qs.reverse ++ [], world := w } := by
      simp [Patch.parts]
    rw [heq]
    exact .of_eq hc rfl (.refl _)
  | cons part ps ih =>
    obtain ⟨c, cs, b, ss, taken, dealt, rfl, rfl, hdealt, hpart, hcarries⟩ := hcarries
    obtain ⟨rfl, rfl⟩ := List.cons.inj hdealt
    have hassoc : t.parts = (front ++ [c]) ++ cs := by simp [hparts]
    rcases part with part | part
    · obtain ⟨g, value, rfl, htaken, hk, hstart, hstop, hpart⟩ := hpart
      rw [TemplatePart.deal_node hk] at htaken hcarries
      obtain rfl : (slots.take c.valueIndex).1 = value := (List.cons.inj htaken).1
      obtain ⟨holding, hholding⟩ : ∃ holding, holding = s.holding
          ((slots'.take c.valueIndex).2.left ++ Part.heldByAll qs ++ Part.heldByAll ps) := ⟨_, rfl⟩
      have ha := hp.node (s := holding) (by rw [hholding]; exact hs) hdepth hc hlook ht hst hparts hk
        hl hstart hstop hpart hrepeats hfaithful hreached
      obtain ⟨a, heq⟩ : ∃ a, a = patch holding w part (slots'.take c.valueIndex).1 := ⟨_, rfl⟩
      rw [← heq] at ha
      obtain ⟨known', hc'⟩ := ha.coherent
      rw [List.append_cons, ← ha.tree_eq] at hst
      have hrest := ih hc' (hlook.of_extends ha.extends_cache hc hc') hst hassoc (by simp [hl])
        hcarries (hrepeats.take c.valueIndex) (hfaithful.take trivial c.valueIndex).2
        (hreached.take (Value.reached_null hdepth) c.valueIndex).2 (.node part :: qs)
      rw [Patch.parts]
      simp only [← hholding, ← heq, ha.error_eq, ha.part_eq]
      rw [List.append_cons, ← List.reverse_cons]
      exact hrest.later ha.tree_eq ha.extends_cache
    · obtain ⟨hk, previous, hprevious, hsame⟩ := hpart
      rw [TemplatePart.deal_attribute hk] at hsame hcarries
      obtain ⟨hunchanged, hrepeats⟩ :=
        AttributePart.unchanged_of_repeat (by simp [hparts]) hk hprevious hsame hrepeats
      rw [List.append_cons] at hst
      have hrest := ih (w := { w with events := w.events ++ [.attributeUnchanged part.name] }) hc
        hlook hst hassoc (by simp [hl]) hcarries hrepeats
        (hfaithful.takeMany trivial c.valueIndex part.strings.size).2
        (hreached.takeMany (Value.reached_null hdepth) c.valueIndex part.strings.size).2
        (.attribute part :: qs)
      rw [Patch.parts]
      simp only [AttributePart.setValues, hunchanged, if_true]
      rw [List.append_cons, ← List.reverse_cons]
      exact hrest.later rfl (.refl _)

theorem update (hp : patch.Rests objects look strict depth) (hs : s.strictValueCount = strict)
    (hdepth : 0 < depth) (hc : w.cache.Coherent objects known) (hlook : look.Within objects w.cache)
    {t : Template} (ht : t.Sound) {label closing : Nat → NodeId} {ps : List Part}
    {shown : List (Shown NodeId)}
    (hst : Stretch w.tree p before ((t.planting label closing shown).forest t.pattern) after)
    (hcount : strict = true → t.valueCount = values.length)
    (hcarries : Part.CarriesAll look strict label (t.stopAt label closing) ps t.parts shown
      (Slots.dealt t.parts (values.map some)))
    (hrepeats : Value.RepeatsFrom look values values' t 0)
    (hfaithful : ∀ v ∈ values', v.Faithful objects) (hreached : ∀ v ∈ values', v.Reached depth) :
    (Patch.update patch s w t ps values').Rests objects w ps := by
  have hexpected : ¬(t.valueCount ≠ values'.length ∧ s.strictValueCount = true) :=
    fun ⟨hne, htrue⟩ => hne ((hcount (hs ▸ htrue)).trans hrepeats.length_eq)
  unfold Patch.update
  simp only [if_neg hexpected]
  obtain ⟨v, hv⟩ : ∃ v, v = if t.valueCount = values'.length then w
      else w.report (.valueCount t.valueCount values'.length) := ⟨_, rfl⟩
  have htree : v.tree = w.tree := by
    rw [hv]
    split <;> rfl
  have hcache : v.cache = w.cache := by
    rw [hv]
    split <;> rfl
  have hst' : Stretch v.tree p before
      ((t.planting label closing ([] ++ shown)).forest t.pattern) after := htree ▸ hst
  have hrest := hp.parts hs hdepth (hcache ▸ hc) (hcache ▸ hlook) ht hst'
    (List.nil_append t.parts).symm rfl hcarries (Slots.repeat_of_repeatsFrom hrepeats)
    (Slots.all_map_some hfaithful) (Slots.all_map_some hreached) []
  rw [← hv]
  exact hrest.later htree (hcache ▸ .refl _)

theorem template (hp : patch.Rests objects look strict depth) (hs : s.strictValueCount = strict)
    (hc : w.cache.Coherent objects known) (hlook : look.Within objects w.cache)
    (hfenced : w.tree.Fenced part.start part.stop f) {strings : TemplateStrings}
    {kind : TemplateKind} (hcarries : part.Carries look strict f (.template strings values kind))
    (hrepeats : (Value.template strings values kind).Repeats look (.template strings values' kind))
    (hfaithful : (Value.template strings values' kind).Faithful objects)
    (hreached : (Value.template strings values' kind).Reached (depth + 1)) :
    (Patch.template patch s w part ⟨strings, values', kind⟩).Rests objects w part := by
  obtain ⟨hstrings, hvalues⟩ := hfaithful
  obtain ⟨start, stop, state⟩ := part
  match state with
  | .nested shared parts =>
    obtain ⟨hfound, hsound, hcount, label, closing, shown, rfl, hall⟩ := hcarries
    have hvalues' := hrepeats.2.2 shared hfound
    have hweight : Value.weights values' < depth := by
      rcases hreached with hlt | ⟨hnull, -⟩
      · simpa [Value.weight] using hlt
      · cases hnull
    obtain ⟨alive, v, htree, hcache, heq⟩ := Patch.template_eq patch s w
      (.mk start stop (.nested shared parts)) ⟨strings, values', kind⟩
    obtain ⟨known', ha⟩ := hc.answers hstrings alive kind
    have houtcome := ha.found shared (hlook _ _ _ hstrings hfound)
    have hc' : v.cache.Coherent objects known' := hcache ▸ ha.coherent
    have hextends : w.cache.Extends v.cache := hcache ▸ ha.extends_cache
    obtain ⟨p, left, right, hst⟩ := hfenced
    have hst' : Stretch (v.report .reusedInstance).tree p (left ++ [start])
        ((shared.template.planting label closing shown).forest shared.template.pattern)
        (stop :: right) := htree ▸ hst
    have hrest := hp.update hs (by omega) (w := v.report .reusedInstance) hc'
      (hlook.of_extends hextends hc hc') hsound hst' hcount hall hvalues'
      (Value.faithfulAll_iff.1 hvalues)
      fun u hu => .inl (lt_of_le_of_lt (Value.weight_le_weights hu) hweight)
    rw [heq, houtcome]
    simp only [Patch.answered, NodePart.state, if_true]
    exact (hrest.later htree hextends).map fun ps =>
      (NodePart.mk start stop (.nested shared parts)).withState (.nested shared ps)
  | .empty | .text _ | .items _ | .node _ | .pending _ => exact hcarries.elim

theorem iterable (hp : patch.Rests objects look strict depth) (hs : s.strictValueCount = strict)
    (hc : w.cache.Coherent objects known) (hlook : look.Within objects w.cache)
    (hfenced : w.tree.Fenced part.start part.stop f)
    (hcarries : part.Carries look strict f (.iterable values))
    (hrepeats : Value.RepeatsAll look values values') (hfaithful : ∀ v ∈ values', v.Faithful objects)
    (hreached : ∀ v ∈ values', v.Reached depth) :
    (Patch.iterable patch s w part values').Rests objects w part := by
  obtain ⟨start, stop, state⟩ := part
  match state with
  | .empty =>
    obtain ⟨rfl, rfl⟩ := hcarries
    cases values' with
    | cons v vs => exact hrepeats.elim
    | nil =>
      have hclear := NodePart.clear_of_fenced hfenced
      rw [Patch.iterable_other _ _ _ (fun ps hps => by cases hps), hclear, Patch.items]
      exact .of_eq hc hclear (.refl _)
  | .items parts =>
    obtain ⟨cells, hlaid, hplaced, hall⟩ := hcarries
    obtain ⟨p, left, right, hst⟩ := hfenced
    have hlaid' : Cells.branches ([] ++ cells) = .node start [] :: f := hlaid
    have hrest := hp.items hs hc hlook (hplaced.fenced hlaid' hst) hall hrepeats hfaithful hreached
      start stop []
    have heq : Patch.iterable patch s w (.mk start stop (.items parts)) values' =
        Patch.finish (.mk start stop (.items parts))
          (Patch.items patch s start stop w [] parts values') :=
      Patch.iterable_items patch s w rfl values'
    rw [heq]
    generalize Patch.items patch s start stop w [] parts values' = a at hrest
    obtain ⟨⟨last, others⟩, u, error⟩ := a
    obtain rfl : error = none := hrest.error_eq
    obtain ⟨rfl, rfl⟩ :=
      Prod.mk.inj (show (last, others) = (parts.reverse ++ [], []) from hrest.part_eq)
    rw [List.append_nil, Patch.finish_done (hplaced.ne_nil hlaid)]
    exact ⟨rfl, rfl, hrest.tree_eq, hrest.coherent, hrest.extends_cache⟩
  | .text _ | .nested _ _ | .node _ | .pending _ => exact hcarries.elim

theorem step (hp : patch.Rests objects look strict depth) :
    (Patch.step patch).Rests objects look strict (depth + 1) := by
  intro s known w part f value value' hs hc hlook hfenced hcarries hrepeats hfaithful hreached
  match value, value' with
  | .primitive q, .primitive q' =>
    obtain ⟨start, stop, state⟩ := part
    match state with
    | .text shown =>
      refine NodePart.rests_setPrimitive hc rfl ?_
      rcases hcarries with rfl | hsame
      · exact hrepeats
      · exact Primitive.same_trans hsame hrepeats
    | .empty | .nested _ _ | .items _ | .node _ | .pending _ => exact hcarries.elim
  | .absent, .absent =>
    obtain ⟨start, stop, state⟩ := part
    match state with
    | .text shown =>
      obtain rfl : shown = .null := hcarries
      exact NodePart.rests_setPrimitive hc rfl rfl
    | .empty | .nested _ _ | .items _ | .node _ | .pending _ => exact hcarries.elim
  | .node fragment, .node fragment' =>
    obtain ⟨start, stop, state⟩ := part
    match state with
    | .node shown => exact NodePart.rests_setNode hc rfl (Eq.trans hcarries hrepeats)
    | .empty | .text _ | .nested _ _ | .items _ | .pending _ => exact hcarries.elim
  | .iterable values, .iterable values' =>
    have hweight : Value.weights values' < depth := by
      rcases hreached with hlt | ⟨hnull, -⟩
      · simpa [Value.weight] using hlt
      · cases hnull
    exact hp.iterable hs hc hlook hfenced hcarries hrepeats (Value.faithfulAll_iff.1 hfaithful)
      fun u hu => .inl (lt_of_le_of_lt (Value.weight_le_weights hu) hweight)
  | .template strings values kind, .template strings' values' kind' =>
    obtain ⟨rfl, rfl, -⟩ := id hrepeats
    exact hp.template hs hc hlook hfenced hcarries hrepeats hfaithful hreached

end Patch.Rests

/-- Cut off at any depth that a value ends within, applying what a part carries does nothing. -/
theorem Patch.rests_within (depth : Nat) :
    (Patch.within depth).Rests objects look strict depth := by
  induction depth with
  | zero =>
    intro s known w part f value value' _ _ _ _ _ _ _ hreached
    rcases hreached with hlt | ⟨-, hlt⟩ <;> omega
  | succ depth ih => exact ih.step

end LiveMarkup
