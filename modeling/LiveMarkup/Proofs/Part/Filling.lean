import LiveMarkup.Proofs.Part.Outcome

set_option autoImplicit false

/-!
Giving the parts of a copy their values, one after the other. What is done stays done: each part
changes its own region or attribute only, so what the first parts show is what they showed when it
was their turn.
-/

namespace LiveMarkup

open Branch (labelsOfAll mapAll)

/-- What giving the last parts of a copy their values comes to: `done` are what the parts `qs` before
show, `ss` what these show now. -/
structure Template.Filled (t : Template) (objects : Objects) (known known' : Registry)
    (exact blank strict : Bool) (ds : Deferreds) (depth : Nat) (w : World) (p : NodeId)
    (before after : List NodeId) (label closing : Nat → NodeId) (f f' : List (Branch NodeId))
    (qs : List Part) (done ss : List (Shown NodeId)) (cs : List TemplatePart) (slots : Slots)
    (a : Applied (List Part)) : Prop where
  turns : World.Turns objects known known' w a.world p (labelsOfAll f) (labelsOfAll f')
  stands : t.Stands objects known' exact a.world p before after label closing (done ++ ss) f'
  fits : Part.FitsAll objects known' a.world.tree.kind exact label (t.stopAt label closing) a.part
    t.parts (done ++ ss)
  kept : Shown.Kept w a.world done
  reads : a.error = none → slots.All (Value.Plain blank ds) → ∀ (look : Look) (forecast : Forecast),
    look.Agrees objects a.world.cache → slots.All (Value.Foreseeable forecast) →
    ∃ bs, Template.shows cs (slots.meanings (Value.foreseen look strict forecast)) = some bs ∧
      ∀ read, Part.ReadsAll forecast objects known w.tree.kind exact qs done read →
        Part.ReadsAll forecast objects known' a.world.tree.kind exact a.part (done ++ ss)
          (read ++ bs)
  succeeds : 0 < depth → slots.All (Value.Reached depth) → slots.All (Value.Outstanding ds) →
    ∀ look : Look, look.Yields objects w.cache →
    Template.shows cs (slots.meanings (Value.meaning look strict)) ≠ none → a.error = none
  carries : a.error = none → ∀ look : Look, look.Covers objects a.world.cache → ∀ front dealt,
    t.parts = front ++ cs →
    Part.CarriesAll look strict label (t.stopAt label closing) qs front done dealt →
    Part.CarriesAll look strict label (t.stopAt label closing) a.part t.parts (done ++ ss)
      (dealt ++ slots.dealt cs)

variable {t : Template} {objects : Objects} {known known' : Registry} {exact blank strict : Bool}
  {ds : Deferreds} {depth : Nat} {w : World} {p : NodeId} {before after : List NodeId}
  {label closing : Nat → NodeId} {f : List (Branch NodeId)}

theorem Part.FitsAll.kept {w' : World} {stop : Nat → NodeId} {ps : List Part}
    {cs : List TemplatePart} {ss shown : List (Shown NodeId)}
    (h : FitsAll objects known w.tree.kind exact label stop ps cs ss) (hk : Shown.Kept w w' shown)
    (hs : ss ⊆ shown) (hg : known ≤ known') :
    FitsAll objects known' w'.tree.kind exact label stop ps cs ss :=
  h.mono hg (fun g hm n hn => hk g (hs hm) n hn) id

/-- A part behind the ones that are done. -/
theorem Part.FitsAll.snoc {stop : Nat → NodeId} {kind : NodeId → NodeKind} {ps : List Part}
    {part : Part} {cs : List TemplatePart} {c : TemplatePart} {ss : List (Shown NodeId)}
    {s : Shown NodeId} (h : FitsAll objects known kind exact label stop ps cs ss)
    (hp : part.Fits objects known kind exact label stop c s) :
    FitsAll objects known kind exact label stop (ps ++ [part]) (cs ++ [c]) (ss ++ [s]) :=
  h.append ⟨c, [], s, [], rfl, rfl, hp, rfl, rfl⟩

/-- Nothing is shown in attributes by parts that were never given values. -/
theorem Part.attributesAt_of_blank {stop : Nat → NodeId} {kind : NodeId → NodeKind}
    {ps : List Part} {cs : List TemplatePart} {ss : List (Shown NodeId)}
    (h : FitsAll objects known kind exact label stop ps cs ss) (hb : List.Forall₂ Part.Blank ps ss)
    (i : Nat) : Shown.attributesAt cs ss i = [] := by
  induction hb generalizing cs with
  | nil =>
    obtain ⟨rfl, -⟩ := h
    rfl
  | @cons part s ps ss hpart _ ih =>
    obtain ⟨c, cs, s, ss, rfl, he, hp, h⟩ := h
    obtain ⟨rfl, rfl⟩ := List.cons.inj he
    have hrest := ih h
    rw [Shown.attributesAt] at hrest ⊢
    rw [List.zip_cons_cons, List.filterMap_cons, hrest]
    cases part with
    | node part =>
      obtain ⟨g, rfl, -⟩ := hp
      rfl
    | «attribute» part =>
      obtain ⟨rfl, -⟩ := hp
      have hnone : part.previous = none := hpart
      simp [AttributePart.current, hnone, Shown.attributeOf]

/-- What giving one part of a copy its values comes to: `done` and `ss` are what the parts before it
and behind it show, `s` is what it shows now. -/
structure Template.Given (t : Template) (objects : Objects) (known known' : Registry)
    (exact blank strict : Bool) (ds : Deferreds) (depth : Nat) (w : World) (p : NodeId)
    (before after : List NodeId) (label closing : Nat → NodeId) (f f' : List (Branch NodeId))
    (done ss : List (Shown NodeId)) (c : TemplatePart) (s : Shown NodeId) (slots slots' : Slots)
    (a : Applied Part) : Prop where
  turns : World.Turns objects known known' w a.world p (labelsOfAll f) (labelsOfAll f')
  stands : t.Stands objects known' exact a.world p before after label closing (done ++ s :: ss) f'
  fits : a.part.Fits objects known' a.world.tree.kind exact label (t.stopAt label closing) c s
  kept : Shown.Kept w a.world (done ++ ss)
  left : ∀ P : Value → Prop, P .null → slots.All P → slots'.All P
  reads : a.error = none → slots.All (Value.Plain blank ds) → ∀ (look : Look) (forecast : Forecast),
    look.Agrees objects a.world.cache → slots.All (Value.Foreseeable forecast) →
    ∃ b, a.part.Reads forecast objects known' a.world.tree.kind exact s b ∧
      ∀ cs bs, Template.shows cs (slots'.meanings (Value.foreseen look strict forecast)) = some bs →
        Template.shows (c :: cs) (slots.meanings (Value.foreseen look strict forecast)) =
          some (b :: bs)
  succeeds : 0 < depth → slots.All (Value.Reached depth) → slots.All (Value.Outstanding ds) →
    ∀ look : Look, look.Yields objects w.cache → ∀ cs,
    Template.shows (c :: cs) (slots.meanings (Value.meaning look strict)) ≠ none →
    a.error = none ∧ Template.shows cs (slots'.meanings (Value.meaning look strict)) ≠ none
  carries : a.error = none → ∀ look : Look, look.Covers objects a.world.cache → ∃ values,
    c.deal slots = (values, slots') ∧
      a.part.Carries look strict label (t.stopAt label closing) c s values

namespace Template

variable {known₁ : Registry} {f₁ f₂ : List (Branch NodeId)} {qs ps : List Part}
  {done ss rs : List (Shown NodeId)} {s : Shown NodeId} {c : TemplatePart}
  {front cs : List TemplatePart} {slots slots' : Slots} {a : Applied Part} {b : Applied (List Part)}

theorem Given.fits_done (hg : t.Given objects known known₁ exact blank strict ds depth w p before after
      label closing f f₁ done ss c s slots slots' a)
    (hdone : Part.FitsAll objects known w.tree.kind exact label (t.stopAt label closing) qs front
      done) :
    Part.FitsAll objects known₁ a.world.tree.kind exact label (t.stopAt label closing)
      (qs ++ [a.part]) (front ++ [c]) (done ++ [s]) :=
  (hdone.kept hg.kept (List.subset_append_left _ _) hg.turns.grown.1).snoc hg.fits

theorem Given.fits_behind (hg : t.Given objects known known₁ exact blank strict ds depth w p before
      after label closing f f₁ done ss c s slots slots' a)
    (hleft : Part.FitsAll objects known w.tree.kind exact label (t.stopAt label closing) ps cs ss) :
    Part.FitsAll objects known₁ a.world.tree.kind exact label (t.stopAt label closing) ps cs ss :=
  hleft.kept hg.kept (List.subset_append_right _ _) hg.turns.grown.1

/-- All parts have their values. -/
theorem Filled.nil (h : t.Stands objects known exact w p before after label closing (done ++ []) f)
    (hparts : t.parts = front ++ [])
    (hdone : Part.FitsAll objects known w.tree.kind exact label (t.stopAt label closing) qs front
      done) :
    t.Filled objects known known exact blank strict ds depth w p before after label closing f f qs
      done [] [] slots { part := qs, world := w } where
  turns := .of_exchange h.coherent rfl (.refl h.accounted p _) h.textLeaves
  stands := h
  fits := by
    rw [hparts, List.append_nil, List.append_nil]
    exact hdone
  kept _ _ _ _ := rfl
  reads _ _ _ _ _ _ := ⟨[], rfl, fun read hread => by simpa using hread⟩
  succeeds _ _ _ _ _ _ := rfl
  carries _ look _ front' dealt hparts' hdealt := by
    rw [hparts', Slots.dealt, List.append_nil, List.append_nil]
    simpa using hdealt

/-- One part has its values, and then the parts behind it. -/
theorem Filled.cons (hg : t.Given objects known known₁ exact blank strict ds depth w p before after
      label closing f f₁ done rs c s slots slots' a) (he : a.error = none)
    (h : t.Filled objects known₁ known' exact blank strict ds depth a.world p before after label
      closing f₁ f₂ (qs ++ [a.part]) (done ++ [s]) ss cs slots' b) :
    t.Filled objects known known' exact blank strict ds depth w p before after label closing f f₂ qs
      done (s :: ss) (c :: cs) slots b where
  turns := hg.turns.trans h.turns
  stands := by
    rw [List.append_cons]
    exact h.stands
  fits := by
    rw [List.append_cons]
    exact h.fits
  kept := (hg.kept.of_subset (List.subset_append_left _ _)).trans
    (h.kept.of_subset (List.subset_append_left _ _))
  reads hb hplain look forecast hlook hforesee := by
    obtain ⟨r, hr, hcons⟩ := hg.reads he hplain look forecast
      (hlook.of_extends h.turns.extends_cache hg.stands.coherent h.turns.coherent) hforesee
    obtain ⟨bs, hbs, hread⟩ := h.reads hb (hg.left _ Value.plain_null hplain) look forecast hlook
      (hg.left _ Value.foreseeable_null hforesee)
    refine ⟨r :: bs, hcons cs bs hbs, fun read hdone => ?_⟩
    have hkept := hg.kept.of_subset (List.subset_append_left done rs)
    have hall := hread _ ((hdone.mono hg.turns.grown.1 hkept).snoc hr)
    rwa [← List.append_cons, ← List.append_cons] at hall
  succeeds hd hr ho look hlook hdenote :=
    h.succeeds hd (hg.left _ (Value.reached_null hd) hr) (hg.left _ Value.outstanding_null ho) look
      (hlook.of_extends hg.turns.extends_cache) (hg.succeeds hd hr ho look hlook cs hdenote).2
  carries hb look hlook front dealt hparts hdone := by
    obtain ⟨values, hdeal, hpart⟩ := hg.carries he look
      (hlook.of_extends h.turns.extends_cache hg.stands.coherent h.turns.coherent)
    have hall := h.carries hb look hlook (front ++ [c]) (dealt ++ [values]) (by simp [hparts])
      (hdone.snoc hpart)
    rwa [← List.append_cons, ← List.append_cons, ← (show (c.deal slots).2 = slots' by rw [hdeal]),
      ← (show (c.deal slots).1 = values by rw [hdeal])] at hall

/-- One part could not be given its values, and the parts behind it are left as they are. -/
theorem Filled.failed (hg : t.Given objects known known₁ exact blank strict ds depth w p before after
      label closing f f₁ done ss c s slots slots' a) {e : RenderError} (he : a.error = some e)
    (hparts : t.parts = front ++ c :: cs)
    (hdone : Part.FitsAll objects known w.tree.kind exact label (t.stopAt label closing) qs front
      done)
    (hleft : Part.FitsAll objects known w.tree.kind exact label (t.stopAt label closing) ps cs ss) :
    t.Filled objects known known₁ exact blank strict ds depth w p before after label closing f f₁ qs
      done (s :: ss) (c :: cs) slots (a.map fun part => qs ++ part :: ps) where
  turns := hg.turns
  stands := hg.stands
  fits := by
    have hall := (hg.fits_done hdone).append (hg.fits_behind hleft)
    rw [List.append_assoc, List.append_assoc, List.append_assoc] at hall
    rw [hparts]
    exact hall
  kept := hg.kept.of_subset (List.subset_append_left _ _)
  reads hb := by
    rw [Applied.map, he] at hb
    cases hb
  succeeds hd hr ho look hlook hdenote := (hg.succeeds hd hr ho look hlook cs hdenote).1
  carries hb := by
    rw [Applied.map, he] at hb
    cases hb

end Template

/-- A part between nodes is given its value. -/
theorem Patch.Correct.node {patch : Patch} (hp : patch.Correct objects exact strict ds depth)
    {s : Setting} (hds : s.deferreds = ds) (hstrict : s.strictValueCount = strict) {part : NodePart}
    {c : TemplatePart} {front cs : List TemplatePart} {now : Shown NodeId}
    {done ss : List (Shown NodeId)}
    (h : t.Stands objects known exact w p before after label closing (done ++ now :: ss) f)
    (hparts : t.parts = front ++ c :: cs) (hl : front.length = done.length)
    (hpart : Part.Fits objects known w.tree.kind exact label (t.stopAt label closing) (.node part) c
      now)
    (blank : Bool) (hblank : exact = true ∨ blank = true → Part.Blank (.node part) now)
    {slots : Slots} (hslots : slots.All (Value.Faithful objects)) {value : Value} {slots' : Slots}
    (htake : slots.take c.valueIndex = (value, slots')) :
    ∃ known' now' f', t.Given objects known known' exact blank strict ds depth w p before after label
      closing f f' done ss c now' slots slots' ((patch s w part value).map .node) := by
  obtain ⟨g, rfl, hk, hstart, hstop, hfits⟩ := hpart
  have htaken {P : Value → Prop} (hn : P .null) (hP : slots.All P) : P value ∧ slots'.All P := by
    have := hP.take hn c.valueIndex
    rwa [htake] at this
  obtain ⟨q, left, right, hregion, hback⟩ := h.focus hparts hk hl hstart hstop hfits
  have hempty (he : exact = true ∨ blank = true) : part.state = .empty ∧ g = [] :=
    ⟨(hblank he).1, by simpa using (hblank he).2⟩
  obtain ⟨known', g', ho⟩ := hp hds hstrict hregion (htaken trivial hslots).1 blank
    ⟨fun he => NodePart.bare_of_empty (hempty (.inl he)).1, fun he => hempty (.inr he)⟩
  obtain ⟨f', hturns, hstands, hkept⟩ := hback ho.turned
  have hstart' := ho.turned.start_eq.trans hstart
  have hstop' := ho.turned.stop_eq.trans hstop
  refine ⟨known', .region g', f', ⟨hturns, hstands, ⟨g', rfl, hk, hstart', hstop', ho.turned.fits⟩,
    hkept, fun P hn hP => (htaken hn hP).2, fun he hplain look forecast hlook hforesee => ?_,
    fun hd hr hout look hlook cs hne => ?_, fun he look hlook => ?_⟩⟩
  · obtain ⟨bs, hbs, hread⟩ := ho.reads he (htaken Value.plain_null hplain).1 look forecast hlook
      (htaken Value.foreseeable_null hforesee).1
    refine ⟨.region bs, ⟨g', bs, rfl, rfl, hread⟩, fun cs rest hrest => ?_⟩
    simp [Template.shows, hk, Slots.take_meanings Value.foreseen_null, htake, Value.foreseen, hbs,
      hrest]
  · refine ⟨ho.succeeds (htaken (Value.reached_null hd) hr).1 (htaken Value.outstanding_null hout).1
      look hlook fun hn => hne ?_, fun hn => hne ?_⟩
    · simp [Template.shows, hk, Slots.take_meanings Value.meaning_null, htake, Value.meaning, hn]
    · simp [Template.shows, hk, Slots.take_meanings Value.meaning_null, htake, hn]
  · exact ⟨[value], by rw [TemplatePart.deal_node hk, htake], g', value, rfl, rfl, hk, hstart', hstop',
      ho.carries he look hlook⟩

/-- A part in an attribute is given its values. -/
theorem Template.Given.attribute {part : AttributePart} {c : TemplatePart} {front cs : List TemplatePart}
    {now : Shown NodeId} {qs ps : List Part} {done ss : List (Shown NodeId)}
    (h : t.Stands objects known exact w p before after label closing (done ++ now :: ss) f)
    (hparts : t.parts = front ++ c :: cs) (hl : front.length = done.length)
    (hpart : Part.Fits objects known w.tree.kind exact label (t.stopAt label closing)
      (.attribute part) c now)
    (hdone : Part.FitsAll objects known w.tree.kind exact label (t.stopAt label closing) qs front
      done)
    (hleft : Part.FitsAll objects known w.tree.kind exact label (t.stopAt label closing) ps cs ss)
    (hblank : exact = true → List.Forall₂ Part.Blank (.attribute part :: ps) (now :: ss))
    {slots : Slots} (hslots : slots.All (Value.Faithful objects)) {values : List Value}
    {slots' : Slots} (htake : slots.takeMany c.valueIndex part.strings.size = (values, slots'))
    {part' : AttributePart} {tree : Tree} {events : List Event}
    (hset : part.setValues w.tree values = (part', tree, events)) :
    t.Given objects known known exact blank strict ds depth w p before after label closing f f done ss
      c (.attribute part'.current) slots slots'
      { part := .attribute part', world := { w with tree, events := w.events ++ events } } := by
  obtain ⟨rfl, hk, helement, hprevious⟩ := hpart
  have htaken {P : Value → Prop} (hn : P .null) (hP : slots.All P) :
      (∀ v ∈ values, P v) ∧ slots'.All P := by
    have := hP.takeMany hn c.valueIndex part.strings.size
    rwa [htake] at this
  obtain ⟨hturns, hstands, hfits, hcurrent, hkept⟩ := h.renew hparts hk hl helement hprevious hdone
    hleft (fun he => by
      cases hblank he with
      | cons hb hbs => exact ⟨hb, Part.attributesAt_of_blank hleft hbs c.index⟩)
    (Value.faithfulAll_iff.2 (htaken trivial hslots).1) hset
    (show World.tree { w with tree, events := w.events ++ events } = tree from rfl) rfl
  refine ⟨hturns, hstands, hfits, hkept, fun P hn hP => (htaken hn hP).2,
    fun _ _ look forecast _ _ => ?_, fun _ _ _ look _ cs hne => ⟨rfl, fun hn => hne ?_⟩,
    fun _ look _ => ?_⟩
  · refine ⟨.attribute part'.current, ⟨_, rfl, rfl⟩, fun cs rest hrest => ?_⟩
    simp [Template.shows, hk, Slots.takeMany_meanings Value.foreseen_null, htake, hrest, hcurrent,
      Value.foreseen, Function.comp_def]
  · simp [Template.shows, hk, Slots.takeMany_meanings Value.meaning_null, htake, hn]
  · have hprevious := part.previous_setValues w.tree values
    rw [hset] at hprevious
    exact ⟨values, by rw [TemplatePart.deal_attribute hk, htake], hfits.2.1, hprevious⟩

theorem Patch.Correct.parts {patch : Patch} (hp : patch.Correct objects exact strict ds depth)
    {s : Setting} (hds : s.deferreds = ds) (hstrict : s.strictValueCount = strict)
    {ps qs : List Part} {cs front : List TemplatePart} {ss done : List (Shown NodeId)}
    (h : t.Stands objects known exact w p before after label closing (done ++ ss) f)
    (hparts : t.parts = front ++ cs)
    (hdone : Part.FitsAll objects known w.tree.kind exact label (t.stopAt label closing) qs front
      done)
    (hleft : Part.FitsAll objects known w.tree.kind exact label (t.stopAt label closing) ps cs ss)
    (blank : Bool) (hblank : exact = true ∨ blank = true → List.Forall₂ Part.Blank ps ss)
    {slots : Slots} (hslots : slots.All (Value.Faithful objects)) :
    ∃ known' ss' f', t.Filled objects known known' exact blank strict ds depth w p before after label
      closing f f' qs done ss' cs slots (Patch.parts patch s w qs.reverse ps cs slots) := by
  induction ps generalizing known w f qs front done cs ss slots with
  | nil =>
    obtain ⟨rfl, rfl⟩ := hleft
    have heq : Patch.parts patch s w qs.reverse [] [] slots = { part := qs, world := w } := by
      simp [Patch.parts]
    rw [heq]
    exact ⟨known, [], f, .nil h hparts hdone⟩
  | cons part ps ih =>
    obtain ⟨c, cs, now, ss, rfl, rfl, hpart, hleft⟩ := hleft
    have hlength : front.length = done.length := hdone.length_eq.2
    have hassoc : t.parts = (front ++ [c]) ++ cs := by simp [hparts]
    have hblank' : exact = true ∨ blank = true → List.Forall₂ Part.Blank ps ss := fun he =>
      (List.forall₂_cons.1 (hblank he)).2
    match part with
    | .node part =>
      obtain ⟨value, slots', htake⟩ : ∃ value slots', slots.take c.valueIndex = (value, slots') :=
        ⟨_, _, rfl⟩
      obtain ⟨holding, hholding⟩ : ∃ holding, holding = s.holding (slots'.left ++
        Part.heldByAll qs.reverse ++ Part.heldByAll ps) := ⟨_, rfl⟩
      obtain ⟨known₁, now', f₁, hg⟩ := hp.node (s := holding) (by rw [hholding]; exact hds)
        (by rw [hholding]; exact hstrict) h hparts hlength hpart blank
        (fun he => (List.forall₂_cons.1 (hblank he)).1) hslots htake
      obtain ⟨a, ha⟩ : ∃ a, a = patch holding w part value := ⟨_, rfl⟩
      rw [← ha] at hg
      cases herror : a.error with
      | some e =>
        have heq : Patch.parts patch s w qs.reverse (.node part :: ps) (c :: cs) slots =
            (a.map Part.node).map fun q => qs ++ q :: ps := by
          simp only [Patch.parts, htake, ← hholding, ← ha, herror, List.reverse_reverse, Applied.map]
        rw [heq]
        exact ⟨known₁, now' :: ss, f₁, .failed hg herror hparts hdone hleft⟩
      | none =>
        have heq : Patch.parts patch s w qs.reverse (.node part :: ps) (c :: cs) slots =
            Patch.parts patch s a.world (qs ++ [Part.node a.part]).reverse ps cs slots' := by
          simp only [Patch.parts, htake, ← hholding, ← ha, herror, List.reverse_append,
            List.reverse_singleton, List.singleton_append]
        obtain ⟨known₂, ss', f₂, hfilled⟩ := ih (List.append_cons done now' ss ▸ hg.stands) hassoc
          (hg.fits_done hdone) (hg.fits_behind hleft) hblank' (hg.left _ trivial hslots)
        rw [heq]
        exact ⟨known₂, now' :: ss', f₂, .cons hg herror hfilled⟩
    | .attribute part =>
      obtain ⟨values, slots', htake⟩ : ∃ values slots',
          slots.takeMany c.valueIndex part.strings.size = (values, slots') := ⟨_, _, rfl⟩
      obtain ⟨part', tree, events, hset⟩ : ∃ part' tree events,
          part.setValues w.tree values = (part', tree, events) := ⟨_, _, _, rfl⟩
      have hg : t.Given objects known known exact blank strict ds depth w p before after label closing
          f f done ss c (.attribute part'.current) slots slots' { part := .attribute part', world :=
            { w with tree, events := w.events ++ events } } :=
        .attribute h hparts hlength hpart hdone hleft (fun he => hblank (.inl he)) hslots htake hset
      have heq : Patch.parts patch s w qs.reverse (.attribute part :: ps) (c :: cs) slots =
          Patch.parts patch s { w with tree, events := w.events ++ events }
            (qs ++ [Part.attribute part']).reverse ps cs slots' := by
        simp only [Patch.parts, htake, hset, List.reverse_append, List.reverse_singleton,
          List.singleton_append]
      obtain ⟨known₂, ss', f₂, hfilled⟩ := ih (List.append_cons done _ ss ▸ hg.stands) hassoc
        (hg.fits_done hdone) (hg.fits_behind hleft) hblank' (hg.left _ trivial hslots)
      rw [heq]
      exact ⟨known₂, _ :: ss', f₂, .cons hg rfl hfilled⟩

/-- What giving a copy its values comes to. -/
structure Template.Updated (t : Template) (objects : Objects) (known known' : Registry)
    (exact blank strict : Bool) (ds : Deferreds) (depth : Nat) (w : World) (p : NodeId)
    (before after : List NodeId) (label closing : Nat → NodeId) (f f' : List (Branch NodeId))
    (shown : List (Shown NodeId)) (values : List Value) (a : Applied (List Part)) : Prop where
  turns : World.Turns objects known known' w a.world p (labelsOfAll f) (labelsOfAll f')
  stands : t.Stands objects known' exact a.world p before after label closing shown f'
  fits : Part.FitsAll objects known' a.world.tree.kind exact label (t.stopAt label closing) a.part
    t.parts shown
  reads : a.error = none → (∀ v ∈ values, v.Plain blank ds) → ∀ (look : Look) (forecast : Forecast),
    look.Agrees objects a.world.cache → (∀ v ∈ values, v.Foreseeable forecast) →
    ∃ read, t.denote strict (Value.foreseeAll look strict forecast values) = some (t.filled read) ∧
      Part.ReadsAll forecast objects known' a.world.tree.kind exact a.part shown read
  succeeds : 0 < depth → (∀ v ∈ values, v.Reached depth) → (∀ v ∈ values, v.Outstanding ds) →
    ∀ look : Look, look.Yields objects w.cache →
    t.denote strict (Value.meanings look strict values) ≠ none → a.error = none
  carries : a.error = none → ∀ look : Look, look.Covers objects a.world.cache →
    (strict = true → t.valueCount = values.length) ∧
      Part.CarriesAll look strict label (t.stopAt label closing) a.part t.parts shown
        (Slots.dealt t.parts (values.map some))

theorem Patch.Correct.update {patch : Patch} (hp : patch.Correct objects exact strict ds depth)
    {s : Setting} (hds : s.deferreds = ds) (hstrict : s.strictValueCount = strict) {ps : List Part}
    {shown : List (Shown NodeId)}
    (h : t.Stands objects known exact w p before after label closing shown f)
    (hfits : Part.FitsAll objects known w.tree.kind exact label (t.stopAt label closing) ps t.parts
      shown)
    (blank : Bool) (hblank : exact = true ∨ blank = true → List.Forall₂ Part.Blank ps shown)
    {values : List Value} (hvalues : ∀ v ∈ values, v.Faithful objects) :
    ∃ known' shown' f', t.Updated objects known known' exact blank strict ds depth w p before after
      label closing f f' shown' values (Patch.update patch s w t ps values) := by
  have hmeanings (g : Value → Meaning) :
      Slots.meanings g (values.map some) = (values.map g).map some := by
    rw [Slots.meanings, List.map_map, List.map_map]
    rfl
  have hlength (look : Look) : (Value.meanings look strict values).length = values.length := by
    rw [Value.meanings_eq_map, List.length_map]
  unfold Patch.update
  simp only [hstrict]
  split
  · rename_i hcount
    refine ⟨known, shown, f, .of_exchange h.coherent rfl (.refl h.accounted p _) h.textLeaves, h,
      hfits, fun he => (by cases he), fun _ _ _ look _ hne => absurd ?_ hne, fun he => by cases he⟩
    rw [Template.denote, hlength, if_pos hcount]
  · rename_i hcount
    obtain ⟨v, hv⟩ : ∃ v, v = if t.valueCount = values.length then w
        else w.report (.valueCount t.valueCount values.length) := ⟨_, rfl⟩
    have htree : v.tree = w.tree := by
      rw [hv]
      split <;> rfl
    have hcache : v.cache = w.cache := by
      rw [hv]
      split <;> rfl
    have hstands : t.Stands objects known exact v p before after label closing ([] ++ shown) f :=
      ⟨h.sound, hcache ▸ h.coherent, htree ▸ h.accounted, htree ▸ h.textLeaves, htree ▸ h.stretch,
        htree ▸ h.copied⟩
    have hnone : Part.FitsAll objects known v.tree.kind exact label (t.stopAt label closing) [] [] [] :=
      ⟨rfl, rfl⟩
    obtain ⟨known', shown', f', hfilled⟩ := hp.parts hds hstrict hstands (List.nil_append t.parts).symm
      hnone (htree ▸ hfits) blank hblank (Slots.all_map_some hvalues)
    rw [← hv]
    refine ⟨known', shown', f', hfilled.turns.of_tree htree.symm hcache.symm rfl rfl, hfilled.stands,
      hfilled.fits, fun he hplain look forecast hlook hforesee => ?_,
      fun hd hr ho look hlook hne => ?_, fun he look hlook => ⟨fun htrue => ?_, ?_⟩⟩
    · obtain ⟨bs, hbs, hread⟩ := hfilled.reads he (Slots.all_map_some hplain) look forecast hlook
        (Slots.all_map_some hforesee)
      refine ⟨bs, ?_, hread [] ⟨rfl, rfl⟩⟩
      rw [Template.denote, Value.foreseeAll_eq_map, List.length_map, if_neg hcount, ← hmeanings, hbs]
      rfl
    · refine hfilled.succeeds hd (Slots.all_map_some hr) (Slots.all_map_some ho) look
        (hcache ▸ hlook) fun hn => hne ?_
      rw [Template.denote, hlength, if_neg hcount, Value.meanings_eq_map, ← hmeanings]
      exact congrArg (Option.map t.filled) hn
    · exact not_ne_iff.1 fun hne => hcount ⟨hne, htrue⟩
    · exact hfilled.carries he look hlook [] [] rfl ⟨rfl, rfl, rfl⟩

end LiveMarkup
