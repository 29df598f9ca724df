import LiveMarkup.Proofs.Render.Settling
import LiveMarkup.Proofs.Render.Sparing

set_option autoImplicit false

/-!
Values that are still to come. A flush changes what is in the regions of the parts whose values are
there, and nothing else. A part that was given something else than what it waited for never waits
for that again, unless it was refused the value or is led back by an outcome; and a flush that
reports nothing outstanding leaves no part waiting, unless an outcome brought something new to wait
for.
-/

namespace LiveMarkup

open NodePart (Unawaited)

/-- What becomes of a part that is given values, that is flushed, and whose end is moved. The values
refer to no barred deferred value, and the outcomes to barred ones only if they are barred ones'. -/
inductive NodePart.Later (barred : DeferredId → Prop) (part : NodePart) : NodePart → Prop
  | same : part.Later barred part
  | given {q : NodePart} (h : part.Later barred q) (depth : Nat) (s : Setting) (w : World)
      (value : Value) (hs : s.deferreds.Closed barred) (hv : value.Unbarred barred) :
      part.Later barred (Patch.within depth s w q value).part
  | flushed {q : NodePart} (h : part.Later barred q) (s : Setting) (w : World)
      (report : FlushReport) (hs : s.deferreds.Closed barred) :
      part.Later barred (q.flush s w report).part
  | ended {q : NodePart} (h : part.Later barred q) (stop : NodeId) :
      part.Later barred (q.withStop stop)

/-- A part of a copy becomes another; attribute parts wait for nothing. -/
def Part.Later (barred : DeferredId → Prop) : Part → Part → Prop
  | .node part, .node q => part.Later barred q
  | .attribute _, .attribute _ => True
  | _, _ => False

variable {barred : DeferredId → Prop} {part q : NodePart} {s : Setting} {w : World}
  {root : RenderRoot} {r : Renderer}

/-- A part that waits for no barred deferred value never comes to wait for one. -/
theorem NodePart.Later.unawaited (h : part.Later barred q) (hp : Unawaited barred part.subparts) :
    Unawaited barred q.subparts := by
  induction h with
  | same => exact hp
  | given _ depth s w value hs hv ih => exact (Patch.rids_within hs depth).unawaited rfl hv ih
  | flushed _ s w report hs ih => exact NodePart.unawaited_flush hs report _ ih
  | ended _ stop ih => exact NodePart.unawaited_withStop _ ih stop

namespace Part

theorem Later.refl (part : Part) : part.Later barred part := by
  cases part with
  | node part => exact .same
  | «attribute» part => trivial

theorem later_refl (parts : List Part) : List.Forall₂ (Part.Later barred) parts parts :=
  List.forall₂_same.2 fun part _ => .refl part

theorem later_flushAll (hs : s.deferreds.Closed barred) (report : FlushReport) {old done : List Part}
    (parts : List Part) (hdone : List.Forall₂ (Part.Later barred) old done) :
    List.Forall₂ (Part.Later barred) (old.reverse ++ parts)
      (Part.flushAll s w report done parts).part := by
  induction parts generalizing old done w report with
  | nil =>
    rw [Part.flushAll, List.append_nil]
    exact List.forall₂_reverse_iff.2 hdone
  | cons part ps ih =>
    cases part with
    | «attribute» part =>
      rw [Part.flushAll, List.append_cons, ← List.reverse_cons]
      exact ih report (.cons trivial hdone)
    | node part =>
      have hpart : part.Later barred (part.flush (s.holding
          (Part.heldByAll done ++ Part.heldByAll ps)) w report).part := .flushed .same _ w report hs
      rw [Part.flushAll]
      split
      · exact List.rel_append (List.forall₂_reverse_iff.2 hdone) (.cons hpart (later_refl ps))
      · rw [List.append_cons, ← List.reverse_cons]
        exact ih _ (.cons hpart hdone)

theorem later_parts (depth : Nat) (hs : s.deferreds.Closed barred) {old done : List Part}
    (parts : List Part) {cs : List TemplatePart} {slots : Slots}
    (hdone : List.Forall₂ (Part.Later barred) old done)
    (hslots : slots.All (Value.Unbarred barred)) :
    List.Forall₂ (Part.Later barred) (old.reverse ++ parts)
      (Patch.parts (.within depth) s w done parts cs slots).part := by
  induction parts generalizing old done w cs slots with
  | nil =>
    rw [Patch.parts]
    · exact List.rel_append (List.forall₂_reverse_iff.2 hdone) .nil
    all_goals simp
  | cons part ps ih =>
    cases cs with
    | nil =>
      rw [Patch.parts]
      · exact List.rel_append (List.forall₂_reverse_iff.2 hdone) (later_refl _)
      all_goals simp
    | cons c cs =>
      cases part with
      | «attribute» part =>
        have hslots' := (hslots.takeMany Value.unbarred_null c.valueIndex part.strings.size).2
        rw [List.append_cons, ← List.reverse_cons]
        exact ih (.cons trivial hdone) hslots'
      | node part =>
        obtain ⟨hvalue, hslots'⟩ := hslots.take Value.unbarred_null c.valueIndex
        obtain ⟨holding, hholding⟩ : ∃ holding, holding = s.holding
          ((slots.take c.valueIndex).2.left ++ Part.heldByAll done ++ Part.heldByAll ps) := ⟨_, rfl⟩
        have hpart : part.Later barred
            (Patch.within depth holding w part (slots.take c.valueIndex).1).part :=
          .given .same depth _ w _ (by rw [hholding]; exact hs) hvalue
        simp only [Patch.parts, ← hholding]
        split
        · exact List.rel_append (List.forall₂_reverse_iff.2 hdone) (.cons hpart (later_refl ps))
        · rw [List.append_cons, ← List.reverse_cons]
          exact ih (.cons hpart hdone) hslots'

end Part

theorem RenderRoot.later_flush (hs : s.deferreds.Closed barred) :
    List.Forall₂ (Part.Later barred) root.parts (root.flush r s).result.1.root.parts :=
  Part.later_flushAll (s := { s with strictValueCount := r.config.strictValueCount }) hs {} root.parts
    .nil

theorem RenderRoot.later_update (hs : s.deferreds.Closed barred) {values : List Value}
    (hv : ∀ v ∈ values, v.Unbarred barred) :
    List.Forall₂ (Part.Later barred) root.parts (root.update r s values).result.root.parts := by
  simp only [RenderRoot.update, Part.update, Patch.update]
  split
  · exact Part.later_refl root.parts
  · exact Part.later_parts (s := { s with strictValueCount := r.config.strictValueCount }) _ hs
      root.parts .nil (Slots.all_map_some hv)

/-- What a part that waited comes to after it was given a value that does not lead to what it waited
for: it never waits for that again, and what else it may wait for decides about its region alone. -/
theorem NodePart.rid_given {d : DeferredId} (hstate : part.state = .pending d) (hd : barred d)
    (depth : Nat) {value : Value} (hs : s.deferreds.Closed barred) (hv : value.Unbarred barred) :
    let a := Patch.within depth s w part value
    a.error ≠ none ∧ a.part = part ∨
      ∀ later, a.part.Later barred later →
        (∀ q ∈ later.subparts, q.state ≠ .pending d) ∧
        ∀ s' w' report, (∀ q ∈ later.subparts, ∀ e, q.state = .pending e →
            s'.deferreds.Fulfilled e → barred e) →
          (later.flush s' w' report).world.tree = w'.tree := by
  rcases Patch.rids_within hs depth s w part value rfl hv
    (.inr (by simp [NodePart.isPending, hstate])) with hrid | hrefused
  · refine .inr fun later hlater => ?_
    have hlater := hlater.unawaited hrid
    refine ⟨fun q hq he => hlater q hq d he hd, fun s' w' report hdue => ?_⟩
    exact (NodePart.tree_flush report later fun q hq e he hfulfilled =>
      hlater q hq e he (hdue q hq e he hfulfilled)).1
  · exact .inl hrefused

/-- In every root to which calls have led, a flush leaves alone what is outside the regions of the
parts whose values are there, and does nothing if there is no such part. A part that is given a value
that does not lead to what it waited for is refused it, and is what it was, or is rid of what it
waited for. -/
theorem Host.Reachable.flush_spares {objects : Objects} {h : Host} (hh : h.Reachable objects)
    {root : RenderRoot} (hroot : root ∈ h.roots) :
    (∀ r ∈ h.renderers, ∀ s : Setting, s.deferreds.Faithful objects →
      let parts := Part.subpartsOfAll root.parts
      let after := (root.flush r s).result.1
      root.tree.Spares after.root.tree (NodePart.dueNodes s.deferreds root.tree parts) ∧
        ((∀ q ∈ parts, q.isDue s.deferreds = false) →
          after.root.tree = root.tree ∧ after.error = none)) ∧
    ∀ part ∈ Part.subpartsOfAll root.parts, ∀ d, part.state = .pending d →
      ∀ barred : DeferredId → Prop, barred d → ∀ (depth : Nat) (s : Setting) (w : World)
        (value : Value), s.deferreds.Closed barred → value.Unbarred barred →
      let a := Patch.within depth s w part value
      a.error ≠ none ∧ a.part = part ∨
        ∀ later, a.part.Later barred later →
          (∀ q ∈ later.subparts, q.state ≠ .pending d) ∧
          ∀ s' w' report, (∀ q ∈ later.subparts, ∀ e, q.state = .pending e →
              s'.deferreds.Fulfilled e → barred e) →
            (later.flush s' w' report).world.tree = w'.tree := by
  obtain ⟨known, hsound⟩ := hh.sound
  obtain ⟨label, closing, shown, f, hst⟩ := hsound.roots root hroot
  refine ⟨fun r hr s hs => ⟨?_, fun hnone => ?_⟩, fun part _ d hstate barred hd depth s w value hs hv =>
    NodePart.rid_given hstate hd depth hs hv⟩
  · obtain ⟨i, hi⟩ := List.getElem?_of_mem hr
    have hstands : root.template.template.Stands objects known false (root.world r) root.root [] []
        label closing ([] ++ shown) f := hst.template (hsound.renderers i r hi).2
    exact Part.spares_flushAll (s := { s with strictValueCount := r.config.strictValueCount }) {} []
      root.parts hstands (List.nil_append _).symm rfl hst.fits hs
  · refine Part.tree_flushAll (s := { s with strictValueCount := r.config.strictValueCount })
      (w := root.world r) {} [] root.parts fun q hq d hstate hfulfilled => ?_
    obtain ⟨value, hpoll⟩ := hfulfilled
    have hdue := hnone q hq
    simp [NodePart.isDue, hstate, Deferreds.outcome?, hpoll, Settlement.value?] at hdue

/-- A host with a root that waits for a value. -/
def Host.withAwaited : Host :=
  Host.run {} [.newRenderer {}, .renderRoot 0 .twoWaiting ⟨bareHole 0, [.pending ⟨0⟩], .html⟩]

theorem Host.reachable_withAwaited : Host.withAwaited.Reachable (.only (bareHole 0)) :=
  reachable_showing {} Setting.faithful_twoWaiting ⟨rfl, trivial, trivial⟩

theorem Host.withAwaited_length :
    0 < Host.withAwaited.roots.length ∧ 0 < Host.withAwaited.renderers.length := by
  decide +kernel

theorem Setting.closed_twoWaiting (barred : DeferredId → Prop) :
    twoWaiting.deferreds.Closed barred := by
  rintro ⟨i⟩ value - hpoll
  match i with
  | 0 | 1 | _ + 2 => cases hpoll

/-- One value that is to come is shown as another that is to come, and that as a text. -/
def Setting.detour : Setting :=
  { deferreds := ⟨#[.fulfilled (.primitive (.str "late")), .fulfilled (.pending ⟨0⟩)]⟩ }

theorem Setting.faithful_detour {objects : Objects} : detour.deferreds.Faithful objects := by
  rintro ⟨i⟩ value hvalue
  match i with
  | 0 | 1 =>
    obtain rfl := Settlement.fulfilled.inj hvalue
    trivial
  | _ + 2 => cases hvalue

/-- Nothing is in the region of the part that waits, and a text that it is given settles it. -/
theorem Host.withAwaited_flush_spares :
    ∃ root ∈ Host.withAwaited.roots, ∃ r ∈ Host.withAwaited.renderers,
      root.tree.Spares (root.flush r .detour).result.1.root.tree [] ∧
        (root.flush r .twoWaiting).result.1.root.tree = root.tree ∧
        ∃ part ∈ Part.subpartsOfAll root.parts, part.state = .pending ⟨0⟩ ∧
          ∀ later, (Patch.within 1 .twoWaiting (root.world r) part
              (.primitive (.str "now"))).part.Later (· = ⟨0⟩) later →
            ∀ q ∈ later.subparts, q.state ≠ .pending ⟨0⟩ := by
  obtain ⟨hroots, hrenderers⟩ := Host.withAwaited_length
  have hnothing : NodePart.dueNodes Setting.detour.deferreds Host.withAwaited.roots[0].tree
      (Part.subpartsOfAll Host.withAwaited.roots[0].parts) = [] := by decide +kernel +revert
  have hnone : ∀ q ∈ Part.subpartsOfAll Host.withAwaited.roots[0].parts,
      q.isDue Setting.twoWaiting.deferreds = false := by decide +kernel +revert
  have hroot := List.getElem_mem hroots
  have hr := List.getElem_mem hrenderers
  obtain ⟨hflush, hgiven⟩ := Host.Reachable.flush_spares Host.reachable_withAwaited hroot
  refine ⟨_, hroot, _, hr, ?_, ?_, ?_⟩
  · exact hnothing ▸ (hflush _ hr .detour Setting.faithful_detour).1
  · exact ((hflush _ hr .twoWaiting Setting.faithful_twoWaiting).2 hnone).1
  · have hwaits : (Part.subpartsOfAll Host.withAwaited.roots[0].parts).head?.map NodePart.state =
        some (.pending ⟨0⟩) := by cbv
    obtain ⟨part, hhead, hstate⟩ := Option.map_eq_some_iff.1 hwaits
    have hpart := List.mem_of_mem_head? hhead
    refine ⟨part, hpart, hstate, fun later hlater => ?_⟩
    have hrid := hgiven part hpart ⟨0⟩ hstate (· = ⟨0⟩) rfl 1 .twoWaiting
      (Host.withAwaited.roots[0].world Host.withAwaited.renderers[0]) (.primitive (.str "now"))
      (Setting.closed_twoWaiting _) (fun d hd => by cases hd)
    refine (hrid.resolve_left fun hrefused => hrefused.1 ?_) later hlater |>.1
    simp [Patch.within, Patch.step, NodePart.setPrimitive, NodePart.showsPrimitive, hstate,
      NodePart.setText]

/-- Awaited again, by way of another value, and still awaited, a value being refused: the deferred
value that the part was to be rid of is what it shows in the end. -/
theorem RenderRoot.awaited_after_all :
    let work := (Renderer.new 0 {}).renderRoot .twoWaiting ⟨bareHole 0, [.pending ⟨0⟩], .html⟩
    let shown (value : Value) := work.result.toOption.map fun root =>
      let given := root.update work.renderer .twoWaiting [value]
      let once := given.result.root.flush given.renderer .detour
      let twice := once.result.1.root.flush once.renderer .detour
      (given.result.error.isNone, twice.result.1.root.toHtml {})
    shown (.pending ⟨1⟩) = some (true, "late") ∧
      shown (.template (.ofFragments ⟨1⟩ ["<p"]) [] .html) = some (false, "late") := by
  constructor <;> cbv

/-- A flush that succeeds and leaves no part waiting reports that nothing is outstanding. The other
way round, one that reports so leaves no part waiting if the outcomes that the parts waited for lead
to no further deferred values. -/
theorem RenderRoot.isSettled_flush (root : RenderRoot) (r : Renderer) (s : Setting)
    (hok : (root.flush r s).result.1.error = none) :
    let after := Part.subpartsOfAll (root.flush r s).result.1.root.parts
    let report := (root.flush r s).result.2
    ((∀ q ∈ after, q.isPending = false) → report.isSettled = true) ∧
      (s.deferreds.Plain (Part.subpartsOfAll root.parts) →
        report.isSettled = true → ∀ q ∈ after, q.isPending = false) := by
  obtain ⟨rest, hrest, hcounts⟩ := Part.counts_flushAll
    (s := { s with strictValueCount := r.config.strictValueCount }) (w := root.world r) {} []
    root.parts hok
  replace hrest : (root.flush r s).result.1.root.parts = rest := hrest
  intro after report
  have hafter : after = Part.subpartsOfAll rest := by rw [← hrest]
  have hsettled : report.isSettled = true ↔ report.pending = 0 := by
    rw [FlushReport.isSettled, beq_iff_eq]
  rw [hsettled, hafter]
  exact ⟨hcounts.stays, hcounts.none_waits⟩

/-- Of the values of the pair, the first is there, or both are. -/
def Setting.pairThere (second : Settlement) : Setting :=
  { deferreds := ⟨#[.fulfilled (pairValue ⟨0⟩), second]⟩ }

theorem RenderRoot.isSettled_flush_pair :
    ∃ root, ((Renderer.new 0 {}).renderRoot .twoWaiting awaitedPair).result = .ok root ∧
      let first := (root.flush (Renderer.new 0 {}) (.pairThere .waiting)).result
      let both := (root.flush (Renderer.new 0 {}) (.pairThere (.fulfilled (pairValue ⟨1⟩)))).result
      (first.2.isSettled = false ∧
        ¬ ∀ q ∈ Part.subpartsOfAll first.1.root.parts, q.isPending = false) ∧
      both.2.isSettled = true ∧
        ∀ q ∈ Part.subpartsOfAll both.1.root.parts, q.isPending = false := by
  have hsome : ((Renderer.new 0 {}).renderRoot .twoWaiting awaitedPair).result.toOption.map
      (fun root =>
        let first := (root.flush (Renderer.new 0 {}) (.pairThere .waiting)).result
        let both :=
          (root.flush (Renderer.new 0 {}) (.pairThere (.fulfilled (pairValue ⟨1⟩)))).result
        ((first.1.error.isNone, first.2.isSettled), both.1.error.isNone, both.2.isSettled)) =
      some ((true, false), true, true) := by cbv
  obtain ⟨root, hroot, hdone⟩ := Option.map_eq_some_iff.1 hsome
  obtain ⟨hfirst, hboth⟩ := Prod.mk.inj hdone
  obtain ⟨hok, hreport⟩ := Prod.mk.inj hfirst
  obtain ⟨hok', hreport'⟩ := Prod.mk.inj hboth
  refine ⟨root, Except.ok_of_toOption hroot, ⟨hreport, fun hnone => ?_⟩, hreport', ?_⟩
  · have hsettled := (RenderRoot.isSettled_flush root (Renderer.new 0 {}) (.pairThere .waiting)
      (Option.isNone_iff_eq_none.1 hok)).1 hnone
    rw [hreport] at hsettled
    cases hsettled
  · refine (RenderRoot.isSettled_flush root (Renderer.new 0 {})
      (.pairThere (.fulfilled (pairValue ⟨1⟩))) (Option.isNone_iff_eq_none.1 hok')).2 ?_ hreport'
    rintro q - ⟨i⟩ value - hpoll
    rcases i with _ | _ | i
    · obtain rfl := Settlement.fulfilled.inj hpoll
      exact (pairValue_renders _).1
    · obtain rfl := Settlement.fulfilled.inj hpoll
      exact (pairValue_renders _).1
    · cases hpoll

/-- An outcome that is itself to come is not counted, and the part goes on waiting. -/
theorem RenderRoot.settled_while_waiting :
    let work := (Renderer.new 0 {}).renderRoot .twoWaiting ⟨bareHole 0, [.pending ⟨0⟩], .html⟩
    (work.result.toOption.map fun root =>
      let done := (root.flush work.renderer
        { deferreds := ⟨#[.fulfilled (.pending ⟨1⟩), .waiting]⟩ }).result
      (done.1.error.isNone, done.2.isSettled,
        (Part.subpartsOfAll done.1.root.parts).any (·.isPending))) = some (true, true, true) := by
  cbv

end LiveMarkup
