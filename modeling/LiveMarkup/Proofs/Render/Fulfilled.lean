import LiveMarkup.Proofs.Part.Ending
import LiveMarkup.Proofs.Render.Confining
import LiveMarkup.Proofs.Render.Outstanding
import LiveMarkup.Proofs.Template.History

set_option autoImplicit false

/-!
Stand-ins for values that are there. A part that is given a stand-in for a fulfilled deferred value
does what it would do with the outcome, unless it waits for that very value: then it goes on waiting,
and the next flush shows the outcome.
-/

namespace LiveMarkup

variable {objects : Objects} {part : NodePart} {patch : Patch} {s : Setting} {w : World}
  {value : Value}

/-- Runs that differ in what else there is, and in the identities that the caches remember. -/
def Likeness.holders (objects : Objects) : Likeness where
  settings s s' := s'.deferreds = s.deferreds ∧ s'.strictValueCount = s.strictValueCount ∧
    s.deferreds.Faithful objects
  worlds w w' := w'.tree = w.tree ∧ w.cache.SameContent w'.cache ∧
    (∃ known, w.cache.Coherent objects known) ∧ ∃ known, w'.cache.Coherent objects known
  values := Value.Faithful objects
  deferreds_eq h := h.1
  strict_eq h := h.2.1
  holding h _ := h
  tree_eq h := h.1
  edited h _ _ := ⟨rfl, h.2⟩
  asked := by
    rintro s s' w w' hs ⟨htree, hsame, ⟨known, hc⟩, known', hc'⟩ strings vs kind ⟨hstrings, -⟩ held
    obtain ⟨known₁, ha⟩ := hc.answers hstrings ((s.holders ++ held).holdsStrings s.deferreds) kind
    obtain ⟨known₂, ha'⟩ :=
      hc'.answers hstrings ((s'.holders ++ held).holdsStrings s'.deferreds) kind
    exact ⟨hsame.outcome_eq hc hc' hstrings, htree, hsame.getOrCompile hc hc' hstrings,
      ⟨known₁, ha.coherent⟩, known₂, ha'.coherent⟩
  null := trivial
  template h := Value.faithfulAll_iff.1 h.2
  iterable h := Value.faithfulAll_iff.1 h
  shown h := h
  outcome h _ _ hpoll := h.2.2 _ _ hpoll

namespace Patch

theorem isPending_finish {a : Applied (List NodePart × List NodePart)}
    (he : (finish part a).error = none) : (finish part a).part.isPending = false := by
  obtain ⟨⟨done, left⟩, world, error⟩ := a
  match error, done with
  | some e, _ => cases he
  | none, [] => rfl
  | none, last :: others =>
    cases left <;> rfl

theorem isPending_fresh {shared : SharedTemplate} {values : List Value}
    (he : (fresh patch s w part shared values).error = none) :
    (fresh patch s w part shared values).part.isPending = false := by
  unfold fresh at he ⊢
  split
  · rename_i hcopy
    simp only [hcopy] at he
    cases he
  · rfl

theorem isPending_answered {values : List Value}
    {outcome : Except (List Markup.SyntaxError) SharedTemplate}
    (he : (answered patch s w part values outcome).error = none) :
    (answered patch s w part values outcome).part.isPending = false := by
  match outcome with
  | .error errors => cases he
  | .ok shared =>
    unfold answered at he ⊢
    cases hstate : part.state with
    | nested shown ps =>
      simp only [hstate] at he ⊢
      split
      · rfl
      · rename_i hid
        rw [if_neg hid] at he
        exact isPending_fresh he
    | _ =>
      simp only [hstate] at he ⊢
      exact isPending_fresh he

/-- A value without deferred ones that was applied does not leave the part waiting. -/
theorem isPending_step (hplain : value.deferreds = [])
    (he : (step patch s w part value).error = none) :
    (step patch s w part value).part.isPending = false := by
  have hshown {a : Applied NodePart} (h : ∃ state, a.part.state = state ∧
      ∀ d, state ≠ .pending d) : a.part.isPending = false := by
    obtain ⟨state, hstate, hother⟩ := h
    unfold NodePart.isPending
    rw [hstate]
    split
    · exact absurd rfl (hother _)
    · rfl
  cases value with
  | primitive q =>
    obtain ⟨shown, hstate, -⟩ := part.state_setPrimitive w q
    exact hshown ⟨_, hstate, by simp⟩
  | template strings values kind =>
    obtain ⟨alive, v, -, -, heq⟩ := template_eq patch s w part ⟨strings, values, kind⟩
    have hstep : step patch s w part (.template strings values kind) =
        template patch s w part ⟨strings, values, kind⟩ := rfl
    rw [hstep, heq] at he ⊢
    exact isPending_answered he
  | iterable values =>
    have hstep : step patch s w part (.iterable values) = iterable patch s w part values := rfl
    rw [hstep] at he ⊢
    by_cases hstate : ∃ ps, part.state = .items ps
    · obtain ⟨ps, hstate⟩ := hstate
      rw [iterable_items _ _ _ hstate] at he ⊢
      exact isPending_finish he
    · rw [iterable_other _ _ _ fun ps hp => hstate ⟨ps, hp⟩] at he ⊢
      exact isPending_finish he
  | node fragment =>
    obtain ⟨shown, hstate, -⟩ := part.state_setNode w fragment
    exact hshown ⟨_, hstate, by simp⟩
  | pending d => cases hplain
  | placeholder d shown => cases hplain
  | absent =>
    obtain ⟨shown, hstate, -⟩ := part.state_setPrimitive w .null
    exact hshown ⟨_, hstate, by simp⟩
  | display object => rfl

end Patch

namespace NodePart

variable {d : DeferredId} {known : Registry}

/-- A part that waits for the value already is left as it is. -/
theorem setValue_awaited (hstate : part.state = .pending d) (s : Setting) (w : World)
    (shown : Value) :
    part.setValue s w (.placeholder d shown) = { part, world := w.report .stillWaiting } := by
  obtain ⟨depth, -, hset⟩ := part.exists_setValue_step s w (.placeholder d shown)
  exact hset.trans (Patch.placeholder_waits hstate shown)

/-- A part that does not wait for the value does what it does when it is given the outcome. -/
theorem alike_of_fulfilled (hc : w.cache.Coherent objects known)
    (hs : s.deferreds.Faithful objects) (hpoll : s.deferreds.poll d = .fulfilled value)
    (hgrounded : value.Grounded s.deferreds) (hstate : part.state ≠ .pending d) (shown : Value) :
    (Likeness.holders objects).Alike (part.setValue s w value)
      (part.setValue s w (.placeholder d shown)) := by
  obtain ⟨depth, hdepth, hset⟩ := part.exists_setValue_step s w (.placeholder d shown)
  have hweight := Deferreds.weight_le_weight hpoll
  obtain ⟨hends, hdeeper⟩ := setValue_ends hgrounded w part
  have hsame := hdeeper depth (by omega)
  rw [hset, Patch.step, Patch.placeholder_new hstate, hpoll, ← hsame]
  rw [← hsame] at hends
  exact (Likeness.holders objects).follows_within (Nat.le_refl depth) part
    ⟨rfl, rfl, hs⟩ ⟨rfl, ⟨rfl, rfl, rfl, fun _ => rfl⟩, ⟨known, hc⟩, known, hc⟩ (hs d value hpoll)
    hends

theorem isPending_setValue (hplain : value.deferreds = [])
    (he : (part.setValue s w value).error = none) :
    (part.setValue s w value).part.isPending = false := by
  obtain ⟨depth, -, hset⟩ := part.exists_setValue_step s w value
  rw [hset] at he ⊢
  exact Patch.isPending_step hplain he

end NodePart

/-- Whatever part of whatever root is given a stand-in for a deferred value that is fulfilled with a
value without deferred ones. If the part does not wait for that value already, it does what it does
when it is given the outcome itself: the part, the tree and the error are the same, and without an
error it does not wait. If it waits for that value, nothing changes. -/
theorem Host.Reachable.setValue_fulfilled {h : Host} (hh : h.Reachable objects) {r : Renderer}
    (hr : r ∈ h.renderers) (hs : s.deferreds.Faithful objects) {d : DeferredId}
    (hpoll : s.deferreds.poll d = .fulfilled value) (hplain : value.deferreds = [])
    (root : RenderRoot) (part : NodePart) (shown : Value) :
    let standIn := part.setValue s (root.world r) (.placeholder d shown)
    let outcome := part.setValue s (root.world r) value
    (part.state ≠ .pending d → standIn.part = outcome.part ∧
        standIn.world.tree = outcome.world.tree ∧ standIn.error = outcome.error ∧
        (standIn.error = none → standIn.part.isPending = false)) ∧
      (part.state = .pending d → standIn.part = part ∧ standIn.world.tree = root.tree ∧
        standIn.error = none) := by
  intro standIn outcome
  obtain ⟨known, hsound⟩ := hh.sound
  obtain ⟨i, hi⟩ := List.getElem?_of_mem hr
  refine ⟨fun hstate => ?_, fun hstate => ?_⟩
  · have halike : (Likeness.holders objects).Alike outcome standIn :=
      NodePart.alike_of_fulfilled (hsound.renderers i r hi).2 hs hpoll
        (Value.grounded_of_nil hplain) hstate shown
    refine ⟨halike.part_eq, halike.worlds.1, halike.error_eq, fun he => ?_⟩
    rw [halike.part_eq]
    exact NodePart.isPending_setValue hplain (halike.error_eq.symm.trans he)
  · have hawaited : standIn = { part, world := (root.world r).report .stillWaiting } :=
      NodePart.setValue_awaited hstate s (root.world r) shown
    rw [hawaited]
    exact ⟨rfl, rfl, rfl⟩

/-- The paragraph's text gives way to the outcome and not to what stands in for it. -/
theorem Host.withParagraph_setValue_fulfilled :
    ∃ root ∈ Host.withParagraph.roots, ∃ r ∈ Host.withParagraph.renderers,
      ∃ part ∈ Part.subpartsOfAll root.parts,
        let standIn := part.setValue .detour (root.world r)
          (.placeholder ⟨0⟩ (.primitive (.str "wait")))
        standIn.world.tree =
            (part.setValue .detour (root.world r) (.primitive (.str "late"))).world.tree ∧
          standIn.error = none ∧ standIn.part.isPending = false := by
  obtain ⟨hroots, hrenderers⟩ := Host.withParagraph_length
  have hparts : 0 < (Part.subpartsOfAll Host.withParagraph.roots[0].parts).length := by
    decide +kernel +revert
  have hpending : ((Part.subpartsOfAll Host.withParagraph.roots[0].parts)[0].isPending) = false := by
    decide +kernel +revert
  have hshown : ((Part.subpartsOfAll Host.withParagraph.roots[0].parts)[0].setValue .detour
      (Host.withParagraph.roots[0].world Host.withParagraph.renderers[0])
      (.primitive (.str "late"))).error.isNone = true := by
    decide +kernel +revert
  have hstate : (Part.subpartsOfAll Host.withParagraph.roots[0].parts)[0].state ≠ .pending ⟨0⟩ := by
    intro h
    simp [NodePart.isPending, h] at hpending
  obtain ⟨hother, -⟩ := Host.Reachable.setValue_fulfilled Host.reachable_withParagraph
    (List.getElem_mem hrenderers) (s := .detour) (d := ⟨0⟩) Setting.faithful_detour rfl rfl
    Host.withParagraph.roots[0] (Part.subpartsOfAll Host.withParagraph.roots[0].parts)[0]
    (.primitive (.str "wait"))
  obtain ⟨-, htree, herror, hdone⟩ := hother hstate
  have hnone := herror.trans (Option.isNone_iff_eq_none.1 hshown)
  exact ⟨_, List.getElem_mem hroots, _, List.getElem_mem hrenderers, _, List.getElem_mem hparts,
    htree, hnone, hdone hnone⟩

/-- A part that waits for a value goes on waiting when it is given a stand-in for that value after it
has been fulfilled, where the outcome itself would be shown. -/
theorem Host.withAwaited_not_shown :
    Host.withAwaited.Reachable (.only (bareHole 0)) ∧
      Setting.detour.deferreds.outcome? ⟨0⟩ = some (.primitive (.str "late")) ∧
      ∃ root ∈ Host.withAwaited.roots, ∃ r ∈ Host.withAwaited.renderers,
        ∃ part ∈ Part.subpartsOfAll root.parts,
          let standIn := part.setValue .detour (root.world r)
            (.placeholder ⟨0⟩ (.primitive (.str "wait")))
          let outcome := part.setValue .detour (root.world r) (.primitive (.str "late"))
          standIn.error = none ∧ standIn.part.isPending = true ∧
            standIn.world.tree.toHtml root.root {} = "" ∧
            outcome.world.tree.toHtml root.root {} = "late" := by
  obtain ⟨hroots, hrenderers⟩ := Host.withAwaited_length
  have hparts : 0 < (Part.subpartsOfAll Host.withAwaited.roots[0].parts).length := by
    decide +kernel +revert
  have hruns : (let w := Host.withAwaited.roots[0].world Host.withAwaited.renderers[0]
      let part := (Part.subpartsOfAll Host.withAwaited.roots[0].parts)[0]
      let standIn := part.setValue .detour w (.placeholder ⟨0⟩ (.primitive (.str "wait")))
      let outcome := part.setValue .detour w (.primitive (.str "late"))
      standIn.error = none ∧ standIn.part.isPending = true ∧
        standIn.world.tree.toHtml Host.withAwaited.roots[0].root {} = "" ∧
        outcome.world.tree.toHtml Host.withAwaited.roots[0].root {} = "late") := by
    decide +kernel +revert
  exact ⟨Host.reachable_withAwaited, rfl, _, List.getElem_mem hroots, _,
    List.getElem_mem hrenderers, _, List.getElem_mem hparts, hruns⟩

end LiveMarkup
