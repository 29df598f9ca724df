import LiveMarkup.Part.Flush
import LiveMarkup.Proofs.Part.Likeness
import LiveMarkup.Proofs.Value.Leading

set_option autoImplicit false

/-!
Applying values comes to an end. A value that leads to no deferred one that leads back to itself is
applied long before the depth at which the recursion is cut off, whatever the part shows and whatever
its tree is; a stand-in for a value that is fulfilled with a stand-in for itself has no end at any
depth.
-/

namespace LiveMarkup

theorem Except.error_of_map {ε α β : Type} {x : Except ε α} {g : α → β} {e : ε}
    (h : x.map g = .error e) : x = .error e := by
  cases x with
  | error e' => exact congrArg Except.error (Except.error.inj h)
  | ok a => cases h

theorem Part.error_bind {t : Tree} {part : TemplatePart} {node : NodeId} {e : RenderError}
    (h : (Part.bind t part node).2 = .error e) : e ≠ .endlessValue := by
  rintro rfl
  unfold Part.bind at h
  split at h
  · split at h
    · split at h <;> cases h
    · cases h
  · split at h <;> cases h

theorem Part.error_bindAll {t : Tree} {places : List (TemplatePart × NodeId)} {e : RenderError}
    (h : (Part.bindAll t places).2 = .error e) : e ≠ .endlessValue := by
  induction places generalizing t with
  | nil => cases h
  | cons place places ih =>
    rw [Part.bindAll] at h
    split at h
    · rename_i hbind
      obtain rfl := Except.error.inj h
      exact Part.error_bind (congrArg Prod.snd hbind)
    · exact ih (Except.error_of_map h)

theorem TemplatePart.error_placesFrom {index : Nat} {order : List NodeId}
    {parts : List TemplatePart} {e : RenderError}
    (h : placesFrom index order parts = .error e) : e ≠ .endlessValue := by
  induction order generalizing index parts with
  | nil =>
    cases parts with
    | nil => cases h
    | cons part parts =>
      obtain rfl := Except.error.inj h
      simp
  | cons node order ih => exact ih (Except.error_of_map h)

/-- A template that cannot be copied is no endless value. -/
theorem Template.error_copyInto {t : Template} {tree : Tree} {e : RenderError}
    (h : (t.copyInto tree).2 = .error e) : e ≠ .endlessValue := by
  unfold copyInto at h
  simp only at h
  split at h
  · rename_i hplaces
    obtain rfl := Except.error.inj h
    exact TemplatePart.error_placesFrom hplaces
  · exact Part.error_bindAll (Except.error_of_map h)

/-- A way to apply values is not cut off on values of some sort. -/
def Patch.EndsOn (patch : Patch) (ds : Deferreds) (P : Value → Prop) : Prop :=
  ∀ (s : Setting) (w : World) (part : NodePart) (value : Value), s.deferreds = ds → P value →
    (patch s w part value).Ended

namespace Patch.EndsOn

variable {patch : Patch} {ds : Deferreds} {P : Value → Prop} {s : Setting} {w : World}

theorem parts (h : patch.EndsOn ds P) (hs : s.deferreds = ds) (hnull : P .null) {ps done : List Part}
    {cs : List TemplatePart} {slots : Slots} (hslots : slots.All P) :
    (Patch.parts patch s w done ps cs slots).Ended := by
  induction ps generalizing w done cs slots with
  | nil =>
    simp only [Patch.parts]
    simp [Applied.Ended]
  | cons p ps ih =>
    cases cs with
    | nil =>
      simp only [Patch.parts]
      simp [Applied.Ended]
    | cons c cs =>
      cases p with
      | «attribute» part => exact ih (hslots.takeMany hnull c.valueIndex part.strings.size).2
      | node part =>
        obtain ⟨hvalue, htaken⟩ := hslots.take hnull c.valueIndex
        have ha := h (s.holding ((slots.take c.valueIndex).2.left ++ Part.heldByAll done ++
          Part.heldByAll ps)) w part _ hs hvalue
        simp only [Patch.parts]
        generalize patch (s.holding _) w part _ = a at ha ⊢
        cases he : a.error with
        | some e => exact ha
        | none => exact ih htaken

theorem update (h : patch.EndsOn ds P) (hs : s.deferreds = ds) (hnull : P .null) (t : Template)
    (ps : List Part) {values : List Value} (hvalues : ∀ v ∈ values, P v) :
    (Patch.update patch s w t ps values).Ended := by
  unfold Patch.update
  simp only
  split
  · simp [Applied.Ended]
  · exact h.parts hs hnull (Slots.all_map_some hvalues)

theorem fresh (h : patch.EndsOn ds P) (hs : s.deferreds = ds) (hnull : P .null) (part : NodePart)
    (shared : SharedTemplate) {values : List Value} (hvalues : ∀ v ∈ values, P v) :
    (Patch.fresh patch s w part shared values).Ended := by
  unfold Patch.fresh
  split
  · rename_i e hcopy
    exact fun he => Template.error_copyInto (congrArg Prod.snd hcopy) (Option.some.inj he)
  · exact h.update hs hnull _ _ hvalues

theorem template (h : patch.EndsOn ds P) (hs : s.deferreds = ds) (hnull : P .null)
    (part : NodePart) {r : TemplateResult} (hvalues : ∀ v ∈ r.values, P v) :
    (Patch.template patch s w part r).Ended := by
  obtain ⟨alive, v, -, -, heq⟩ := Patch.template_eq patch s w part r
  rw [heq]
  match (w.cache.getOrCompile alive r.strings r.kind).outcome with
  | .error errors =>
    simp only [Patch.answered]
    simp [Applied.Ended]
  | .ok shared =>
    unfold Patch.answered
    simp only
    split
    · split
      · exact h.update hs hnull _ _ hvalues
      · exact h.fresh hs hnull part shared hvalues
    · exact h.fresh hs hnull part shared hvalues

theorem itemsFrom {start stop : NodeId} {done left : List NodePart} {value : Value}
    {values : List Value} (h : patch.EndsOn ds P) (holding : Setting)
    (hholding : holding.deferreds = ds) (hvalue : P value) (part : NodePart)
    (hrest : ∀ {w : World} {done : List NodePart},
      (Patch.items patch s start stop w done left values).Ended) :
    (Patch.itemsFrom patch s holding start stop w done part left value values).Ended := by
  have ha := h holding w part value hholding hvalue
  simp only [Patch.itemsFrom]
  generalize patch holding w part value = a at ha ⊢
  cases he : a.error with
  | some e => exact ha
  | none => exact hrest

theorem items (h : patch.EndsOn ds P) (hs : s.deferreds = ds) {start : NodeId} (stop : NodeId)
    {done left : List NodePart} {values : List Value} (hvalues : ∀ v ∈ values, P v) :
    (Patch.items patch s start stop w done left values).Ended := by
  induction values generalizing w start done left with
  | nil =>
    simp only [Patch.items]
    simp [Applied.Ended]
  | cons value values ih =>
    obtain ⟨hvalue, hvalues⟩ := List.forall_mem_cons.1 hvalues
    cases left with
    | cons part left =>
      exact h.itemsFrom (s.holding (values ++ NodePart.heldByAll done ++ NodePart.heldByAll left))
        hs hvalue part (ih hvalues)
    | nil =>
      cases done with
      | nil =>
        exact h.itemsFrom (s.holding (values ++ NodePart.heldByAll [])) hs hvalue
          (.mk start stop .empty) (ih hvalues)
      | cons last before =>
        obtain ⟨_, _, w₁, holding, -, -, -, hds, -, heq⟩ :=
          Patch.items_another patch s start stop w last before value values
        rw [heq]
        exact h.itemsFrom holding (hds.trans hs) hvalue _ (ih hvalues)

theorem iterable (h : patch.EndsOn ds P) (hs : s.deferreds = ds) (part : NodePart)
    {values : List Value} (hvalues : ∀ v ∈ values, P v) :
    (Patch.iterable patch s w part values).Ended := by
  by_cases hstate : ∃ ps, part.state = .items ps
  · obtain ⟨ps, hstate⟩ := hstate
    rw [Patch.iterable_items _ _ _ hstate]
    exact Likeness.ended_finish.2 (h.items hs _ hvalues)
  · rw [Patch.iterable_other _ _ _ fun ps hp => hstate ⟨ps, hp⟩]
    exact Likeness.ended_finish.2 (h.items hs _ hvalues)

theorem placeholder (h : patch.EndsOn ds P) (hs : s.deferreds = ds) (part : NodePart)
    {d : DeferredId} {shown : Value} (hshown : P shown)
    (houtcome : ∀ value, ds.poll d = .fulfilled value → P value) :
    (Patch.placeholder patch s w part d shown).Ended := by
  by_cases hwaits : part.state = .pending d
  · rw [Patch.placeholder_waits hwaits]
    simp [Applied.Ended]
  rw [Patch.placeholder_new hwaits]
  have hstandIn : (Patch.standIn patch s w part d shown).Ended := by
    have ha := h (s.holding [.pending d]) w part shown hs hshown
    simp only [Patch.standIn]
    generalize patch (s.holding [.pending d]) w part shown = a at ha ⊢
    cases he : a.error with
    | some e => simpa only [he] using ha
    | none => exact ha
  cases hpoll : s.deferreds.poll d with
  | fulfilled value =>
    exact h (s.holding [.pending d, shown]) w part value hs (houtcome value (hs ▸ hpoll))
  | waiting | rejected => exact hstandIn

end Patch.EndsOn

/-- A value ends above some depth, the outcomes that are left on the way to it counted in. -/
def Value.EndsWithin (ds : Deferreds) (depth : Nat) (v : Value) : Prop :=
  v.isNull = true ∧ 0 < depth ∨ v.Grounded ds ∧
    ∃ left : Deferreds, (∀ d ∈ v.followed, left.Covers ds d) ∧ v.weight + left.weight < depth

namespace Value.EndsWithin

variable {ds : Deferreds} {depth : Nat}

theorem of_grounded {v : Value} (hv : v.Grounded ds) (hlt : v.weight + ds.weight < depth) :
    v.EndsWithin ds depth :=
  .inr ⟨hv, ds, fun _ _ _ _ _ hpoll => hpoll, hlt⟩

theorem null (h : 0 < depth) : Value.null.EndsWithin ds depth := .inl ⟨rfl, h⟩

/-- The values inside a template or a list are one level deeper. -/
theorem of_mem {v : Value} (vs : List Value) (h : v.EndsWithin ds (depth + 1))
    (hnull : v.isNull = false) (hfollowed : v.followed = followedOfAll vs)
    (hweight : v.weight = weights vs + 1) :
    0 < depth ∧ ∀ u ∈ vs, u.EndsWithin ds depth := by
  obtain ⟨hn, -⟩ | ⟨hg, left, hleft, hlt⟩ := h
  · rw [hnull] at hn
    cases hn
  refine ⟨by omega, fun u hu => .inr ⟨fun d hd => hg d ?_, left, fun d hd => hleft d ?_, ?_⟩⟩
  · exact hfollowed ▸ mem_followedOfAll hu hd
  · exact hfollowed ▸ mem_followedOfAll hu hd
  · have hle := weight_le_weights hu
    omega

theorem shown {d : DeferredId} {v : Value} (h : (placeholder d v).EndsWithin ds (depth + 1)) :
    v.EndsWithin ds depth := by
  obtain ⟨hn, -⟩ | ⟨hg, left, hleft, hlt⟩ := h
  · cases hn
  refine .inr ⟨fun e he => hg e (List.mem_cons_of_mem _ he), left,
    fun e he => hleft e (List.mem_cons_of_mem _ he), ?_⟩
  rw [weight] at hlt
  omega

/-- The outcome is applied in exchange for its own weight, which nothing behind it needs. -/
theorem outcome {d : DeferredId} {v value : Value}
    (h : (placeholder d v).EndsWithin ds (depth + 1)) (hpoll : ds.poll d = .fulfilled value) :
    value.EndsWithin ds depth := by
  obtain ⟨hn, -⟩ | ⟨hg, left, hleft, hlt⟩ := h
  · cases hn
  have hgrounded := hg d List.mem_cons_self
  have hcovers := hleft d List.mem_cons_self
  refine .inr ⟨hgrounded.outcome hpoll, left.settle d .waiting,
    fun e he => hcovers.leads hgrounded ⟨value, hpoll, he⟩, ?_⟩
  have hweight := Deferreds.weight_settle_waiting (hcovers d .refl value hpoll)
  rw [weight] at hlt
  omega

end Value.EndsWithin

theorem NodePart.ended_setPrimitive (w : World) (part : NodePart) (p : Primitive) :
    (part.setPrimitive w p).Ended := by
  unfold NodePart.setPrimitive
  split <;> simp [Applied.Ended, NodePart.setText]

theorem NodePart.ended_setNode (w : World) (part : NodePart) (fragment : Fragment) :
    (part.setNode w fragment).Ended := by
  rcases part.setNode_cases w fragment with ⟨shown, -, -, heq⟩ | heq
  · simp [Applied.Ended, heq]
  · simp [Applied.Ended, heq]

theorem Patch.endsOn_within (ds : Deferreds) (depth : Nat) :
    (Patch.within depth).EndsOn ds (Value.EndsWithin ds depth) := by
  induction depth with
  | zero =>
    rintro s w part value - (⟨-, hlt⟩ | ⟨-, left, -, hlt⟩) <;> omega
  | succ depth ih =>
    intro s w part value hs hvalue
    match value with
    | .primitive p => exact NodePart.ended_setPrimitive w part p
    | .template strings values kind =>
      obtain ⟨hpos, hvalues⟩ := hvalue.of_mem values rfl rfl rfl
      exact ih.template hs (.null hpos) part (r := ⟨strings, values, kind⟩) hvalues
    | .iterable values => exact ih.iterable hs part (hvalue.of_mem values rfl rfl rfl).2
    | .node fragment => exact NodePart.ended_setNode w part fragment
    | .pending d => simp [Patch.within, Patch.step, Applied.Ended]
    | .placeholder d shown =>
      exact ih.placeholder hs part hvalue.shown fun value hpoll => hvalue.outcome hpoll
    | .absent => exact NodePart.ended_setPrimitive w part .null
    | .display object => simp [Patch.within, Patch.step, Applied.Ended, NodePart.setText]

/-- Runs in the same setting and world. -/
def Likeness.refl : Likeness where
  settings := Eq
  worlds := Eq
  values _ := True
  deferreds_eq h := congrArg Setting.deferreds h.symm
  strict_eq h := congrArg Setting.strictValueCount h.symm
  holding h vs := congrArg (Setting.holding · vs) h
  tree_eq h := congrArg World.tree h.symm
  edited h tree events := congrArg (World.edited · tree events) h
  asked hs hw _ _ _ _ _ := by
    subst hs hw
    exact ⟨rfl, rfl⟩
  null := trivial
  template _ _ _ := trivial
  iterable _ _ _ := trivial
  shown _ := trivial
  outcome _ _ _ _ := trivial

/-- What is not cut off does not depend on where it would be. -/
theorem Patch.within_eq_of_ended {depth depth' : Nat} (hle : depth ≤ depth') {s : Setting}
    {w : World} {part : NodePart} {value : Value} (h : (within depth s w part value).Ended) :
    within depth' s w part value = within depth s w part value := by
  have halike := Likeness.refl.follows_within hle part (Eq.refl s) (Eq.refl w) trivial h
  generalize within depth s w part value = a at halike ⊢
  generalize within depth' s w part value = a' at halike ⊢
  obtain ⟨part, world, error⟩ := a
  obtain ⟨part', world', error'⟩ := a'
  obtain ⟨hpart, herror, hworld⟩ := halike
  simp only at hpart herror
  rw [hpart, herror, show world = world' from hworld]

/-- The depth is enough for a value and all outcomes. -/
theorem Patch.weight_lt_depthFor (s : Setting) (partDepth weight : Nat) :
    weight + s.deferreds.weight < depthFor s partDepth weight := by
  have hle : 1 * (weight + s.deferreds.weight + 1) ≤ depthFor s partDepth weight :=
    Nat.mul_le_mul_right _ (by omega)
  omega

namespace NodePart

variable {s : Setting} {value : Value}

/-- A value that leads to nothing that leads back to itself is applied, whatever the part shows, and
however deep the recursion may go from there on. -/
theorem setValue_ends (hvalue : value.Grounded s.deferreds) (w : World) (part : NodePart) :
    (part.setValue s w value).Ended ∧
      ∀ depth, value.weight + s.deferreds.weight < depth →
        Patch.within depth s w part value = part.setValue s w value := by
  have hends (depth : Nat) (hlt : value.weight + s.deferreds.weight < depth) :
      (Patch.within depth s w part value).Ended :=
    Patch.endsOn_within s.deferreds depth s w part value rfl (.of_grounded hvalue hlt)
  have hdepth := Patch.weight_lt_depthFor s part.depth value.weight
  refine ⟨hends _ hdepth, fun depth hlt => ?_⟩
  rcases Nat.le_total depth (Patch.depthFor s part.depth value.weight) with hle | hle
  · exact (Patch.within_eq_of_ended hle (hends depth hlt)).symm
  · exact Patch.within_eq_of_ended hle (hends _ hdepth)

end NodePart

/-- Not cut off. -/
def Flushed.Ended {α : Type} (a : Flushed α) : Prop := a.error ≠ some .endlessValue

theorem NodePart.settle_ends {s : Setting} {d : DeferredId} (hd : s.deferreds.Grounded d)
    (w : World) (report : FlushReport) (part : NodePart) :
    (part.settle s w report d).Ended := by
  unfold NodePart.settle
  cases hpoll : s.deferreds.poll d with
  | waiting | rejected => simp [Flushed.Ended]
  | fulfilled value => exact (NodePart.setValue_ends (hd.outcome hpoll) _ part).1

mutual

/-- The outcomes that parts wait for are applied. -/
theorem NodePart.flush_ends (s : Setting) (w : World) (report : FlushReport) :
    ∀ part : NodePart, (∀ d ∈ Value.deferredsOfAll part.held, s.deferreds.Grounded d) →
      (NodePart.flush s w report part).Ended
  | .mk start stop (.pending d), h => by
    rw [NodePart.flush]
    exact NodePart.settle_ends (h d List.mem_cons_self) w report _
  | .mk start stop (.nested template parts), h => by
    rw [NodePart.flush]
    exact Part.flushAll_ends s w report [] parts h
  | .mk start stop (.items parts), h => by
    rw [NodePart.flush]
    exact NodePart.flushAll_ends s w report [] parts h
  | .mk start stop .empty, _ | .mk start stop (.text _), _ | .mk start stop (.node _), _ => by
    simp [NodePart.flush, Flushed.Ended]

theorem NodePart.flushAll_ends (s : Setting) (w : World) (report : FlushReport)
    (done : List NodePart) : ∀ parts : List NodePart,
      (∀ d ∈ Value.deferredsOfAll (NodePart.heldByAll parts), s.deferreds.Grounded d) →
      (NodePart.flushAll s w report done parts).Ended
  | [], _ => by simp [NodePart.flushAll, Flushed.Ended]
  | part :: ps, h => by
    rw [NodePart.heldByAll, Value.deferredsOfAll_append] at h
    have hfirst := NodePart.flush_ends
      (s.holding (NodePart.heldByAll done ++ NodePart.heldByAll ps)) w report part
      fun d hd => h d (List.mem_append_left _ hd)
    have hrest (w' : World) (report' : FlushReport) (done' : List NodePart) :=
      NodePart.flushAll_ends s w' report' done' ps fun d hd => h d (List.mem_append_right _ hd)
    rw [NodePart.flushAll]
    generalize NodePart.flush _ w report part = a at hfirst ⊢
    split
    · exact hfirst
    · exact hrest _ _ _

theorem Part.flushAll_ends (s : Setting) (w : World) (report : FlushReport) (done : List Part) :
    ∀ parts : List Part,
      (∀ d ∈ Value.deferredsOfAll (Part.heldByAll parts), s.deferreds.Grounded d) →
      (Part.flushAll s w report done parts).Ended
  | [], _ => by simp [Part.flushAll, Flushed.Ended]
  | .attribute part :: ps, h => by
    rw [Part.heldByAll, Value.deferredsOfAll_append] at h
    rw [Part.flushAll]
    exact Part.flushAll_ends s w report _ ps fun d hd => h d (List.mem_append_right _ hd)
  | .node part :: ps, h => by
    rw [Part.heldByAll, Value.deferredsOfAll_append] at h
    have hfirst := NodePart.flush_ends
      (s.holding (Part.heldByAll done ++ Part.heldByAll ps)) w report part
      fun d hd => h d (List.mem_append_left _ hd)
    have hrest (w' : World) (report' : FlushReport) (done' : List Part) :=
      Part.flushAll_ends s w' report' done' ps fun d hd => h d (List.mem_append_right _ hd)
    rw [Part.flushAll]
    generalize NodePart.flush _ w report part = a at hfirst ⊢
    split
    · exact hfirst
    · exact hrest _ _ _

end

namespace Patch

variable {s : Setting} {d : DeferredId} {shown : Value} {part : NodePart}

end Patch

end LiveMarkup
