import LiveMarkup.Proofs.Part.Flushing

set_option autoImplicit false

/-!
Which parts wait for deferred values. Whatever a value is made of, a part that is given it waits
afterwards for no other deferred values than those that the value refers to, directly or through
outcomes that are there already; or else the value was refused and the part is what it was.
-/

namespace LiveMarkup

mutual

/-- A part and all node parts below it. -/
def NodePart.subparts : NodePart → List NodePart
  | .mk start stop state => .mk start stop state :: NodeState.subparts state

/-- The node parts of what a region shows, with all below them. -/
def NodeState.subparts : NodeState → List NodePart
  | .nested _ parts => Part.subpartsOfAll parts
  | .items parts => NodePart.subpartsOfAll parts
  | _ => []

def NodePart.subpartsOfAll : List NodePart → List NodePart
  | [] => []
  | p :: ps => p.subparts ++ NodePart.subpartsOfAll ps

def Part.subpartsOfAll : List Part → List NodePart
  | [] => []
  | .node p :: ps => p.subparts ++ Part.subpartsOfAll ps
  | .attribute _ :: ps => Part.subpartsOfAll ps

end

/-- No part of a list waits for a barred deferred value. -/
def NodePart.Unawaited (barred : DeferredId → Prop) (parts : List NodePart) : Prop :=
  ∀ q ∈ parts, ∀ d, q.state = .pending d → ¬ barred d

/-- A value refers to no barred deferred value. -/
def Value.Unbarred (barred : DeferredId → Prop) (value : Value) : Prop :=
  ∀ d ∈ value.deferreds, ¬ barred d

/-- Outcomes refer to barred deferred values only if they are outcomes of barred ones. -/
def Deferreds.Closed (ds : Deferreds) (barred : DeferredId → Prop) : Prop :=
  ∀ d value, ¬ barred d → ds.poll d = .fulfilled value → value.Unbarred barred

variable {barred : DeferredId → Prop} {part : NodePart} {ds : Deferreds} {s : Setting} {w : World}

theorem NodePart.subparts_eq (part : NodePart) : part.subparts = part :: part.state.subparts := by
  cases part
  rw [subparts]
  rfl

theorem NodePart.self_mem_subparts (part : NodePart) : part ∈ part.subparts := by
  rw [subparts_eq]
  exact List.mem_cons_self

theorem NodePart.mem_subpartsOfAll {q : NodePart} {parts : List NodePart} :
    q ∈ NodePart.subpartsOfAll parts ↔ ∃ p ∈ parts, q ∈ p.subparts := by
  induction parts with
  | nil => simp [subpartsOfAll]
  | cons p ps ih => simp [subpartsOfAll, ih]

theorem Part.mem_subpartsOfAll {q : NodePart} {parts : List Part} :
    q ∈ Part.subpartsOfAll parts ↔ ∃ p, Part.node p ∈ parts ∧ q ∈ p.subparts := by
  induction parts with
  | nil => simp [subpartsOfAll]
  | cons p ps ih =>
    cases p with
    | node p => simp [subpartsOfAll, ih, or_and_right, exists_or]
    | «attribute» p => simp [subpartsOfAll, ih]

namespace NodePart

theorem unawaited_cons {q : NodePart} {qs : List NodePart} : Unawaited barred (q :: qs) ↔
    (∀ d, q.state = .pending d → ¬ barred d) ∧ Unawaited barred qs :=
  List.forall_mem_cons

theorem unawaited_subparts : Unawaited barred part.subparts ↔
    (∀ d, part.state = .pending d → ¬ barred d) ∧ Unawaited barred part.state.subparts := by
  rw [subparts_eq, unawaited_cons]

/-- What a part waits for only depends on its state. -/
theorem unawaited_of_state {q : NodePart} (h : Unawaited barred part.subparts)
    (hs : q.state = part.state) : Unawaited barred q.subparts := by
  rw [unawaited_subparts, hs, ← unawaited_subparts]
  exact h

theorem unawaited_pending {d : DeferredId} (hs : part.state = .pending d) :
    Unawaited barred part.subparts ↔ ¬ barred d := by
  rw [unawaited_subparts, hs]
  constructor
  · exact fun h => h.1 d rfl
  · intro h
    exact ⟨fun e he => NodeState.pending.inj he ▸ h, by simp [NodeState.subparts, Unawaited]⟩

theorem unawaited_nested {shared : SharedTemplate} {parts : List Part}
    (hs : part.state = .nested shared parts) :
    Unawaited barred part.subparts ↔ Unawaited barred (Part.subpartsOfAll parts) := by
  rw [unawaited_subparts, hs]
  simp [NodeState.subparts]

theorem unawaited_items {parts : List NodePart} (hs : part.state = .items parts) :
    Unawaited barred part.subparts ↔ Unawaited barred (subpartsOfAll parts) := by
  rw [unawaited_subparts, hs]
  simp [NodeState.subparts]

theorem unawaited_empty (hs : part.state = .empty) : Unawaited barred part.subparts := by
  rw [unawaited_subparts, hs]
  simp [NodeState.subparts, Unawaited]

theorem unawaited_text {shown : Primitive} (hs : part.state = .text shown) :
    Unawaited barred part.subparts := by
  rw [unawaited_subparts, hs]
  simp [NodeState.subparts, Unawaited]

theorem unawaited_node {fragment : Fragment} (hs : part.state = .node fragment) :
    Unawaited barred part.subparts := by
  rw [unawaited_subparts, hs]
  simp [NodeState.subparts, Unawaited]

theorem unawaited_subpartsOfAll {parts : List NodePart} :
    Unawaited barred (subpartsOfAll parts) ↔ ∀ p ∈ parts, Unawaited barred p.subparts := by
  constructor
  · exact fun h p hp q hq => h q (mem_subpartsOfAll.2 ⟨p, hp, hq⟩)
  · intro h q hq
    obtain ⟨p, hp, hq⟩ := mem_subpartsOfAll.1 hq
    exact h p hp q hq

end NodePart

theorem Part.unawaited_subpartsOfAll {parts : List Part} :
    NodePart.Unawaited barred (Part.subpartsOfAll parts) ↔
      ∀ p, Part.node p ∈ parts → NodePart.Unawaited barred p.subparts := by
  constructor
  · exact fun h p hp q hq => h q (Part.mem_subpartsOfAll.2 ⟨p, hp, hq⟩)
  · intro h q hq
    obtain ⟨p, hp, hq⟩ := Part.mem_subpartsOfAll.1 hq
    exact h p hp q hq

open NodePart (Unawaited)

mutual

/-- Where a region ends does not matter for what is awaited in it. -/
theorem NodePart.unawaited_withStop (part : NodePart) (h : Unawaited barred part.subparts)
    (stop : NodeId) : Unawaited barred (part.withStop stop).subparts := by
  match part with
  | .mk start old (.items parts) =>
    rw [NodePart.withStop, NodePart.unawaited_items rfl]
    exact NodePart.unawaited_withLastStop parts ((NodePart.unawaited_items rfl).1 h) old stop
  | .mk _ _ .empty | .mk _ _ (.text _) | .mk _ _ (.nested _ _) | .mk _ _ (.node _)
  | .mk _ _ (.pending _) => exact NodePart.unawaited_of_state h rfl

theorem NodePart.unawaited_withLastStop (parts : List NodePart)
    (h : Unawaited barred (NodePart.subpartsOfAll parts)) (old stop : NodeId) :
    Unawaited barred (NodePart.subpartsOfAll (NodePart.withLastStop old stop parts)) := by
  match parts with
  | [] =>
    rw [NodePart.withLastStop]
    exact h
  | [p] =>
    rw [NodePart.unawaited_subpartsOfAll] at h
    have hp := h p List.mem_cons_self
    rw [NodePart.withLastStop, NodePart.unawaited_subpartsOfAll]
    intro q hq
    rw [List.mem_singleton.1 hq]
    split
    · exact NodePart.unawaited_withStop p hp stop
    · exact hp
  | p :: q :: ps =>
    rw [NodePart.unawaited_subpartsOfAll, List.forall_mem_cons, ← NodePart.unawaited_subpartsOfAll] at h
    rw [NodePart.withLastStop, NodePart.unawaited_subpartsOfAll, List.forall_mem_cons,
      ← NodePart.unawaited_subpartsOfAll]
    exact ⟨h.1, NodePart.unawaited_withLastStop (q :: ps) h.2 old stop⟩

end

namespace Value

theorem unbarred_null : null.Unbarred barred := fun _ hd => by cases hd

theorem unbarred_of_mem {values : List Value} (h : ∀ d ∈ deferredsOfAll values, ¬ barred d)
    {v : Value} (hv : v ∈ values) : v.Unbarred barred :=
  fun d hd => h d (deferreds_of_mem hv hd)

end Value

theorem Part.state_of_bind {tree tree' : Tree} {compiled : TemplatePart} {anchor : NodeId}
    {p : NodePart} (h : Part.bind tree compiled anchor = (tree', .ok (.node p))) :
    p.state = .empty := by
  unfold Part.bind at h
  split at h
  · split at h
    · split at h
      · cases h
        rfl
      · cases h
        rfl
    · cases h
  · split at h <;> cases h

theorem Part.unawaited_bindAll {tree tree' : Tree} {places : List (TemplatePart × NodeId)}
    {parts : List Part} (h : Part.bindAll tree places = (tree', .ok parts)) :
    Unawaited barred (Part.subpartsOfAll parts) := by
  induction places generalizing tree tree' parts with
  | nil =>
    obtain ⟨-, rfl⟩ : tree = tree' ∧ [] = parts := by simpa [Part.bindAll] using h
    simp [Part.subpartsOfAll, Unawaited]
  | cons place places ih =>
    obtain ⟨compiled, anchor⟩ := place
    rw [Part.bindAll] at h
    split at h
    · cases h
    · rename_i u bound hbound
      obtain ⟨v, rest, hrest⟩ : ∃ v rest, Part.bindAll u places = (v, rest) := ⟨_, _, rfl⟩
      simp only [hrest] at h
      cases rest with
      | error e => cases h
      | ok others =>
        obtain ⟨-, rfl⟩ : v = tree' ∧ bound :: others = parts := by simpa [Except.map] using h
        rw [Part.unawaited_subpartsOfAll]
        intro p hp
        rcases List.mem_cons.1 hp with rfl | hp
        · exact NodePart.unawaited_empty (Part.state_of_bind hbound)
        · exact Part.unawaited_subpartsOfAll.1 (ih hrest) p hp

theorem Template.unawaited_copyInto {t : Template} {tree tree' : Tree} {copy : Copied}
    (h : t.copyInto tree = (tree', .ok copy)) : Unawaited barred (Part.subpartsOfAll copy.parts) := by
  unfold Template.copyInto at h
  obtain ⟨u, root, hu⟩ : ∃ u root, tree.importFrom t.prototype.tree t.prototype.root = (u, root) :=
    ⟨_, _, rfl⟩
  simp only [hu] at h
  split at h
  · cases h
  · rename_i places hplaces
    obtain ⟨v, bound, hv⟩ : ∃ v bound, Part.bindAll u places = (v, bound) := ⟨_, _, rfl⟩
    simp only [hv] at h
    cases bound with
    | error e => cases h
    | ok parts =>
      obtain ⟨-, rfl⟩ : v = tree' ∧ (⟨parts, root⟩ : Copied) = copy := by
        simpa [Except.map] using h
      exact Part.unawaited_bindAll hv

/-- What giving a part a value makes of it: it waits for no barred deferred value, or else it was
refused the value and is what it was. -/
def Applied.Rid (barred : DeferredId → Prop) (part : NodePart) (a : Applied NodePart) : Prop :=
  Unawaited barred a.part.subparts ∨ a.error ≠ none ∧ a.part = part

/-- A way to apply values that refer to no barred deferred value, to parts that wait for none or
that only wait. -/
def Patch.Rids (patch : Patch) (barred : DeferredId → Prop) (ds : Deferreds) : Prop :=
  ∀ s w part value, s.deferreds = ds → value.Unbarred barred →
    Unawaited barred part.subparts ∨ part.isPending = true →
    (patch s w part value).Rid barred part

namespace Patch

variable {patch : Patch} {value : Value}

/-- Applied to a part that waits for no barred value, none comes to be awaited. -/
theorem Rids.unawaited (h : patch.Rids barred ds) (hds : s.deferreds = ds)
    (hv : value.Unbarred barred) (hp : Unawaited barred part.subparts) :
    Unawaited barred (patch s w part value).part.subparts := by
  rcases h s w part value hds hv (.inl hp) with hu | ⟨-, he⟩
  · exact hu
  · rw [he]
    exact hp

theorem Rids.parts (h : patch.Rids barred ds) (hds : s.deferreds = ds) {done ps : List Part}
    {cs : List TemplatePart} {slots : Slots} (hdone : Unawaited barred (Part.subpartsOfAll done))
    (hps : Unawaited barred (Part.subpartsOfAll ps)) (hslots : slots.All (Value.Unbarred barred)) :
    Unawaited barred (Part.subpartsOfAll (Patch.parts patch s w done ps cs slots).part) := by
  simp only [Part.unawaited_subpartsOfAll] at hdone hps ⊢
  induction ps generalizing w done cs slots with
  | nil =>
    rw [Patch.parts]
    · simpa using hdone
    all_goals simp
  | cons part ps ih =>
    cases cs with
    | nil =>
      rw [Patch.parts]
      · intro p hp
        rw [List.mem_append, List.mem_reverse] at hp
        exact hp.elim (hdone p) (hps p)
      all_goals simp
    | cons c cs =>
      cases part with
      | node part =>
        obtain ⟨hvalue, hslots'⟩ := hslots.take Value.unbarred_null c.valueIndex
        obtain ⟨value, slots', htake⟩ : ∃ value slots', slots.take c.valueIndex = (value, slots') :=
          ⟨_, _, rfl⟩
        rw [htake] at hvalue hslots'
        obtain ⟨holding, hholding⟩ : ∃ holding, holding =
          s.holding (slots'.left ++ Part.heldByAll done ++ Part.heldByAll ps) := ⟨_, rfl⟩
        obtain ⟨a, ha⟩ : ∃ a, a = patch holding w part value := ⟨_, rfl⟩
        have hpart : Unawaited barred a.part.subparts := ha ▸ h.unawaited
          (by rw [hholding]; exact hds) hvalue (hps part List.mem_cons_self)
        have hps' (p : NodePart) (hp : Part.node p ∈ ps) := hps p (List.mem_cons_of_mem _ hp)
        simp only [Patch.parts, htake, ← hholding, ← ha]
        split
        · intro p hp
          simp only [Applied.map, List.mem_append, List.mem_reverse, List.mem_cons,
            Part.node.injEq] at hp
          rcases hp with hp | rfl | hp
          · exact hdone p hp
          · exact hpart
          · exact hps' p hp
        · refine ih hslots' (fun p hp => ?_) hps'
          rcases List.mem_cons.1 hp with he | hp
          · exact Part.node.inj he ▸ hpart
          · exact hdone p hp
      | «attribute» part =>
        have hslots' := (hslots.takeMany Value.unbarred_null c.valueIndex part.strings.size).2
        simp only [Patch.parts]
        refine ih hslots' (fun p hp => ?_) fun p hp => hps p (List.mem_cons_of_mem _ hp)
        rcases List.mem_cons.1 hp with he | hp
        · cases he
        · exact hdone p hp

theorem Rids.update (h : patch.Rids barred ds) (hds : s.deferreds = ds) {t : Template}
    {ps : List Part} {values : List Value} (hps : Unawaited barred (Part.subpartsOfAll ps))
    (hvalues : ∀ v ∈ values, v.Unbarred barred) :
    Unawaited barred (Part.subpartsOfAll (Patch.update patch s w t ps values).part) := by
  unfold Patch.update
  simp only
  split
  · exact hps
  · exact h.parts hds (by simp [Part.subpartsOfAll, Unawaited]) hps (Slots.all_map_some hvalues)

theorem Rids.fresh (h : patch.Rids barred ds) (hds : s.deferreds = ds) {shared : SharedTemplate}
    {values : List Value} (hvalues : ∀ v ∈ values, v.Unbarred barred) :
    (fresh patch s w part shared values).Rid barred part := by
  unfold Patch.fresh
  split
  · exact .inr ⟨by simp, rfl⟩
  · rename_i tree copy hcopy
    refine .inl ((NodePart.unawaited_nested rfl).2 ?_)
    exact h.update hds (Template.unawaited_copyInto hcopy) hvalues

theorem Rids.template (h : patch.Rids barred ds) (hds : s.deferreds = ds) {r : TemplateResult}
    (hvalues : ∀ v ∈ r.values, v.Unbarred barred)
    (hp : Unawaited barred part.subparts ∨ part.isPending = true) :
    (Patch.template patch s w part r).Rid barred part := by
  obtain ⟨alive, v, -, -, heq⟩ := template_eq patch s w part r
  rw [heq]
  unfold answered
  split
  · exact .inr ⟨by simp, rfl⟩
  · split
    · rename_i shown ps hstate
      split
      · refine .inl ((NodePart.unawaited_nested rfl).2 (h.update hds ?_ hvalues))
        -- A part that shows a template is not one that only waits.
        rcases hp with hp | hp
        · exact (NodePart.unawaited_nested hstate).1 hp
        · simp [NodePart.isPending, hstate] at hp
      · exact h.fresh hds hvalues
    · exact h.fresh hds hvalues

/-- Parts of items that have theirs, and parts that are left, wait for no barred deferred value. -/
theorem Rids.items (h : patch.Rids barred ds) (hds : s.deferreds = ds) (start stop : NodeId)
    {done left : List NodePart} {values : List Value} (hdone : ∀ p ∈ done, Unawaited barred p.subparts)
    (hleft : ∀ p ∈ left, Unawaited barred p.subparts) (hvalues : ∀ v ∈ values, v.Unbarred barred) :
    (∀ p ∈ (items patch s start stop w done left values).part.1, Unawaited barred p.subparts) ∧
      ∀ p ∈ (items patch s start stop w done left values).part.2, Unawaited barred p.subparts := by
  induction values generalizing w done left start with
  | nil =>
    rw [Patch.items]
    exact ⟨hdone, hleft⟩
  | cons value values ih =>
    obtain ⟨hvalue, hvalues⟩ := List.forall_mem_cons.1 hvalues
    -- Whichever part the next item gets, the rest goes on from there.
    have hfrom (holding : Setting) (hholding : holding.deferreds = ds) (start : NodeId) (w : World)
        (done : List NodePart) (hdone : ∀ p ∈ done, Unawaited barred p.subparts) (part : NodePart)
        (hpart : Unawaited barred part.subparts) (left : List NodePart)
        (hleft : ∀ p ∈ left, Unawaited barred p.subparts) :
        (∀ p ∈ (itemsFrom patch s holding start stop w done part left value values).part.1,
            Unawaited barred p.subparts) ∧
          ∀ p ∈ (itemsFrom patch s holding start stop w done part left value values).part.2,
            Unawaited barred p.subparts := by
      have hnew : ∀ p ∈ (patch holding w part value).part :: done, Unawaited barred p.subparts :=
        List.forall_mem_cons.2 ⟨h.unawaited hholding hvalue hpart, hdone⟩
      unfold itemsFrom
      simp only
      split
      · exact ⟨hnew, hleft⟩
      · exact ih start hnew hleft hvalues
    cases left with
    | cons part left =>
      obtain ⟨hpart, hleft⟩ := List.forall_mem_cons.1 hleft
      exact hfrom (s.holding _) hds start w done hdone part hpart left hleft
    | nil =>
      cases done with
      | nil =>
        exact hfrom (s.holding _) hds start w [] hdone (.mk start stop .empty)
          (NodePart.unawaited_empty rfl) [] hleft
      | cons last done =>
        obtain ⟨tree, n, w₁, holding, -, -, -, hholding, -, heq⟩ :=
          items_another patch s start stop w last done value values
        obtain ⟨hlast, hdone⟩ := List.forall_mem_cons.1 hdone
        rw [heq]
        exact hfrom holding (hholding.trans hds) n w₁ _
          (List.forall_mem_cons.2 ⟨NodePart.unawaited_withStop last hlast n, hdone⟩)
          (.mk n stop .empty) (NodePart.unawaited_empty rfl) [] hleft

theorem Rids.iterable (h : patch.Rids barred ds) (hds : s.deferreds = ds) {values : List Value}
    (hvalues : ∀ v ∈ values, v.Unbarred barred)
    (hp : Unawaited barred part.subparts ∨ part.isPending = true) :
    Unawaited barred (Patch.iterable patch s w part values).part.subparts := by
  have hfinish (a : Applied (List NodePart × List NodePart))
      (hdone : ∀ p ∈ a.part.1, Unawaited barred p.subparts)
      (hleft : ∀ p ∈ a.part.2, Unawaited barred p.subparts) :
      Unawaited barred (finish part a).part.subparts := by
    have hall {ps : List NodePart} (hps : ∀ p ∈ ps, Unawaited barred p.subparts) :
        Unawaited barred (part.withState (.items ps)).subparts :=
      (NodePart.unawaited_items rfl).2 (NodePart.unawaited_subpartsOfAll.2 hps)
    unfold finish
    simp only
    split
    · refine hall fun p hp => ?_
      rw [List.mem_append, List.mem_reverse] at hp
      exact hp.elim (hdone p) (hleft p)
    · exact NodePart.unawaited_empty rfl
    · rename_i last others _ hparts
      rw [hparts] at hdone
      split
      · refine hall fun p hp => hdone p ?_
        rw [List.mem_reverse, hparts] at hp
        exact hp
      · refine hall fun p hp => ?_
        rw [List.mem_append, List.mem_reverse, List.mem_singleton] at hp
        rcases hp with hp | rfl
        · exact hdone p (List.mem_cons_of_mem _ hp)
        · exact NodePart.unawaited_withStop last (hdone last List.mem_cons_self) part.stop
  have hnone : ∀ p ∈ ([] : List NodePart), Unawaited barred p.subparts := by simp
  by_cases hstate : ∃ ps, part.state = .items ps
  · obtain ⟨ps, hstate⟩ := hstate
    have hps : ∀ p ∈ ps, Unawaited barred p.subparts := by
      rcases hp with hp | hp
      · exact NodePart.unawaited_subpartsOfAll.1 ((NodePart.unawaited_items hstate).1 hp)
      · simp [NodePart.isPending, hstate] at hp
    rw [iterable_items patch s w hstate]
    obtain ⟨hdone, hleft⟩ := h.items (w := w) hds part.start part.stop hnone hps hvalues
    exact hfinish _ hdone hleft
  · rw [iterable_other patch s w fun ps hps => hstate ⟨ps, hps⟩]
    obtain ⟨hdone, hleft⟩ := h.items (w := w.withTree (part.clear w.tree)) hds part.start part.stop
      hnone hnone hvalues
    exact hfinish _ hdone hleft

theorem Rids.placeholder (h : patch.Rids barred ds) (hclosed : ds.Closed barred)
    (hds : s.deferreds = ds) {d : DeferredId} {shown : Value} (hd : ¬ barred d)
    (hshown : shown.Unbarred barred) (hp : Unawaited barred part.subparts ∨ part.isPending = true) :
    (Patch.placeholder patch s w part d shown).Rid barred part := by
  -- A part that waits for this very deferred value is left alone. It may have been given only
  -- that it waits, so what it waits for is read off the value and not off the part.
  by_cases hwaits : part.state = .pending d
  · rw [placeholder_waits hwaits]
    exact .inl ((NodePart.unawaited_pending hwaits).2 hd)
  rw [placeholder_new hwaits]
  have hstand : (standIn patch s w part d shown).Rid barred part := by
    unfold standIn
    simp only
    split
    · exact h (s.holding _) w part shown hds hshown hp
    · exact .inl ((NodePart.unawaited_pending rfl).2 hd)
  split
  · rename_i value hpoll
    exact h (s.holding _) w part value hds (hclosed d value hd (hds ▸ hpoll)) hp
  · exact hstand

theorem Rids.step (h : patch.Rids barred ds) (hclosed : ds.Closed barred) :
    (Patch.step patch).Rids barred ds := by
  intro s w part value hds hvalue hp
  match value with
  | .primitive q =>
    obtain ⟨shown, hstate, -⟩ := part.state_setPrimitive w q
    exact .inl (NodePart.unawaited_text hstate)
  | .template strings values kind =>
    exact h.template hds (r := ⟨strings, values, kind⟩) (fun v hv => Value.unbarred_of_mem hvalue hv) hp
  | .iterable values =>
    exact .inl (h.iterable hds (fun v hv => Value.unbarred_of_mem hvalue hv) hp)
  | .node fragment =>
    obtain ⟨shown, hstate, -⟩ := part.state_setNode w fragment
    exact .inl (NodePart.unawaited_node hstate)
  | .pending d => exact .inl ((NodePart.unawaited_pending rfl).2 (hvalue d List.mem_cons_self))
  | .placeholder d shown =>
    exact h.placeholder hclosed hds (hvalue d List.mem_cons_self)
      (fun e he => hvalue e (List.mem_cons_of_mem _ he)) hp
  | .absent =>
    obtain ⟨shown, hstate, -⟩ := part.state_setPrimitive w .null
    exact .inl (NodePart.unawaited_text hstate)
  | .display object => exact .inl (NodePart.unawaited_text rfl)

/-- A value that leads to no barred deferred value leaves no part waiting for one, at any depth at
which applying values is cut off, unless the value is refused. -/
theorem rids_within (hclosed : ds.Closed barred) (depth : Nat) :
    (Patch.within depth).Rids barred ds := by
  induction depth with
  | zero => exact fun s w part value _ _ _ => .inr ⟨by simp [Patch.within], rfl⟩
  | succ depth ih => exact ih.step hclosed

end Patch

end LiveMarkup
