import LiveMarkup.Proofs.Part.Awaiting

set_option autoImplicit false

/-!
What a flush leaves waiting. It counts the parts that go on waiting, lets nothing be awaited that
the outcomes do not refer to, and leaves the tree alone where no awaited value is there.
-/

namespace LiveMarkup

variable {barred : DeferredId → Prop} {part : NodePart} {ds : Deferreds} {s : Setting} {w : World}

open NodePart (Unawaited)

/-- Outcomes of deferred values that are not barred let no barred one be awaited. -/
theorem NodePart.unawaited_settle (hclosed : s.deferreds.Closed barred) (report : FlushReport)
    {d : DeferredId} (hstate : part.state = .pending d) (h : Unawaited barred part.subparts) :
    Unawaited barred (part.settle s w report d).part.subparts := by
  have hd := (NodePart.unawaited_pending hstate).1 h
  unfold NodePart.settle
  split
  · exact h
  · exact NodePart.unawaited_empty rfl
  · rename_i value hpoll
    exact (Patch.rids_within hclosed _).unawaited rfl (hclosed d value hd hpoll) h

mutual

theorem NodePart.unawaited_flush {s : Setting} {w : World} (hclosed : s.deferreds.Closed barred)
    (report : FlushReport) (part : NodePart) (h : Unawaited barred part.subparts) :
    Unawaited barred (part.flush s w report).part.subparts := by
  match part with
  | .mk start stop (.pending d) =>
    rw [NodePart.flush]
    exact NodePart.unawaited_settle hclosed report rfl h
  | .mk start stop (.nested shared parts) =>
    rw [NodePart.flush]
    exact (NodePart.unawaited_nested rfl).2 (Part.unawaited_flushAll hclosed report [] parts
      (by simp) (Part.unawaited_subpartsOfAll.1 ((NodePart.unawaited_nested rfl).1 h)))
  | .mk start stop (.items parts) =>
    rw [NodePart.flush]
    exact (NodePart.unawaited_items rfl).2 (NodePart.unawaited_flushAll hclosed report [] parts
      (by simp) (NodePart.unawaited_subpartsOfAll.1 ((NodePart.unawaited_items rfl).1 h)))
  | .mk start stop .empty | .mk start stop (.text _) | .mk start stop (.node _) =>
    rw [NodePart.flush]
    · exact h
    all_goals simp

theorem NodePart.unawaited_flushAll {s : Setting} {w : World} (hclosed : s.deferreds.Closed barred)
    (report : FlushReport) (done parts : List NodePart)
    (hdone : ∀ p ∈ done, Unawaited barred p.subparts)
    (h : ∀ p ∈ parts, Unawaited barred p.subparts) :
    Unawaited barred (NodePart.subpartsOfAll (NodePart.flushAll s w report done parts).part) := by
  rw [NodePart.unawaited_subpartsOfAll]
  match parts with
  | [] =>
    rw [NodePart.flushAll]
    exact fun p hp => hdone p (List.mem_reverse.1 hp)
  | part :: ps =>
    obtain ⟨hpart, hps⟩ := List.forall_mem_cons.1 h
    have hnew := NodePart.unawaited_flush (s := s.holding
      (NodePart.heldByAll done ++ NodePart.heldByAll ps)) (w := w) hclosed report part hpart
    rw [NodePart.flushAll]
    split
    · intro p hp
      simp only [Flushed.map, List.mem_append, List.mem_reverse, List.mem_cons] at hp
      rcases hp with hp | rfl | hp
      · exact hdone p hp
      · exact hnew
      · exact hps p hp
    · exact NodePart.unawaited_subpartsOfAll.1 (NodePart.unawaited_flushAll hclosed _ _ ps
        (List.forall_mem_cons.2 ⟨hnew, hdone⟩) hps)

theorem Part.unawaited_flushAll {s : Setting} {w : World} (hclosed : s.deferreds.Closed barred)
    (report : FlushReport) (done parts : List Part)
    (hdone : ∀ p, Part.node p ∈ done → Unawaited barred p.subparts)
    (h : ∀ p, Part.node p ∈ parts → Unawaited barred p.subparts) :
    Unawaited barred (Part.subpartsOfAll (Part.flushAll s w report done parts).part) := by
  rw [Part.unawaited_subpartsOfAll]
  match parts with
  | [] =>
    rw [Part.flushAll]
    exact fun p hp => hdone p (List.mem_reverse.1 hp)
  | .attribute part :: ps =>
    rw [Part.flushAll]
    refine Part.unawaited_subpartsOfAll.1 (Part.unawaited_flushAll hclosed report _ ps
      (fun p hp => hdone p ?_) fun p hp => h p (List.mem_cons_of_mem _ hp))
    simpa using hp
  | .node part :: ps =>
    have hnew := NodePart.unawaited_flush (s := s.holding
      (Part.heldByAll done ++ Part.heldByAll ps)) (w := w) hclosed report part
        (h part List.mem_cons_self)
    rw [Part.flushAll]
    split
    · intro p hp
      simp only [Flushed.map, List.mem_append, List.mem_reverse, List.mem_cons,
        Part.node.injEq] at hp
      rcases hp with hp | rfl | hp
      · exact hdone p hp
      · exact hnew
      · exact h p (List.mem_cons_of_mem _ hp)
    · refine Part.unawaited_subpartsOfAll.1 (Part.unawaited_flushAll hclosed _ _ ps
        (fun p hp => ?_) fun p hp => h p (List.mem_cons_of_mem _ hp))
      rcases List.mem_cons.1 hp with he | hp
      · exact Part.node.inj he ▸ hnew
      · exact hdone p hp

end

/-- No part waits exactly if none waits for any deferred value. -/
theorem NodePart.unawaited_all_iff {parts : List NodePart} :
    Unawaited (fun _ => True) parts ↔ ∀ q ∈ parts, q.isPending = false := by
  refine forall₂_congr fun q _ => ?_
  unfold NodePart.isPending
  cases q.state <;> simp

/-- The outcomes that parts wait for and that are there refer to no deferred values. -/
def Deferreds.Plain (ds : Deferreds) (parts : List NodePart) : Prop :=
  ∀ q ∈ parts, ∀ d value, q.state = .pending d → ds.poll d = .fulfilled value → value.deferreds = []

/-- A count of parts goes up by those that go on waiting: if none waits afterwards it has stayed, and
if it has stayed none waits afterwards, provided that no outcome brought anything to wait for. -/
structure Deferreds.Counts (ds : Deferreds) (parts parts' : List NodePart) (n n' : Nat) : Prop where
  le : n ≤ n'
  stays : (∀ q ∈ parts', q.isPending = false) → n' = n
  none_waits : ds.Plain parts → n' = n → ∀ q ∈ parts', q.isPending = false

namespace Deferreds.Counts

variable {parts parts' qs qs' : List NodePart} {n n' n'' : Nat}

theorem of_same (h : ∀ q ∈ parts', q.isPending = false) : ds.Counts parts parts' n n :=
  ⟨Nat.le_refl n, fun _ => rfl, fun _ _ => h⟩

theorem append (h : ds.Counts parts parts' n n') (h' : ds.Counts qs qs' n' n'') :
    ds.Counts (parts ++ qs) (parts' ++ qs') n n'' where
  le := Nat.le_trans h.le h'.le
  stays hnone := by
    rw [h'.stays fun q hq => hnone q (List.mem_append_right _ hq),
      h.stays fun q hq => hnone q (List.mem_append_left _ hq)]
  none_waits hplain hn := by
    -- A count that has stayed over both has stayed over each, as it never goes down.
    have hle := h.le
    have hle' := h'.le
    have hfirst := h.none_waits (fun q hq => hplain q (List.mem_append_left _ hq)) (by omega)
    have hrest := h'.none_waits (fun q hq => hplain q (List.mem_append_right _ hq)) (by omega)
    exact fun q hq => (List.mem_append.1 hq).elim (hfirst q) (hrest q)

/-- A part that does not wait itself is left out of account. -/
theorem cons {p p' : NodePart} (h : ds.Counts parts parts' n n') (hp' : p'.isPending = false) :
    ds.Counts (p :: parts) (p' :: parts') n n' := by
  have hself : ds.Counts [p] [p'] n n := of_same fun q hq => List.mem_singleton.1 hq ▸ hp'
  exact hself.append h

end Deferreds.Counts

theorem NodePart.counts_settle (report : FlushReport) {d : DeferredId}
    (hstate : part.state = .pending d) (hok : (part.settle s w report d).error = none) :
    s.deferreds.Counts part.subparts (part.settle s w report d).part.subparts report.pending
      (part.settle s w report d).report.pending := by
  unfold NodePart.settle at hok ⊢
  split
  · refine ⟨Nat.le_succ _, fun hnone => ?_, fun _ hn => by simp at hn⟩
    have hself := hnone part part.self_mem_subparts
    simp [NodePart.isPending, hstate] at hself
  · exact .of_same (NodePart.unawaited_all_iff.1 (NodePart.unawaited_empty rfl))
  · rename_i value hpoll
    rw [hpoll] at hok
    refine ⟨Nat.le_refl _, fun _ => rfl, fun hplain _ => NodePart.unawaited_all_iff.1 ?_⟩
    -- The part still says that it waits while its value is applied, so being left as it was would
    -- count for nothing: that the value is not refused is what rules this out.
    have hnil := hplain part part.self_mem_subparts d value hstate hpoll
    have hclosed : s.deferreds.Closed fun _ => True := fun _ _ hd => absurd trivial hd
    have hvalue : value.Unbarred fun _ => True := fun e he => by simp [hnil] at he
    rcases Patch.rids_within hclosed _ s (w.report (.appliedOutcome value.kind)) part value rfl hvalue
      (.inr (by simp [NodePart.isPending, hstate])) with hu | ⟨herror, -⟩
    · exact hu
    · exact absurd hok herror

mutual

theorem NodePart.counts_flush {s : Setting} {w : World} (report : FlushReport) (part : NodePart)
    (hok : (part.flush s w report).error = none) :
    s.deferreds.Counts part.subparts (part.flush s w report).part.subparts report.pending
      (part.flush s w report).report.pending := by
  match part with
  | .mk start stop (.pending d) =>
    rw [NodePart.flush] at hok ⊢
    exact NodePart.counts_settle report rfl hok
  | .mk start stop (.nested shared parts) =>
    rw [NodePart.flush] at hok ⊢
    obtain ⟨rest, hrest, hcounts⟩ := Part.counts_flushAll report [] parts hok
    simp only [Flushed.map, hrest, List.reverse_nil, List.nil_append, NodePart.subparts,
      NodeState.subparts]
    exact hcounts.cons rfl
  | .mk start stop (.items parts) =>
    rw [NodePart.flush] at hok ⊢
    obtain ⟨rest, hrest, hcounts⟩ := NodePart.counts_flushAll report [] parts hok
    simp only [Flushed.map, hrest, List.reverse_nil, List.nil_append, NodePart.subparts,
      NodeState.subparts]
    exact hcounts.cons rfl
  | .mk start stop .empty | .mk start stop (.text _) | .mk start stop (.node _) =>
    rw [NodePart.flush]
    · exact .of_same (by simp [NodePart.subparts, NodeState.subparts, NodePart.isPending,
        NodePart.state])
    all_goals simp

theorem NodePart.counts_flushAll {s : Setting} {w : World} (report : FlushReport)
    (done parts : List NodePart) (hok : (NodePart.flushAll s w report done parts).error = none) :
    ∃ rest, (NodePart.flushAll s w report done parts).part = done.reverse ++ rest ∧
      s.deferreds.Counts (NodePart.subpartsOfAll parts) (NodePart.subpartsOfAll rest) report.pending
        (NodePart.flushAll s w report done parts).report.pending := by
  match parts with
  | [] =>
    rw [NodePart.flushAll]
    exact ⟨[], by simp, .of_same (by simp [NodePart.subpartsOfAll])⟩
  | part :: ps =>
    obtain ⟨holding, hholding⟩ : ∃ holding, holding =
      s.holding (NodePart.heldByAll done ++ NodePart.heldByAll ps) := ⟨_, rfl⟩
    have hpart := NodePart.counts_flush (s := holding) (w := w) report part
    obtain ⟨a, ha⟩ : ∃ a, a = part.flush holding w report := ⟨_, rfl⟩
    rw [NodePart.flushAll] at hok ⊢
    simp only [← hholding, ← ha] at hok hpart ⊢
    cases herror : a.error with
    | some e =>
      rw [herror] at hok
      simp [Flushed.map, herror] at hok
    | none =>
      rw [herror] at hok
      obtain ⟨rest, hrest, hcounts⟩ := NodePart.counts_flushAll a.report (a.part :: done) ps hok
      refine ⟨a.part :: rest, by simpa using hrest, ?_⟩
      have hds : holding.deferreds = s.deferreds := by rw [hholding]; rfl
      exact (hds ▸ hpart herror).append hcounts

theorem Part.counts_flushAll {s : Setting} {w : World} (report : FlushReport)
    (done parts : List Part) (hok : (Part.flushAll s w report done parts).error = none) :
    ∃ rest, (Part.flushAll s w report done parts).part = done.reverse ++ rest ∧
      s.deferreds.Counts (Part.subpartsOfAll parts) (Part.subpartsOfAll rest) report.pending
        (Part.flushAll s w report done parts).report.pending := by
  match parts with
  | [] =>
    rw [Part.flushAll]
    exact ⟨[], by simp, .of_same (by simp [Part.subpartsOfAll])⟩
  | .attribute part :: ps =>
    rw [Part.flushAll] at hok ⊢
    obtain ⟨rest, hrest, hcounts⟩ := Part.counts_flushAll report (.attribute part :: done) ps hok
    exact ⟨.attribute part :: rest, by simpa using hrest, hcounts⟩
  | .node part :: ps =>
    obtain ⟨holding, hholding⟩ : ∃ holding, holding =
      s.holding (Part.heldByAll done ++ Part.heldByAll ps) := ⟨_, rfl⟩
    have hpart := NodePart.counts_flush (s := holding) (w := w) report part
    obtain ⟨a, ha⟩ : ∃ a, a = part.flush holding w report := ⟨_, rfl⟩
    rw [Part.flushAll] at hok ⊢
    simp only [← hholding, ← ha] at hok hpart ⊢
    cases herror : a.error with
    | some e =>
      rw [herror] at hok
      simp [Flushed.map, herror] at hok
    | none =>
      rw [herror] at hok
      obtain ⟨rest, hrest, hcounts⟩ := Part.counts_flushAll a.report (.node a.part :: done) ps hok
      refine ⟨.node a.part :: rest, by simpa using hrest, ?_⟩
      have hds : holding.deferreds = s.deferreds := by rw [hholding]; rfl
      exact (hds ▸ hpart herror).append hcounts

end

/-- A deferred value is there. -/
def Deferreds.Fulfilled (ds : Deferreds) (d : DeferredId) : Prop :=
  ∃ value, ds.poll d = .fulfilled value

theorem NodePart.tree_settle (report : FlushReport) {d : DeferredId}
    (hd : ¬ s.deferreds.Fulfilled d) :
    (part.settle s w report d).world.tree = w.tree ∧ (part.settle s w report d).error = none := by
  unfold NodePart.settle
  split
  · exact ⟨rfl, rfl⟩
  · exact ⟨rfl, rfl⟩
  · rename_i value hpoll
    exact absurd ⟨value, hpoll⟩ hd

mutual

/-- Where no awaited value is there, a flush leaves the tree alone and succeeds. -/
theorem NodePart.tree_flush {s : Setting} {w : World} (report : FlushReport) (part : NodePart)
    (h : Unawaited s.deferreds.Fulfilled part.subparts) :
    (part.flush s w report).world.tree = w.tree ∧ (part.flush s w report).error = none := by
  match part with
  | .mk start stop (.pending d) =>
    rw [NodePart.flush]
    exact NodePart.tree_settle report ((NodePart.unawaited_pending rfl).1 h)
  | .mk start stop (.nested shared parts) =>
    rw [NodePart.flush]
    exact Part.tree_flushAll report [] parts ((NodePart.unawaited_nested rfl).1 h)
  | .mk start stop (.items parts) =>
    rw [NodePart.flush]
    exact NodePart.tree_flushAll report [] parts ((NodePart.unawaited_items rfl).1 h)
  | .mk start stop .empty | .mk start stop (.text _) | .mk start stop (.node _) =>
    rw [NodePart.flush]
    · exact ⟨rfl, rfl⟩
    all_goals simp

theorem NodePart.tree_flushAll {s : Setting} {w : World} (report : FlushReport)
    (done parts : List NodePart)
    (h : Unawaited s.deferreds.Fulfilled (NodePart.subpartsOfAll parts)) :
    (NodePart.flushAll s w report done parts).world.tree = w.tree ∧
      (NodePart.flushAll s w report done parts).error = none := by
  match parts with
  | [] =>
    rw [NodePart.flushAll]
    exact ⟨rfl, rfl⟩
  | part :: ps =>
    rw [NodePart.unawaited_subpartsOfAll, List.forall_mem_cons,
      ← NodePart.unawaited_subpartsOfAll] at h
    obtain ⟨htree, herror⟩ := NodePart.tree_flush (s := s.holding
      (NodePart.heldByAll done ++ NodePart.heldByAll ps)) (w := w) report part h.1
    rw [NodePart.flushAll]
    simp only [herror, ← htree]
    exact NodePart.tree_flushAll _ _ ps h.2

theorem Part.tree_flushAll {s : Setting} {w : World} (report : FlushReport) (done parts : List Part)
    (h : Unawaited s.deferreds.Fulfilled (Part.subpartsOfAll parts)) :
    (Part.flushAll s w report done parts).world.tree = w.tree ∧
      (Part.flushAll s w report done parts).error = none := by
  match parts with
  | [] =>
    rw [Part.flushAll]
    exact ⟨rfl, rfl⟩
  | .attribute part :: ps =>
    rw [Part.flushAll]
    exact Part.tree_flushAll report _ ps h
  | .node part :: ps =>
    rw [Part.unawaited_subpartsOfAll] at h
    obtain ⟨htree, herror⟩ := NodePart.tree_flush (s := s.holding
      (Part.heldByAll done ++ Part.heldByAll ps)) (w := w) report part (h part List.mem_cons_self)
    rw [Part.flushAll]
    simp only [herror, ← htree]
    exact Part.tree_flushAll _ _ ps
      (Part.unawaited_subpartsOfAll.2 fun p hp => h p (List.mem_cons_of_mem _ hp))

end

end LiveMarkup
