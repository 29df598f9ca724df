import LiveMarkup.Proofs.Tree.Changes

set_option autoImplicit false

/-!
Taking a node away from around its children, which come to stand where it stood.
-/

namespace LiveMarkup

open Branch (labelsOfAll)

namespace Tree

variable {t t' : Tree} {p id : NodeId} {before after : List NodeId}

/-- What unlinking a child does. -/
structure Unlinks (t t' : Tree) (p id : NodeId) (kept : List NodeId) : Prop where
  core_self : t'.core id = { t.core id with parent := none }
  core_parent : t'.core p = { t.core p with children := kept }
  core_other : ∀ n, n ≠ id → n ≠ p → t'.core n = t.core n
  accounted : t'.Accounted

theorem unlinks_detach (h : t.Accounted) (hp : t.contains p = true) (hl : t.contains id = true)
    (hne : id ≠ p) (hup : t.parent id = some p) (hc : t.children p = before ++ id :: after)
    (hn : (t.children p).Nodup) : Unlinks t (t.detach id) p id (before ++ after) := by
  let cut : Node → Node := fun n => { n with children := n.children.eraseIdx before.length }
  let free : Node → Node := fun n => { n with parent := none }
  have hcut : ∀ n, (cut n).live = n.live := fun _ => rfl
  have hfree : ∀ n, (free n).live = n.live := fun _ => rfl
  have heq : t.detach id = ((t.modify p cut).modify id free).touched := by
    simp only [detach, position_of_children hup hc hn]
    rfl
  have hid : (t.modify p cut).contains id = true := by rw [contains_modify t p id hcut, hl]
  have hkept : (t.children p).eraseIdx before.length = before ++ after := by
    rw [hc, List.eraseIdx_append_of_length_le (Nat.le_refl _), Nat.sub_self, List.eraseIdx_cons_zero]
  rw [heq]
  refine ⟨?_, ?_, ?_, ((h.modify p hcut).modify id hfree).touched⟩
  · have hother : (t.modify p cut).core id = t.core id := core_modify_of_ne hne cut
    rw [core_touched, core_modify_self hid]
    change { (t.modify p cut).core id with parent := none } = _
    rw [hother]
  · rw [core_touched, core_modify_of_ne hne.symm, core_modify_self hp]
    change { t.core p with children := (t.children p).eraseIdx before.length } = _
    rw [hkept]
  · intro n hn hnp
    rw [core_touched, core_modify_of_ne hn, core_modify_of_ne hnp]

variable {left kids right : List (Branch NodeId)} {w : NodeId}

/-- A node of a stretch is taken away from around its children. -/
theorem Stretch.dissolve (h : Stretch t p before (left ++ .node w kids :: right) after)
    (ha : t.Accounted) :
    let u := (t.moveChildren w p (some w)).remove w
    Exchange t u p (labelsOfAll (left ++ .node w kids :: right))
        (labelsOfAll (left ++ kids ++ right)) ∧
      Stretch u p before (left ++ kids ++ right) after ∧
      ∀ n ∈ labelsOfAll (left ++ kids ++ right), u.kind n = t.kind n := by
  intro u
  have hh := h.holds
  rw [holdsAll_append, holdsAll_cons] at hh
  obtain ⟨hleft, hw, hright⟩ := hh
  have hp := h.owner_not_mem
  have hnd := h.nodup_labels
  simp only [Branch.labelsOfAll_append, Branch.labelsOfAll_cons, Branch.labels_node,
    List.mem_append, List.mem_cons, not_or] at hp
  simp only [Branch.labelsOfAll_append, Branch.labelsOfAll_cons, Branch.labels_node,
    List.nodup_append, List.cons_append, List.nodup_cons, List.mem_append, List.mem_cons,
    not_or] at hnd
  obtain ⟨hpl, ⟨hpw, hpk⟩, hpr⟩ := hp
  obtain ⟨hnl, ⟨⟨hwk, hwr⟩, hnk, hnr, hkr⟩, hlwkr⟩ := hnd
  have hroots {n : NodeId} (hm : n ∈ kids.map Branch.label) : n ∈ labelsOfAll kids :=
    (Branch.roots_sublist kids).mem hm
  have hfront : Stretch t p before left (w :: (right.map Branch.label ++ after)) := by
    have hwhole : Stretch t p before ([] ++ left ++ .node w kids :: right) after := by simpa using h
    simpa [Branch.label] using hwhole.narrow
  have hmid : Stretch t p (before ++ left.map Branch.label) [.node w kids]
      (right.map Branch.label ++ after) := Stretch.narrow (by simpa using h)
  obtain ⟨v, hvw, hv, hlink⟩ := linksAll_moveChildrenBefore hfront ha hw
    (by simpa using hmid.nodup_labels) (by simp [hpw, hpk])
  obtain ⟨m, hm⟩ : ∃ m, m = t.moveChildren w p (some w) := ⟨_, rfl⟩
  have hmove : (t.moveChildrenBefore w w).1 = m := by simp only [moveChildrenBefore, hw.2.1, hm]
  rw [hmove] at hlink
  -- The children stand in front of the node, which is empty now.
  have hmw : m.core w = { t.core w with children := [] } := by
    rw [hlink.core_other w (fun hr => hwk (hroots hr)) (Ne.symm hpw), hvw]
  have hmp : m.core p = { t.core p with
      children := before ++ left.map Branch.label ++ kids.map Branch.label ++
        w :: (right.map Branch.label ++ after) } := by
    rw [hlink.core_parent, hv p hpw]
  have hmnd : (m.children p).Nodup := by
    have hwide := (List.nodup_cons.1 h.nodup).2
    have hperm : (before ++ labelsOfAll left ++ labelsOfAll kids ++
        w :: (labelsOfAll right ++ after)).Perm
        (before ++ after ++ labelsOfAll (left ++ .node w kids :: right)) := by
      refine List.perm_iff_count.2 fun n => ?_
      simp only [Branch.labelsOfAll_append, Branch.labelsOfAll_cons, Branch.labels_node,
        List.count_append, List.count_cons]
      omega
    rw [children_core, hmp]
    refine List.Sublist.nodup ?_ (hperm.nodup_iff.2 hwide)
    exact (((List.Sublist.refl before).append (Branch.roots_sublist left)).append
      (Branch.roots_sublist kids)).append
      (((Branch.roots_sublist right).append (.refl after)).cons_cons w)
  have hmc : m.children p = before ++ left.map Branch.label ++ kids.map Branch.label ++
      w :: (right.map Branch.label ++ after) := by rw [children_core, hmp]
  have hcut := unlinks_detach hlink.accounted (by rw [contains_core, hmp]; exact h.live)
    (by rw [contains_core, hmw]; exact hw.1) (Ne.symm hpw)
    (by rw [parent_core, hmw]; exact hw.2.1) hmc hmnd
  have hheld : (m.detach w).Holds none (.node w []) := by
    refine ⟨?_, ?_, ?_, trivial⟩
    · rw [contains_core, hcut.core_self, hmw]
      exact hw.1
    · rw [parent_core, hcut.core_self]
    · rw [children_core, hcut.core_self, hmw]
      rfl
  have hfree : Frees (m.detach w) ((m.detach w).release ([.node w []].map Branch.label))
      (labelsOfAll [.node w []]) := frees_release hcut.accounted
    (fun b hb => ⟨none, List.mem_singleton.1 hb ▸ hheld⟩) (by simp)
  have hu : u = (m.detach w).release ([.node w []].map Branch.label) := by
    simp only [u, ← hm, remove, List.map_cons, List.map_nil, Branch.label]
  rw [← hu] at hfree
  have hfreed {n : NodeId} (hn : n ≠ w) : u.core n = (m.detach w).core n :=
    hfree.core_other n (by simpa using hn)
  have hup : u.core p = { t.core p with
      children := before ++ (left ++ kids ++ right).map Branch.label ++ after } := by
    rw [hfreed hpw, hcut.core_parent, hmp]
    simp
  have hkid {n : NodeId} (hn : n ∈ kids.map Branch.label) :
      u.core n = { t.core n with parent := some p } := by
    have hnw : n ≠ w := fun he => hwk (he ▸ hroots hn)
    have hnp : n ≠ p := fun he => hpk (he ▸ hroots hn)
    rw [hfreed hnw, hcut.core_other n hnw hnp, hlink.core_self n hn, hv n hnw]
  have hother {n : NodeId} (hn : n ∉ kids.map Branch.label) (hnw : n ≠ w) (hnp : n ≠ p) :
      u.core n = t.core n := by
    rw [hfreed hnw, hcut.core_other n hnw hnp, hlink.core_other n hn hnp, hv n hnw]
  have hmem (n : NodeId) : n ∈ labelsOfAll (left ++ .node w kids :: right) ↔
      n = w ∨ n ∈ labelsOfAll (left ++ kids ++ right) := by
    simp only [Branch.labelsOfAll_append, Branch.labelsOfAll_cons, Branch.labels_node,
      List.mem_append, List.mem_cons]
    tauto
  have hx : Exchange t u p (labelsOfAll (left ++ .node w kids :: right))
      (labelsOfAll (left ++ kids ++ right)) := by
    refine ⟨?_, ?_, fun n hn => .inl ((hmem n).2 (.inr hn)), ?_, hfree.accounted⟩
    · rw [children_core, hup]
    · intro n _ hn hnp
      rw [hmem, not_or] at hn
      refine hother (fun hk => hn.2 ?_) hn.1 hnp
      simp [hroots hk]
    · intro n hl
      by_cases hnew : n ∈ labelsOfAll (left ++ kids ++ right)
      · exact .inl hnew
      refine .inr ?_
      have hnw : n ≠ w := fun he => by
        rw [contains_core, hfree.gone n (by simp [he])] at hl
        cases hl
      refine ⟨?_, fun hold => ((hmem n).1 hold).elim hnw hnew⟩
      by_cases hnp : n = p
      · rw [hnp]
        exact h.live
      · rwa [contains_core, hother (fun hk => hnew (by simp [hroots hk])) hnw hnp] at hl
  have hkeepLeft : u.HoldsAll (some p) left := hleft.of_core fun n hn =>
    hother (fun hk => hlwkr n hn n (.inr (.inl (hroots hk))) rfl)
      (fun he => hlwkr n hn n (.inl he) rfl) fun he => hpl (he ▸ hn)
  have hkeepRight : u.HoldsAll (some p) right := hright.of_core fun n hn =>
    hother (fun hk => hkr n (hroots hk) n hn rfl) (fun he => hwr (he ▸ hn)) fun he => hpr (he ▸ hn)
  have hkeepKids : u.HoldsAll (some p) kids := hw.2.2.2.move hnk (fun n hn => hkid hn)
    fun n hn hr => hother hr (fun he => hwk (he ▸ hn)) fun he => hpk (he ▸ hn)
  refine ⟨hx, h.of_exchange hx ?_ ?_ ?_, ?_⟩
  · rw [children_core, hup]
  · simp only [holdsAll_append]
    exact ⟨⟨hkeepLeft, hkeepKids⟩, hkeepRight⟩
  · simp only [Branch.labelsOfAll_append, List.nodup_append, List.mem_append]
    exact ⟨⟨hnl, hnk, fun a hl b hk => hlwkr a hl b (.inr (.inl hk))⟩, hnr,
      fun a hlk b hr => hlk.elim (fun hl => hlwkr a hl b (.inr (.inr hr))) fun hk => hkr a hk b hr⟩
  · intro n hn
    have hnw : n ≠ w := by
      rintro rfl
      simp only [Branch.labelsOfAll_append, List.mem_append] at hn
      rcases hn with (hn | hn) | hn
      · exact hlwkr n hn n (.inl rfl) rfl
      · exact hwk hn
      · exact hwr hn
    have hnp : n ≠ p := by
      rintro rfl
      simp only [Branch.labelsOfAll_append, List.mem_append] at hn
      rcases hn with (hn | hn) | hn
      · exact hpl hn
      · exact hpk hn
      · exact hpr hn
    by_cases hk : n ∈ kids.map Branch.label
    · rw [kind_core, hkid hk]
      rfl
    · exact kind_of_core (hother hk hnw hnp)

end Tree

end LiveMarkup
