import LiveMarkup.Proofs.Tree.Dissolving
import LiveMarkup.Proofs.Tree.Subtree

set_option autoImplicit false

/-!
Putting nodes right before another one. Where that one has a parent, the nodes come into its list
right before it and leave their old places, and no other list changes. Where it has none, moving the
children of a node leaves the arena alone, while a single node has been unlinked by then.
-/

namespace LiveMarkup.Tree

variable {t t' : Tree} {p id source reference : NodeId} {before after : List NodeId}

/-- Two arenas have the same nodes, which may be linked in different ways. -/
structure SameNodes (t t' : Tree) : Prop where
  kind : ∀ n, t'.kind n = t.kind n
  live : ∀ n, t'.contains n = t.contains n

/-- The nodes of the second arena are those of the first, each under the parent and with the children
that are given for it. -/
structure Relinks (t t' : Tree) (up : NodeId → Option NodeId) (below : NodeId → List NodeId) : Prop
    extends SameNodes t t' where
  parent : ∀ n, t'.parent n = up n
  children : ∀ n, t'.children n = below n

/-- What unlinking a node does. -/
structure Detaches (t t' : Tree) (id : NodeId) : Prop extends SameNodes t t' where
  parent : ∀ n, t'.parent n = if n = id then none else t.parent n
  /-- The node is gone from the list it stood in, which keeps its order; every other list stays. -/
  children : ∀ n, t'.children n =
    if t.parent id = some n then (t.children n).erase id else t.children n

/-- What putting a node right before another one does that stands under `p`. -/
structure PutsBefore (t t' : Tree) (p reference id : NodeId) : Prop extends SameNodes t t' where
  parent : ∀ n, t'.parent n = if n = id then some p else t.parent n
  /-- The list is the old one with the node taken out and put back right before the reference. -/
  placed : ∃ before after, (t.children p).erase id = before ++ reference :: after ∧
    t'.children p = before ++ id :: reference :: after
  /-- Of the other lists only the one that the node stood in changes: the node is gone. -/
  children : ∀ n, n ≠ p → t'.children n =
    if t.parent id = some n then (t.children n).erase id else t.children n

/-- What moving the children of a node right before another one does that stands under `p`. -/
structure MovesBefore (t t' : Tree) (p reference source : NodeId) : Prop
    extends SameNodes t t' where
  parent : ∀ n, t'.parent n = if n ∈ t.children source then some p else t.parent n
  /-- The moved children stand in their order right before the reference. -/
  placed : ∃ before after, t.children p = before ++ reference :: after ∧
    t'.children p = before ++ t.children source ++ reference :: after
  emptied : t'.children source = []
  children : ∀ n, n ≠ p → n ≠ source → t'.children n = t.children n

theorem relinks_of_core {up : NodeId → Option NodeId} {below : NodeId → List NodeId}
    (h : ∀ n, t'.core n = { t.core n with parent := up n, children := below n }) :
    Relinks t t' up below where
  kind n := by rw [kind_core, h]; rfl
  live n := by rw [contains_core, h]; rfl
  parent n := by rw [parent_core, h]
  children n := by rw [children_core, h]

theorem erase_of_nodup {ids : List NodeId} (hn : ids.Nodup) (hid : ids = before ++ id :: after) :
    ids.erase id = before ++ after := by
  subst hid
  have hm : id ∉ before := fun hm => (List.nodup_append.1 hn).2.2 id hm id List.mem_cons_self rfl
  rw [List.erase_append_right _ hm, List.erase_cons_head]

namespace WellFormed

/-- A live node is unlinked, wherever it stands. -/
theorem detaches_detach (h : t.WellFormed) (hl : t.contains id = true) :
    Detaches t (t.detach id) id ∧ (t.detach id).Accounted := by
  cases hup : t.parent id with
  | none =>
    rw [detach_of_parent_none hup]
    refine ⟨⟨⟨fun _ => rfl, fun _ => rfl⟩, fun n => ?_, fun n => by simp [hup]⟩, h.accounted⟩
    split
    · rename_i hn
      rw [hn, hup]
    · rfl
  | some p =>
    obtain ⟨hp, before, after, hc, -⟩ := h.exists_place hl hup
    have hn := h.nodup_children hp
    have hne : id ≠ p := by
      rintro rfl
      exact h.not_ancestor_self id ⟨id, hup, .refl⟩
    have hcut := unlinks_detach h.accounted hp hl hne hup hc hn
    have hcore (n : NodeId) : (t.detach id).core n = { t.core n with
        parent := if n = id then none else t.parent n
        children := if p = n then (t.children n).erase id else t.children n } := by
      by_cases hni : n = id
      · rw [hni, hcut.core_self, if_pos rfl, if_neg hne.symm]
        rfl
      by_cases hnp : n = p
      · rw [hnp, hcut.core_parent, if_neg hne.symm, if_pos rfl, erase_of_nodup hn hc]
        rfl
      · rw [hcut.core_other n hni hnp, if_neg hni, if_neg (Ne.symm hnp)]
        rfl
    have hlinks := relinks_of_core hcore
    exact ⟨⟨hlinks.toSameNodes, hlinks.parent, fun n => by simpa [hup] using hlinks.children n⟩,
      hcut.accounted⟩

/-- The children of a node are moved before one that the node is not above. -/
theorem movesBefore (h : t.WellFormed) (hs : t.contains source = true)
    (hr : t.contains reference = true) (hup : t.parent reference = some p)
    (habove : ¬ t.Ancestor source reference) :
    MovesBefore t (t.moveChildrenBefore source reference).1 p reference source := by
  obtain ⟨hp, before, after, hc, -⟩ := h.exists_place hr hup
  have hne : p ≠ source := by
    rintro rfl
    exact habove ⟨p, hup, .refl⟩
  have hkid {n : NodeId} (hn : n ∈ t.children source) := h.owned source n hs hn
  obtain ⟨u, hsource, hother, hlink⟩ := linksAll_moveChildren h.accounted hs hp hne hup hc
    (h.nodup_children hp) (fun n hn => (hkid hn).1)
    (fun hm => habove ⟨p, hup, .head (hkid hm).2 .refl⟩) (h.nodup_children hs)
  obtain ⟨t', ht'⟩ : ∃ t', t' = (t.moveChildrenBefore source reference).1 := ⟨_, rfl⟩
  rw [← ht'] at hlink ⊢
  have hself : source ∉ t.children source := fun hm =>
    h.not_ancestor_self source ⟨source, (hkid hm).2, .refl⟩
  have hpk : p ∉ t.children source := fun hm => habove ⟨p, hup, .head (hkid hm).2 .refl⟩
  have hcore (n : NodeId) : t'.core n = { t.core n with
      parent := if n ∈ t.children source then some p else t.parent n
      children := if n = p then before ++ t.children source ++ reference :: after
        else if n = source then [] else t.children n } := by
    by_cases hk : n ∈ t.children source
    · have hns : n ≠ source := fun he => hself (he ▸ hk)
      have hnp : n ≠ p := fun he => hpk (he ▸ hk)
      rw [hlink.core_self n hk, hother n hns, if_pos hk, if_neg hnp, if_neg hns]
      rfl
    by_cases hnp : n = p
    · subst hnp
      rw [hlink.core_parent, hother n hne, if_neg hk, if_pos rfl]
      rfl
    rw [hlink.core_other n hk hnp, if_neg hk, if_neg hnp]
    by_cases hns : n = source
    · rw [hns, hsource, if_pos rfl]
      rfl
    · rw [hother n hns, if_neg hns]
      rfl
  have hlinks := relinks_of_core hcore
  refine ⟨hlinks.toSameNodes, hlinks.parent, ⟨before, after, hc, ?_⟩, ?_, fun n hnp hns => ?_⟩
  · rw [hlinks.children, if_pos rfl]
  · rw [hlinks.children, if_neg hne.symm, if_pos rfl]
  · rw [hlinks.children, if_neg hnp, if_neg hns]

/-- A node is put before one that it is not above. -/
theorem putsBefore (h : t.WellFormed) (hl : t.contains id = true)
    (hr : t.contains reference = true) (hup : t.parent reference = some p)
    (habove : ¬ t.Above id reference) :
    (t.insertBefore reference id).2 = true ∧
      PutsBefore t (t.insertBefore reference id).1 p reference id := by
  obtain ⟨hd, ha⟩ := h.detaches_detach hl
  have hp := (h.listed reference p hr hup).1
  have hne : id ≠ p := by
    rintro rfl
    exact habove (.head hup .refl)
  have hnr : reference ≠ id := by
    rintro rfl
    exact habove .refl
  obtain ⟨u, hu⟩ : ∃ u, u = t.detach id := ⟨_, rfl⟩
  rw [← hu] at hd ha
  have hnone : u.parent id = none := by rw [hd.parent, if_pos rfl]
  have hupu : u.parent reference = some p := by rw [hd.parent, if_neg hnr, hup]
  have hcu : u.children p = (t.children p).erase id := by
    rw [hd.children]
    split
    · rfl
    · rename_i hin
      exact (List.erase_of_not_mem fun hm => hin (h.owned p id hp hm).2).symm
  have hnu : (u.children p).Nodup := hcu ▸ (h.nodup_children hp).erase id
  obtain ⟨before, after, hc⟩ := List.append_of_mem
    ((List.mem_erase_of_ne hnr).2 (h.mem_children hr hup))
  have hlink := links_insertBefore ha ((hd.live p).trans hp) ((hd.live id).trans hl) hnone hne hupu
    (hcu.trans hc) hnu
  have hsame : t.insertBefore reference id = u.insertBefore reference id := by
    rw [insertBefore, insertBefore, detach_of_parent_none hnone, ← hu]
  have hcore (n : NodeId) : (u.insertBefore reference id).1.core n = { u.core n with
      parent := if n = id then some p else u.parent n
      children := if n = p then before ++ id :: reference :: after else u.children n } := by
    by_cases hn : n = id
    · rw [hn, hlink.core_self, if_pos rfl, if_neg hne]
      rfl
    by_cases hnp : n = p
    · rw [hnp, hlink.core_parent, if_neg hne.symm, if_pos rfl]
      rfl
    · rw [hlink.core_other n hn hnp, if_neg hn, if_neg hnp]
      rfl
  have hlinks := relinks_of_core hcore
  rw [hsame]
  refine ⟨?_, ⟨fun n => (hlinks.kind n).trans (hd.kind n), fun n => (hlinks.live n).trans (hd.live n)⟩,
    fun n => ?_, ⟨before, after, hc, ?_⟩, fun n hnp => ?_⟩
  · simp only [insertBefore, detach_of_parent_none hnone,
      position_of_children hupu (hcu.trans hc) hnu]
  · rw [hlinks.parent, hd.parent]
    split <;> rfl
  · rw [hlinks.children, if_pos rfl]
  · rw [hlinks.children, if_neg hnp, hd.children]

end WellFormed

/-- Whether a node comes to stand before another one is a matter of whether that one has a parent.
If it has, the change is exactly that, for a node as for the children of a node. If it has none, the
children of a node stay where they are; a single node has been unlinked. -/
theorem insertBefore_puts (h : t.WellFormed) (hr : t.contains reference = true) :
    (∀ id, t.contains id = true → ¬ t.Above id reference →
      ((t.insertBefore reference id).2 = true ↔ ∃ p, t.parent reference = some p) ∧
      (∀ p, t.parent reference = some p → PutsBefore t (t.insertBefore reference id).1 p reference id) ∧
      (t.parent reference = none → Detaches t (t.insertBefore reference id).1 id) ∧
      (t.parent reference = none → t.parent id = none → (t.insertBefore reference id).1 = t)) ∧
    ∀ source, t.contains source = true → ¬ t.Ancestor source reference →
      ((t.moveChildrenBefore source reference).2 = true ↔ ∃ p, t.parent reference = some p) ∧
      (∀ p, t.parent reference = some p →
        MovesBefore t (t.moveChildrenBefore source reference).1 p reference source) ∧
      (t.parent reference = none → (t.moveChildrenBefore source reference).1 = t) := by
  refine ⟨fun id hl habove => ?_, fun source hs habove => ?_⟩
  · cases hup : t.parent reference with
    | none =>
      have hnr : reference ≠ id := by
        rintro rfl
        exact habove .refl
      obtain ⟨hd, -⟩ := h.detaches_detach hl
      have hnone : (t.detach id).parent reference = none := by rw [hd.parent, if_neg hnr, hup]
      have heq : t.insertBefore reference id = (t.detach id, false) := by
        simp only [insertBefore, position_of_parent_none hnone]
      rw [heq]
      exact ⟨by simp, by simp, fun _ => hd, fun _ => detach_of_parent_none⟩
    | some p =>
      obtain ⟨htrue, hputs⟩ := h.putsBefore hl hr hup habove
      refine ⟨by simp [htrue], fun q hq => ?_, by simp, by simp⟩
      cases hq
      exact hputs
  · cases hup : t.parent reference with
    | none => simp [moveChildrenBefore, hup]
    | some p =>
      have htrue : (t.moveChildrenBefore source reference).2 = true := by
        simp only [moveChildrenBefore, hup]
      refine ⟨by simp [htrue], fun q hq => ?_, by simp⟩
      cases hq
      exact h.movesBefore hs hr hup habove

theorem insertBefore_puts_shelf :
    let t := ({} : Tree).edit shelf
    t.WellFormed ∧ t.contains ⟨3⟩ = true ∧
      (t.contains ⟨1⟩ = true ∧ ¬ t.Above ⟨1⟩ ⟨3⟩ ∧ (t.insertBefore ⟨3⟩ ⟨1⟩).2 = true ∧
        PutsBefore t (t.insertBefore ⟨3⟩ ⟨1⟩).1 ⟨0⟩ ⟨3⟩ ⟨1⟩) ∧
      t.contains ⟨2⟩ = true ∧ ¬ t.Ancestor ⟨2⟩ ⟨3⟩ ∧ (t.moveChildrenBefore ⟨2⟩ ⟨3⟩).2 = true ∧
        MovesBefore t (t.moveChildrenBefore ⟨2⟩ ⟨3⟩).1 ⟨0⟩ ⟨3⟩ ⟨2⟩ := by
  intro t
  have hr : t.contains ⟨3⟩ = true := by decide +kernel
  have hl : t.contains ⟨1⟩ = true := by decide +kernel
  have hs : t.contains ⟨2⟩ = true := by decide +kernel
  have hup : t.parent ⟨3⟩ = some ⟨0⟩ := by decide +kernel
  have hroot : t.parent ⟨0⟩ = none := by decide +kernel
  have habove : ¬ t.Above ⟨1⟩ ⟨3⟩ :=
    not_above_of_parent_some hup (by decide) (not_above_of_parent_none hroot (by decide))
  have hanc : ¬ t.Ancestor ⟨2⟩ ⟨3⟩ := by
    rintro ⟨p, hp, habove⟩
    cases hup.symm.trans hp
    exact not_above_of_parent_none hroot (by decide) habove
  obtain ⟨hnode, hchildren⟩ := insertBefore_puts wellFormed_shelf hr
  obtain ⟨htrue, hputs, -⟩ := hnode ⟨1⟩ hl habove
  obtain ⟨htrue', hmoves, -⟩ := hchildren ⟨2⟩ hs hanc
  exact ⟨wellFormed_shelf, hr, ⟨hl, habove, htrue.2 ⟨_, hup⟩, hputs _ hup⟩, hs, hanc,
    htrue'.2 ⟨_, hup⟩, hmoves _ hup⟩

/-- A child that is to stand before its root, which has no parent, is refused and gone from the
root's list all the same. -/
theorem insertBefore_unlinks :
    let t := ({} : Tree).edit [.create .fragment, .create (.element "p" []), .append ⟨0⟩ ⟨1⟩]
    t.WellFormed ∧ t.contains ⟨0⟩ = true ∧ t.contains ⟨1⟩ = true ∧ ¬ t.Above ⟨1⟩ ⟨0⟩ ∧
      (t.insertBefore ⟨0⟩ ⟨1⟩).2 = false ∧ t.children ⟨0⟩ = [⟨1⟩] ∧
      (t.insertBefore ⟨0⟩ ⟨1⟩).1.children ⟨0⟩ = [] := by
  have hpermits : ({} : Tree).Permits
      [.create .fragment, .create (.element "p" []), .append ⟨0⟩ ⟨1⟩] :=
    ⟨trivial, trivial, ⟨by decide, by decide,
      not_above_of_parent_none (by decide) (by decide)⟩, trivial⟩
  exact ⟨(linked_empty.edit hpermits).wellFormed, by decide, by decide,
    not_above_of_parent_none (by decide) (by decide), by decide, by decide, by decide⟩

end LiveMarkup.Tree
