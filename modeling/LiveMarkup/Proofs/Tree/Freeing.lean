import LiveMarkup.Proofs.Tree.Holding
import Mathlib.Data.List.Perm.Basic

set_option autoImplicit false

/-!
Removing frees exactly the branches that are removed: their nodes become free slots, the list of
children that they stood in loses them, and no other record changes.
-/

namespace LiveMarkup

open Branch (labelsOfAll)

theorem Branch.labelsOfAll_perm {α : Type} {bs cs : List (Branch α)} (h : bs.Perm cs) :
    (labelsOfAll bs).Perm (labelsOfAll cs) := by
  induction h with
  | nil => exact .nil
  | cons b _ ih => exact ih.append_left b.labels
  | swap a b bs =>
    simp only [labelsOfAll_cons, ← List.append_assoc]
    exact List.perm_append_comm.append_right _
  | trans _ _ ih₁ ih₂ => exact ih₁.trans ih₂

namespace Tree

variable {t t' : Tree} {p : NodeId}

/-- What freeing nodes does. -/
structure Frees (t t' : Tree) (ids : List NodeId) : Prop where
  gone : ∀ n ∈ ids, t'.core n = Node.dead
  core_other : ∀ n, n ∉ ids → t'.core n = t.core n
  accounted : t'.Accounted

theorem Frees.trans {t'' : Tree} {ids jds : List NodeId} (h : Frees t t' ids)
    (h' : Frees t' t'' jds) : Frees t t'' (ids ++ jds) where
  gone n hn := by
    by_cases hj : n ∈ jds
    · exact h'.gone n hj
    · rw [h'.core_other n hj]
      exact h.gone n ((List.mem_append.1 hn).resolve_right hj)
  core_other n hn := by
    rw [List.mem_append, not_or] at hn
    rw [h'.core_other n hn.2, h.core_other n hn.1]
  accounted := h'.accounted

theorem Frees.of_perm {ids jds : List NodeId} (h : Frees t t' ids) (hp : ids.Perm jds) :
    Frees t t' jds where
  gone n hn := h.gone n (hp.mem_iff.2 hn)
  core_other n hn := h.core_other n fun hm => hn (hp.mem_iff.1 hm)
  accounted := h.accounted

theorem frees_bury {id : NodeId} (h : t.Accounted) (hl : t.contains id = true) :
    Frees t (t.bury id) [id] where
  gone n hn := by
    rw [List.mem_singleton.1 hn]
    exact core_bury_self hl
  core_other n hn := core_bury_of_ne fun he => hn (he ▸ List.mem_singleton.2 rfl)
  accounted := h.bury hl

theorem frees_release {stack : List (Branch NodeId)} (h : t.Accounted)
    (hb : ∀ b ∈ stack, ∃ up, t.Holds up b) (hnd : (labelsOfAll stack).Nodup) :
    Frees t (t.release (stack.map Branch.label)) (labelsOfAll stack) := by
  -- On the number of nodes: a node goes, and what stood below it comes onto the stack.
  induction hk : (labelsOfAll stack).length using Nat.strongRecOn generalizing t stack with
  | ind k ih =>
    match stack with
    | [] =>
      rw [List.map_nil, release]
      exact ⟨by simp, fun _ _ => rfl, h⟩
    | .node id bs :: stack =>
      obtain ⟨up, hl, -, hch, hbs⟩ := hb _ List.mem_cons_self
      have hbury := frees_bury h hl
      have hperm : (labelsOfAll (bs.reverse ++ stack)).Perm (labelsOfAll (bs ++ stack)) :=
        Branch.labelsOfAll_perm ((List.reverse_perm bs).append_right stack)
      have hcons : labelsOfAll (.node id bs :: stack) = id :: labelsOfAll (bs ++ stack) := by simp
      rw [hcons] at hnd hk ⊢
      have hid := (List.nodup_cons.1 hnd).1
      have hmap : (t.children id).reverse ++ stack.map Branch.label =
          (bs.reverse ++ stack).map Branch.label := by simp [hch]
      have hrest : Frees (t.bury id)
          ((t.bury id).release ((bs.reverse ++ stack).map Branch.label))
          (labelsOfAll (bs.reverse ++ stack)) := by
        refine ih _ ?_ hbury.accounted ?_ (hperm.nodup_iff.2 (List.nodup_cons.1 hnd).2) rfl
        · rw [← hk, hperm.length_eq, List.length_cons]
          exact Nat.lt_succ_self _
        · intro b hm
          have hkeep {up : Option NodeId} (hmem : b ∈ bs ++ stack) (hheld : t.Holds up b) :
              (t.bury id).Holds up b := by
            refine hheld.of_core fun n hn => core_bury_of_ne ?_
            rintro rfl
            exact hid (Branch.mem_labelsOfAll.2 ⟨b, hmem, hn⟩)
          rcases List.mem_append.1 hm with hm | hm
          · have hm := List.mem_reverse.1 hm
            exact ⟨_, hkeep (List.mem_append_left _ hm) (holdsAll_iff.1 hbs b hm)⟩
          · obtain ⟨up, hup⟩ := hb b (List.mem_cons_of_mem _ hm)
            exact ⟨up, hkeep (List.mem_append_right _ hm) hup⟩
      rw [List.map_cons, release]
      simp only [Branch.label, hl, dif_pos, hmap]
      exact (hbury.trans hrest).of_perm (hperm.cons id)

theorem frees_remove {b : Branch NodeId} (h : t.Accounted) (hb : t.Holds none b)
    (hnd : b.labels.Nodup) : Frees t (t.remove b.label) b.labels := by
  rw [remove, detach_of_parent_none hb.parent_label]
  have hr : Frees t (t.release ([b].map Branch.label)) (labelsOfAll [b]) := frees_release h
    (fun _ hm => ⟨none, List.mem_singleton.1 hm ▸ hb⟩) (by simpa using hnd)
  simpa using hr

theorem frees_removeAll {up : Option NodeId} {bs : List (Branch NodeId)} (h : t.Accounted)
    (hb : t.HoldsAll up bs) (hnd : (labelsOfAll bs).Nodup) :
    Frees t (t.removeAll (bs.map Branch.label)) (labelsOfAll bs) := by
  induction bs generalizing t with
  | nil => exact ⟨by simp, fun _ _ => rfl, h⟩
  | cons b bs ih =>
    obtain ⟨hndb, hndbs, hdis⟩ := List.nodup_append.1 hnd
    have hl := hb.1.contains_label
    let u := t.modify b.label fun n => { n with parent := none }
    have hu : u.core b.label = { t.core b.label with parent := none } := core_modify_self hl _
    have hother (n : NodeId) (hn : n ≠ b.label) : u.core n = t.core n := core_modify_of_ne hn _
    have hau : u.Accounted := h.modify _ fun _ => rfl
    have hrem := frees_remove hau (hb.1.move hndb hu fun n _ hne => hother n hne) hndb
    have hfirst : Frees t (u.remove b.label) b.labels := by
      refine ⟨hrem.gone, fun n hn => ?_, hrem.accounted⟩
      rw [hrem.core_other n hn, hother n fun he => hn (he ▸ b.label_mem_labels)]
    have hkeep : (u.remove b.label).HoldsAll up bs :=
      hb.2.of_core fun n hn => hfirst.core_other n fun hm => hdis n hm n hn rfl
    rw [List.map_cons, removeAll]
    exact hfirst.trans (ih hrem.accounted hkeep hndbs)

/-- What taking a run of siblings out of a list of children and freeing them does. -/
structure Cuts (t t' : Tree) (p : NodeId) (ids kept : List NodeId) : Prop where
  core_parent : t'.core p = { t.core p with children := kept }
  gone : ∀ n ∈ ids, t'.core n = Node.dead
  core_other : ∀ n, n ∉ ids → n ≠ p → t'.core n = t.core n
  accounted : t'.Accounted

theorem cuts_removeRange {before after : List NodeId} {b : Branch NodeId}
    {bs : List (Branch NodeId)} {stop : NodeId} (h : t.Accounted) (hl : t.contains p = true)
    (hb : t.HoldsAll (some p) (b :: bs)) (hs : t.parent stop = some p)
    (hc : t.children p = before ++ (b :: bs).map Branch.label ++ stop :: after)
    (hn : (t.children p).Nodup) (hnd : (labelsOfAll (b :: bs)).Nodup)
    (hp : p ∉ labelsOfAll (b :: bs)) :
    Cuts t (t.removeRange b.label stop).1 p (labelsOfAll (b :: bs)) (before ++ stop :: after) := by
  have hc' : t.children p = before ++ b.label :: (bs.map Branch.label ++ stop :: after) := by
    rw [hc]
    simp
  have hfirst : t.position b.label = some (p, before.length) :=
    position_of_children hb.1.parent_label hc' hn
  have hstop : t.position stop = some (p, (before ++ (b :: bs).map Branch.label).length) :=
    position_of_children hs (by rw [hc]) hn
  have hne : b.label ≠ stop := by
    rintro rfl
    rw [hfirst] at hstop
    simp at hstop
  let kids := before ++ stop :: after
  let cut : Node → Node := fun n => { n with children := kids }
  obtain ⟨u, hu⟩ : ∃ u, u = (t.modify p cut).touched := ⟨_, rfl⟩
  have hup : u.core p = { t.core p with children := kids } := by
    rw [hu, core_touched, core_modify_self hl]
    rfl
  have hother (n : NodeId) (hn : n ≠ p) : u.core n = t.core n := by
    rw [hu, core_touched, core_modify_of_ne hn]
  have hau : u.Accounted := by
    have hcut : ∀ n, (cut n).live = n.live := fun _ => rfl
    exact hu ▸ (h.modify p hcut).touched
  have heq : (t.removeRange b.label stop).1 = u.removeAll ((b :: bs).map Branch.label) := by
    have hlt : before.length < (before ++ (b :: bs).map Branch.label).length := by simp
    have htake : (t.children p).take (before ++ (b :: bs).map Branch.label).length =
        before ++ (b :: bs).map Branch.label := by rw [hc, List.take_left]
    have hdrop : (t.children p).drop (before ++ (b :: bs).map Branch.label).length =
        stop :: after := by rw [hc, List.drop_left]
    have htake' : (t.children p).take before.length = before := by
      rw [hc, List.append_assoc, List.take_left]
    simp only [removeRange, hne, if_false, hfirst, hstop, hlt, and_self, if_true, htake, hdrop,
      htake', List.drop_left, hu]
    rfl
  have hkeep : u.HoldsAll (some p) (b :: bs) :=
    hb.of_core fun n hn => hother n fun he => hp (he ▸ hn)
  have hfree := frees_removeAll hau hkeep hnd
  rw [heq]
  exact {
    core_parent := by rw [hfree.core_other p hp, hup]
    gone := hfree.gone
    core_other := fun n hn hne => by rw [hfree.core_other n hn, hother n hne]
    accounted := hfree.accounted }

end Tree

end LiveMarkup
