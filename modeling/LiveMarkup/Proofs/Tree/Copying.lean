import LiveMarkup.Proofs.Tree.Changes

set_option autoImplicit false

/-!
Copies. A graft makes a detached branch of new nodes whose kinds are those of what was copied; and
what an arena holds is what its recursion on branches reads.
-/

namespace LiveMarkup

open Branch (labelsOfAll)

namespace Branch

variable {α β γ : Type}

mutual

theorem map_congr {f g : α → β} {b : Branch α} (h : ∀ a ∈ b.labels, f a = g a) :
    b.map f = b.map g := by
  match b with
  | .node a bs =>
    rw [map, map, h a List.mem_cons_self,
      mapAll_congr fun x hx => h x (List.mem_cons_of_mem _ hx)]

theorem mapAll_congr {f g : α → β} {bs : List (Branch α)} (h : ∀ a ∈ labelsOfAll bs, f a = g a) :
    mapAll f bs = mapAll g bs := by
  match bs with
  | [] => rfl
  | b :: bs =>
    rw [mapAll, mapAll, map_congr fun x hx => h x (List.mem_append_left _ hx),
      mapAll_congr fun x hx => h x (List.mem_append_right _ hx)]

end

mutual

theorem map_id (b : Branch α) : b.map id = b := by
  match b with
  | .node a bs => rw [map, mapAll_id]; rfl

theorem mapAll_id (bs : List (Branch α)) : mapAll id bs = bs := by
  match bs with
  | [] => rfl
  | b :: bs => rw [mapAll, map_id, mapAll_id]

end

mutual

theorem map_map (f : α → β) (g : β → γ) (b : Branch α) : (b.map f).map g = b.map (g ∘ f) := by
  match b with
  | .node a bs => rw [map, map, map, mapAll_mapAll]; rfl

theorem mapAll_mapAll (f : α → β) (g : β → γ) (bs : List (Branch α)) :
    mapAll g (mapAll f bs) = mapAll (g ∘ f) bs := by
  match bs with
  | [] => rfl
  | b :: bs => rw [mapAll, mapAll, mapAll, map_map, mapAll_mapAll]

end

theorem mapAll_eq_map (f : α → β) (bs : List (Branch α)) :
    mapAll f bs = List.map (Branch.map f) bs := by
  induction bs with
  | nil => rfl
  | cons b bs ih => rw [mapAll, ih, List.map_cons]

@[simp] theorem mapAll_nil (f : α → β) : mapAll f [] = [] := rfl

@[simp] theorem mapAll_cons (f : α → β) (b : Branch α) (bs : List (Branch α)) :
    mapAll f (b :: bs) = b.map f :: mapAll f bs := rfl

@[simp] theorem mapAll_append (f : α → β) (bs cs : List (Branch α)) :
    mapAll f (bs ++ cs) = mapAll f bs ++ mapAll f cs := by
  simp [mapAll_eq_map]

@[simp] theorem map_node (f : α → β) (a : α) (bs : List (Branch α)) :
    (Branch.node a bs).map f = .node (f a) (mapAll f bs) := rfl

@[simp] theorem label_map (f : α → β) (b : Branch α) : (b.map f).label = f b.label := by
  cases b
  rfl

end Branch

namespace Tree

variable {t t' : Tree} {up : Option NodeId}

/-- Branches of new nodes have come into being under a node that does not list them yet. -/
structure GrowsAll (t t' : Tree) (up : Option NodeId) (bs : List (Branch NodeId)) : Prop
    extends Adds t t' (labelsOfAll bs) where
  holds : t'.HoldsAll up bs
  nodup : (labelsOfAll bs).Nodup

theorem Accounted.adds_refl (h : t.Accounted) : Adds t t [] :=
  ⟨by simp, fun _ _ => rfl, fun _ hl => .inr hl, h⟩

/-- Records that keep their nodes live are changed among new nodes. -/
theorem Adds.modify {ids : List NodeId} (h : Adds t t' ids) {id : NodeId} (hid : id ∈ ids)
    {f : Node → Node} (hf : ∀ n, (f n).live = n.live) : Adds t (t'.modify id f) ids where
  fresh := h.fresh
  core n hl := by
    have hne : n ≠ id := fun he => h.not_mem hl (he ▸ hid)
    rw [core_modify_of_ne hne, h.core n hl]
  live n hl := h.live n (contains_modify t' id n hf ▸ hl)
  accounted := h.accounted.modify id hf

mutual

theorem Accounted.grows_graft {t : Tree} (h : t.Accounted) (b : Branch NodeKind) :
    ∃ c : Branch NodeId, c.label = (t.graft b).2 ∧ Grows t (t.graft b).1 c ∧
      c.map (t.graft b).1.kind = b := by
  match b with
  | .node kind bs =>
    have hc := h.create kind
    obtain ⟨u, id, hu⟩ : ∃ u id, t.create kind = (u, id) := ⟨_, _, rfl⟩
    rw [hu] at hc
    obtain ⟨cs, hids, hg, hkinds⟩ := hc.accounted.grows_graftAll id 0 bs
    obtain ⟨v, ids, hv⟩ : ∃ v ids, u.graftAll id 0 bs = (v, ids) := ⟨_, _, rfl⟩
    rw [hv] at hids hg hkinds
    replace hids : cs.map Branch.label = ids := hids
    have heq : t.graft (.node kind bs) =
        (v.modify id fun n => { n with children := ids }, id) := by
      rw [graft, hu]
      simp only [hv]
    have hlive : u.contains id = true := by
      rw [contains_core, hc.core_self]
    have hid : id ∉ labelsOfAll cs := fun hm => by simp [hg.fresh id hm] at hlive
    have hvid : v.core id = { kind } := (hg.core id hlive).trans hc.core_self
    have hself : (v.modify id fun n => { n with children := ids }).core id =
        { v.core id with children := ids } := by
      rw [core_modify_self (by rw [contains_core, hvid])]
      rfl
    have hother (n : NodeId) (hn : n ≠ id) :
        (v.modify id fun n => { n with children := ids }).core n = v.core n :=
      core_modify_of_ne hn _
    have hne {n : NodeId} (hm : n ∈ labelsOfAll cs) : n ≠ id := fun he => hid (he ▸ hm)
    rw [heq]
    have hkeep : ∀ n : Node, ({ n with children := ids } : Node).live = n.live := fun _ => rfl
    refine ⟨.node id cs, rfl,
      ⟨(hc.adds.trans hg.toAdds).modify List.mem_cons_self hkeep, ?_, ?_⟩, ?_⟩
    · refine ⟨?_, ?_, ?_, hg.holds.of_core fun n hm => hother n (hne hm)⟩
      · rw [contains_core, hself, hvid]
      · rw [parent_core, hself, hvid]
      · rw [children_core, hself]
        exact hids.symm
    · exact List.nodup_cons.2 ⟨hid, hg.nodup⟩
    · rw [Branch.map_node, kind_core, hself, hvid]
      congr 1
      rw [← hkinds]
      exact Branch.mapAll_congr fun n hm => kind_of_core (hother n (hne hm))

theorem Accounted.grows_graftAll {t : Tree} (h : t.Accounted) (p : NodeId) (i : Nat)
    (bs : List (Branch NodeKind)) :
    ∃ cs : List (Branch NodeId), cs.map Branch.label = (t.graftAll p i bs).2 ∧
      GrowsAll t (t.graftAll p i bs).1 (some p) cs ∧
      Branch.mapAll (t.graftAll p i bs).1.kind cs = bs := by
  match bs with
  | [] =>
    rw [graftAll]
    exact ⟨[], rfl, ⟨h.adds_refl, trivial, by simp⟩, rfl⟩
  | b :: bs =>
    obtain ⟨c, hid, hg, hkind⟩ := h.grows_graft b
    obtain ⟨u, id, hu⟩ : ∃ u id, t.graft b = (u, id) := ⟨_, _, rfl⟩
    rw [hu] at hid hg hkind
    replace hid : c.label = id := hid
    obtain ⟨v, hv⟩ : ∃ v, v = u.modify id fun n => { n with parent := some p, hint := i } :=
      ⟨_, rfl⟩
    have hlive : u.contains id = true := hid ▸ hg.holds.contains_label
    have hself : v.core id = { u.core id with parent := some p } := by
      rw [hv, core_modify_self hlive]
      rfl
    have hother (n : NodeId) (hn : n ≠ id) : v.core n = u.core n := by
      rw [hv, core_modify_of_ne hn]
    have hidc : id ∈ c.labels := hid ▸ c.label_mem_labels
    have hav : Adds t v c.labels := by
      have hkeep : ∀ n : Node, ({ n with parent := some p, hint := i } : Node).live = n.live :=
        fun _ => rfl
      exact hv ▸ hg.toAdds.modify hidc hkeep
    have hvc : v.Holds (some p) c :=
      hg.holds.move hg.nodup (hid ▸ hself) fun n _ hne => hother n (hid ▸ hne)
    have hvkind (n : NodeId) : v.kind n = u.kind n := by
      by_cases hn : n = id
      · rw [hn, kind_core, hself]
        rfl
      · exact kind_of_core (hother n hn)
    obtain ⟨cs, hids, hgs, hkinds⟩ := hav.accounted.grows_graftAll p (i + 1) bs
    obtain ⟨w, ids, hw⟩ : ∃ w ids, v.graftAll p (i + 1) bs = (w, ids) := ⟨_, _, rfl⟩
    rw [hw] at hids hgs hkinds
    replace hids : cs.map Branch.label = ids := hids
    have heq : t.graftAll p i (b :: bs) = (w, id :: ids) := by
      rw [graftAll, hu]
      simp only [← hv, hw]
    rw [heq]
    refine ⟨c :: cs, by rw [List.map_cons, hid, hids], ⟨hav.trans hgs.toAdds, ?_, ?_⟩, ?_⟩
    · exact ⟨hvc.of_core fun n hm => hgs.core n (hvc.contains hm), hgs.holds⟩
    · refine List.nodup_append.2 ⟨hg.nodup, hgs.nodup, ?_⟩
      rintro n hm _ hm' rfl
      exact hgs.not_mem (hvc.contains hm) hm'
    · rw [Branch.mapAll_cons, hkinds, ← hkind]
      congr 1
      refine Branch.map_congr fun n hm => ?_
      rw [kind_of_core (hgs.core n (hvc.contains hm)), hvkind]

end

end Tree

end LiveMarkup
