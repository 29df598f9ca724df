import LiveMarkup.Proofs.Tree.Copying

set_option autoImplicit false

/-!
What an arena shows of a branch that it holds: reading the arena at the root of the branch gives the
branch back, and the nodes of an arena that holds nothing else are counted by its labels.
-/

namespace LiveMarkup

open Branch (labelsOfAll)

theorem NodeId.index_injective : Function.Injective NodeId.index := fun a b h => by
  cases a
  cases b
  exact congrArg NodeId.mk h

namespace Tree

variable {t : Tree} {up : Option NodeId}

mutual

theorem Holds.branchWithin {up : Option NodeId} {b : Branch NodeId} (h : t.Holds up b) {depth : Nat}
    (hd : b.labels.length ≤ depth + 1) : t.branchWithin depth b.label = b := by
  match b, depth with
  | .node id [], 0 => rfl
  | .node id (c :: cs), 0 =>
    rw [Branch.labels_node, Branch.labelsOfAll_cons, Branch.labels_eq c] at hd
    simp at hd
  | .node id bs, depth + 1 =>
    rw [Branch.label, Tree.branchWithin, h.2.2.1]
    congr 1
    exact h.2.2.2.branchWithin (by simpa using hd)

theorem HoldsAll.branchWithin {up : Option NodeId} {bs : List (Branch NodeId)}
    (h : t.HoldsAll up bs) {depth : Nat} (hd : (labelsOfAll bs).length ≤ depth + 1) :
    (bs.map Branch.label).map (t.branchWithin depth) = bs := by
  match bs with
  | [] => rfl
  | b :: bs =>
    rw [Branch.labelsOfAll_cons, List.length_append] at hd
    have hb : t.branchWithin depth b.label = b := h.1.branchWithin (by omega)
    have hbs : (bs.map Branch.label).map (t.branchWithin depth) = bs := h.2.branchWithin (by omega)
    rw [List.map_cons, List.map_cons, hb, hbs]

end

/-- Different live nodes are no more than the arena has slots. -/
theorem length_le_size {ids : List NodeId} (hn : ids.Nodup)
    (hl : ∀ n ∈ ids, t.contains n = true) : ids.length ≤ t.nodes.size := by
  have hsub : ids.map NodeId.index ⊆ List.range t.nodes.size := fun i hi => by
    obtain ⟨n, hm, rfl⟩ := List.mem_map.1 hi
    exact List.mem_range.2 (lt_size_of_contains (hl n hm))
  have hle := (List.subperm_of_subset (hn.map NodeId.index_injective) hsub).length_le
  simpa using hle

theorem Holds.branch {b : Branch NodeId} (h : t.Holds up b) (hn : b.labels.Nodup) :
    t.branch b.label = b := by
  have hle := length_le_size hn fun _ hm => h.contains hm
  exact h.branchWithin (by omega)

theorem Holds.content {b : Branch NodeId} (h : t.Holds up b) (hn : b.labels.Nodup) :
    t.content b.label = b.map t.kind := by
  rw [Tree.content, h.branch hn]

theorem Holds.preorder {b : Branch NodeId} (h : t.Holds up b) (hn : b.labels.Nodup) :
    t.preorder b.label = b.labels := by
  rw [Tree.preorder, h.branch hn]

theorem HoldsAll.map_branch {bs : List (Branch NodeId)} (h : t.HoldsAll up bs)
    (hn : (labelsOfAll bs).Nodup) : (bs.map Branch.label).map t.branch = bs := by
  induction bs with
  | nil => rfl
  | cons b bs ih =>
    rw [Branch.labelsOfAll_cons] at hn
    rw [List.map_cons, List.map_cons, h.1.branch (List.nodup_append.1 hn).1,
      ih h.2 (List.nodup_append.1 hn).2.1]

theorem countP_nodes (t : Tree) : t.nodes.countP (·.live) =
    ((List.range t.nodes.size).filter fun i => t.contains ⟨i⟩).length := by
  have hlist : t.nodes.toList = (List.range t.nodes.size).map fun i => t.node ⟨i⟩ := by
    refine List.ext_getElem (by simp) fun i hi _ => ?_
    have hi : i < t.nodes.size := by simpa using hi
    simp [node, Array.getD_eq_getD_getElem?, hi]
  rw [← Array.countP_toList, hlist, List.countP_map, List.countP_eq_length_filter]
  rfl

/-- An arena whose live nodes are the nodes of a list counts as many. -/
theorem Accounted.size_eq_length {ids : List NodeId} (h : t.Accounted) (hn : ids.Nodup)
    (hl : ∀ n, n ∈ ids ↔ t.contains n = true) : t.size = ids.length := by
  have hperm : ((List.range t.nodes.size).filter fun i => t.contains ⟨i⟩).Perm
      (ids.map NodeId.index) := by
    refine (List.perm_ext_iff_of_nodup (List.nodup_range.filter _) (hn.map NodeId.index_injective)).2 fun i => ?_
    rw [List.mem_filter, List.mem_range, List.mem_map]
    constructor
    · exact fun hi => ⟨⟨i⟩, (hl _).2 hi.2, rfl⟩
    · rintro ⟨n, hm, rfl⟩
      exact ⟨lt_size_of_contains ((hl n).1 hm), (hl n).1 hm⟩
  rw [h.size_eq, countP_nodes, hperm.length_eq, List.length_map]

end Tree

end LiveMarkup
