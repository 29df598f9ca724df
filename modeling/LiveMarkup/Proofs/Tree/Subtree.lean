import LiveMarkup.Proofs.Tree.Editing
import LiveMarkup.Proofs.Tree.Reading

set_option autoImplicit false

/-!
Subtrees of a well-formed arena. Such an arena holds what it reads at any of its live nodes, and it
reads every node once: the nodes of a subtree are the live nodes that its root stands above.
-/

namespace LiveMarkup.Tree

open Branch (labelsOfAll)

variable {t : Tree} {id p n a : NodeId} {up : Option NodeId}

@[simp] theorem label_branchWithin (t : Tree) (depth : Nat) (id : NodeId) :
    (t.branchWithin depth id).label = id := by
  cases depth <;> rfl

@[simp] theorem label_branch (t : Tree) (id : NodeId) : (t.branch id).label = id :=
  label_branchWithin t t.nodes.size id

@[simp] theorem map_label_branch (t : Tree) (ids : List NodeId) :
    (ids.map t.branch).map Branch.label = ids := by
  simp [Function.comp_def]

/-- As many live nodes as the arena counts. -/
theorem Accounted.exists_live (h : t.Accounted) : ∃ ids : List NodeId, ids.Nodup ∧
    (∀ n, n ∈ ids ↔ t.contains n = true) ∧ t.size = ids.length := by
  obtain ⟨ids, hids⟩ : ∃ ids, ids = ((List.range t.nodes.size).map NodeId.mk).filter t.contains :=
    ⟨_, rfl⟩
  have hn : ids.Nodup := by
    rw [hids]
    exact (List.nodup_range.map fun _ _ he => NodeId.mk.inj he).filter _
  have hl (n : NodeId) : n ∈ ids ↔ t.contains n = true := by
    rw [hids, List.mem_filter, List.mem_map]
    exact ⟨And.right, fun hl => ⟨⟨n.index, List.mem_range.2 (lt_size_of_contains hl), rfl⟩, hl⟩⟩
  exact ⟨ids, hn, hl, h.size_eq_length hn hl⟩

/-- A node stands above another and is not the other. -/
def Ancestor (t : Tree) (top id : NodeId) : Prop := ∃ p, t.parent id = some p ∧ t.Above top p

theorem above_iff : t.Above a n ↔ n = a ∨ t.Ancestor a n :=
  Relation.ReflTransGen.cases_head_iff

mutual

theorem Holds.above {up : Option NodeId} {b : Branch NodeId} (h : t.Holds up b) {n : NodeId}
    (hn : n ∈ b.labels) : t.Above b.label n := by
  match b with
  | .node id bs =>
    rcases List.mem_cons.1 hn with rfl | hn
    · exact .refl
    · exact h.2.2.2.above hn

theorem HoldsAll.above {p : NodeId} {bs : List (Branch NodeId)} (h : t.HoldsAll (some p) bs)
    {n : NodeId} (hn : n ∈ labelsOfAll bs) : t.Above p n := by
  match bs with
  | b :: bs =>
    rcases List.mem_append.1 hn with hn | hn
    · exact (h.1.above hn).tail h.1.parent_label
    · exact h.2.above hn

end

mutual

/-- What an arena holds of a branch it holds with all children. -/
theorem Holds.mem_of_mem_children {up : Option NodeId} {b : Branch NodeId} (h : t.Holds up b)
    {p n : NodeId} (hp : p ∈ b.labels) (hn : n ∈ t.children p) : n ∈ b.labels := by
  match b with
  | .node id bs =>
    rcases List.mem_cons.1 hp with rfl | hp
    · rw [h.2.2.1] at hn
      exact List.mem_cons_of_mem _ ((Branch.roots_sublist bs).mem hn)
    · exact List.mem_cons_of_mem _ (h.2.2.2.mem_of_mem_children hp hn)

theorem HoldsAll.mem_of_mem_children {up : Option NodeId} {bs : List (Branch NodeId)}
    (h : t.HoldsAll up bs) {p n : NodeId} (hp : p ∈ labelsOfAll bs) (hn : n ∈ t.children p) :
    n ∈ labelsOfAll bs := by
  match bs with
  | b :: bs =>
    rcases List.mem_append.1 hp with hp | hp
    · exact List.mem_append_left _ (h.1.mem_of_mem_children hp hn)
    · exact List.mem_append_right _ (h.2.mem_of_mem_children hp hn)

end

namespace WellFormed

theorem accounted (h : t.WellFormed) : t.Accounted where
  free_nodup := h.free_nodup
  mem_free id := by rw [h.mem_free, Bool.not_eq_true]
  size_eq := h.size_eq

theorem nodup_children (h : t.WellFormed) (hp : t.contains p = true) : (t.children p).Nodup := by
  refine List.nodup_iff_count_le_one.2 fun id => ?_
  by_cases hm : id ∈ t.children p
  · obtain ⟨hl, hup⟩ := h.owned p id hp hm
    exact Nat.le_of_eq (h.listed id p hl hup).2
  · rw [List.count_eq_zero_of_not_mem hm]
    exact Nat.zero_le 1

theorem mem_children (h : t.WellFormed) (hl : t.contains id = true) (hup : t.parent id = some p) :
    id ∈ t.children p := by
  refine List.count_pos_iff.1 ?_
  rw [(h.listed id p hl hup).2]
  exact Nat.zero_lt_one

/-- Where a node stands among the children of its parent. -/
theorem exists_place (h : t.WellFormed) (hl : t.contains id = true) (hup : t.parent id = some p) :
    t.contains p = true ∧ ∃ before after, t.children p = before ++ id :: after ∧
      t.position id = some (p, before.length) := by
  have hp := (h.listed id p hl hup).1
  obtain ⟨before, after, hc⟩ := List.append_of_mem (h.mem_children hl hup)
  exact ⟨hp, before, after, hc, position_of_children hup hc (h.nodup_children hp)⟩

/-- No node stands above its own parent. -/
theorem not_ancestor_self (h : t.WellFormed) (id : NodeId) : ¬ t.Ancestor id id := by
  induction h.grounded id with
  | intro id _ ih =>
    rintro ⟨p, hup, habove⟩
    rcases above_iff.1 habove with rfl | ⟨q, hq, habove⟩
    · exact ih p hup ⟨p, hup, .refl⟩
    · exact ih p hup ⟨q, hq, habove.tail hup⟩

/-- Of two siblings none stands above the other. -/
theorem eq_of_above (h : t.WellFormed) (ha : t.parent a = some p) (hn : t.parent n = some p)
    (habove : t.Above a n) : n = a := by
  rcases above_iff.1 habove with he | ⟨q, hq, habove⟩
  · exact he
  · obtain rfl := Option.some.inj (hn.symm.trans hq)
    exact absurd ⟨p, ha, habove⟩ (h.not_ancestor_self a)

/-- Different live nodes above a node, with a child of it: the child is none of them. -/
theorem above_child (h : t.WellFormed) {path : List NodeId} {c : NodeId}
    (hl : t.contains id = true) (hpath : ∀ a ∈ path, t.contains a = true ∧ t.Above a id)
    (hn : path.Nodup) (hc : c ∈ t.children id) :
    (∀ a ∈ c :: path, t.contains a = true ∧ t.Above a c) ∧ (c :: path).Nodup := by
  obtain ⟨hlc, hup⟩ := h.owned id c hl hc
  refine ⟨fun a ha => ?_, List.nodup_cons.2 ⟨fun hm => ?_, hn⟩⟩
  · rcases List.mem_cons.1 ha with rfl | ha
    · exact ⟨hlc, .refl⟩
    · exact ⟨(hpath a ha).1, .head hup (hpath a ha).2⟩
  · exact h.not_ancestor_self c ⟨id, hup, (hpath c hm).2⟩

/-- Going down ends within the size of the arena, since the nodes above a live node are live and
differ. -/
theorem holds_branchWithin (h : t.WellFormed) {depth : Nat} (path : List NodeId)
    (hl : t.contains id = true) (hpath : ∀ a ∈ path, t.contains a = true ∧ t.Above a id)
    (hn : path.Nodup) (hsize : t.nodes.size ≤ path.length + depth) :
    t.Holds (t.parent id) (t.branchWithin depth id) := by
  induction depth generalizing id path with
  | zero =>
    refine ⟨hl, rfl, List.eq_nil_iff_forall_not_mem.2 fun c hc => ?_, trivial⟩
    obtain ⟨hlive, hnc⟩ := h.above_child hl hpath hn hc
    have hle := length_le_size hnc fun a ha => (hlive a ha).1
    rw [List.length_cons] at hle
    omega
  | succ depth ih =>
    refine ⟨hl, rfl, by simp [Function.comp_def], holdsAll_iff.2 fun b hb => ?_⟩
    obtain ⟨c, hc, rfl⟩ := List.mem_map.1 hb
    obtain ⟨hlc, hup⟩ := h.owned id c hl hc
    obtain ⟨hlive, hnc⟩ := h.above_child hl hpath hn hc
    rw [← hup]
    exact ih (c :: path) hlc hlive hnc (by rw [List.length_cons]; omega)

/-- A well-formed arena holds the subtree that it reads at a live node. -/
theorem holds_branch (h : t.WellFormed) (hl : t.contains id = true) :
    t.Holds (t.parent id) (t.branch id) :=
  h.holds_branchWithin [] hl (by simp) List.nodup_nil (by simp)

mutual

theorem nodup_labels (h : t.WellFormed) {up : Option NodeId} {b : Branch NodeId}
    (hb : t.Holds up b) : b.labels.Nodup := by
  match b with
  | .node id bs =>
    obtain ⟨hl, -, hc, hbs⟩ := hb
    refine List.nodup_cons.2 ⟨fun hm => ?_, h.nodup_labelsOfAll hbs (hc ▸ h.nodup_children hl)⟩
    obtain ⟨c, hcm, hm⟩ := Branch.mem_labelsOfAll.1 hm
    have hheld := holdsAll_iff.1 hbs c hcm
    exact h.not_ancestor_self c.label ⟨id, hheld.parent_label, hheld.above hm⟩

/-- Subtrees of different siblings have no node in common. -/
theorem nodup_labelsOfAll (h : t.WellFormed) {p : NodeId} {bs : List (Branch NodeId)}
    (hbs : t.HoldsAll (some p) bs) (hn : (bs.map Branch.label).Nodup) :
    (labelsOfAll bs).Nodup := by
  match bs with
  | [] => exact List.nodup_nil
  | b :: bs =>
    obtain ⟨hb, hn⟩ := List.nodup_cons.1 hn
    refine List.nodup_append.2 ⟨h.nodup_labels hbs.1, h.nodup_labelsOfAll hbs.2 hn, ?_⟩
    rintro n hm _ hm' rfl
    obtain ⟨c, hc, hm'⟩ := Branch.mem_labelsOfAll.1 hm'
    have hheld := holdsAll_iff.1 hbs.2 c hc
    -- Of two nodes above a third one, one stands above the other.
    rcases Relation.ReflTransGen.total_of_right_unique
      (fun _ _ _ hx hy => Option.some.inj (hx.symm.trans hy)) (hbs.1.above hm) (hheld.above hm')
      with habove | habove
    · rw [h.eq_of_above hheld.parent_label hbs.1.parent_label habove] at hb
      exact hb (List.mem_map_of_mem hc)
    · rw [← h.eq_of_above hbs.1.parent_label hheld.parent_label habove] at hb
      exact hb (List.mem_map_of_mem hc)

end

theorem nodup_preorder (h : t.WellFormed) (hl : t.contains id = true) : (t.preorder id).Nodup :=
  h.nodup_labels (h.holds_branch hl)

/-- The nodes of a subtree are the live nodes below its root, and the root. -/
theorem mem_preorder_iff (h : t.WellFormed) (hl : t.contains id = true) :
    n ∈ t.preorder id ↔ t.contains n = true ∧ t.Above id n := by
  have hb := h.holds_branch hl
  constructor
  · intro hn
    have habove := hb.above hn
    rw [label_branch] at habove
    exact ⟨hb.contains hn, habove⟩
  · rintro ⟨hln, habove⟩
    induction habove using Relation.ReflTransGen.head_induction_on with
    | refl =>
      have hroot := (t.branch id).label_mem_labels
      rwa [label_branch] at hroot
    | head hup _ ih =>
      exact hb.mem_of_mem_children (ih (h.listed _ _ hln hup).1) (h.mem_children hln hup)

end WellFormed

/-- Four things side by side, the second of which holds two more. -/
def shelf : List Edit :=
  [.create .fragment, .create (.element "a" []), .create (.element "b" []), .create (.text "c"),
    .create (.comment "d"), .create (.text "e"), .create (.element "f" []), .append ⟨0⟩ ⟨1⟩,
    .append ⟨0⟩ ⟨2⟩, .append ⟨0⟩ ⟨3⟩, .append ⟨0⟩ ⟨4⟩, .append ⟨2⟩ ⟨5⟩, .append ⟨2⟩ ⟨6⟩]

theorem permits_shelf : ({} : Tree).Permits shelf := by
  refine ⟨trivial, trivial, trivial, trivial, trivial, trivial, trivial,
    ⟨by decide, by decide, ?_⟩, ⟨by decide, by decide, ?_⟩, ⟨by decide, by decide, ?_⟩,
    ⟨by decide +kernel, by decide +kernel, ?_⟩, ⟨by decide +kernel, by decide +kernel, ?_⟩,
    ⟨by decide +kernel, by decide +kernel, ?_⟩, trivial⟩
  -- The first four come under the root, the others under what is under the root.
  · exact not_above_of_parent_none (by decide) (by decide)
  · exact not_above_of_parent_none (by decide) (by decide)
  · exact not_above_of_parent_none (by decide +kernel) (by decide)
  · exact not_above_of_parent_none (by decide +kernel) (by decide)
  · exact not_above_of_parent_some (q := ⟨0⟩) (by decide +kernel) (by decide)
      (not_above_of_parent_none (by decide +kernel) (by decide))
  · exact not_above_of_parent_some (q := ⟨0⟩) (by decide +kernel) (by decide)
      (not_above_of_parent_none (by decide +kernel) (by decide))

theorem wellFormed_shelf : (({} : Tree).edit shelf).WellFormed :=
  (linked_empty.edit permits_shelf).wellFormed

end LiveMarkup.Tree
