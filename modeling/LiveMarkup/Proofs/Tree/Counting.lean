import LiveMarkup.Proofs.Tree.Importing
import LiveMarkup.Proofs.Tree.Removing

set_option autoImplicit false

/-!
The count of changes as a witness. It never goes down, and an operation that leaves it alone leaves
every subtree alone whose root is still there: what is created or freed without being counted hangs
below no node that stays.
-/

namespace LiveMarkup.Tree

variable {t t' : Tree} {id r : NodeId}

/-- The nodes of the subtree at `id` in pre-order, each with its depth, its number and its kind. -/
def rows (t : Tree) (id : NodeId) : List (Nat × NodeId × NodeKind) :=
  ((t.branch id).map fun n => (n, t.kind n)).rows 0

theorem WellFormed.rows_of_core (h : t.WellFormed) (hr : t.contains r = true)
    (hs : ∀ n ∈ t.preorder r, t'.core n = t.core n) : t'.rows r = t.rows r := by
  have hheld := (h.holds_branch hr).of_core hs
  have hbranch := hheld.branch (h.nodup_preorder hr)
  rw [label_branch] at hbranch
  rw [rows, rows, hbranch]
  congr 1
  exact Branch.map_congr fun n hn => by rw [kind_of_core (hs n hn)]

/-- A change was counted, or the records of every subtree whose root is still there are as they
were. -/
def Counted (t t' : Tree) : Prop :=
  t.mutations < t'.mutations ∨ t'.mutations = t.mutations ∧
    ∀ r, t.contains r = true → t'.contains r = true → ∀ n ∈ t.preorder r, t'.core n = t.core n

theorem Counted.refl (t : Tree) : Counted t t := .inr ⟨rfl, fun _ _ _ _ _ => rfl⟩

theorem Counted.le (h : Counted t t') : t.mutations ≤ t'.mutations :=
  h.elim Nat.le_of_lt fun h => Nat.le_of_eq h.1.symm

/-! ## What is counted -/

theorem mutations_create (t : Tree) (kind : NodeKind) :
    (t.create kind).1.mutations = t.mutations := by
  rw [create]
  split <;> rfl

theorem mutations_linkAll (t : Tree) (p : NodeId) (ids : List NodeId) (i : Nat) :
    (t.linkAll p ids i).mutations = t.mutations := by
  induction ids generalizing t i with
  | nil => rfl
  | cons id ids ih => exact ih (t.link p id i) (i + 1)

theorem mutations_release (t : Tree) (stack : List NodeId) :
    (t.release stack).mutations = t.mutations := by
  fun_induction Tree.release t stack with
  | case1 => rfl
  | case2 t id stack below hl ih => exact ih
  | case3 t id stack hl ih => exact ih

/-- A node is not unlinked without being counted. -/
theorem detach_cases (t : Tree) (id : NodeId) :
    t.position id = none ∧ t.detach id = t ∨ (t.detach id).mutations = t.mutations + 1 := by
  rw [detach]
  split
  · exact .inr rfl
  · rename_i hpos
    exact .inl ⟨hpos, rfl⟩

theorem mutations_le_detach (t : Tree) (id : NodeId) : t.mutations ≤ (t.detach id).mutations := by
  rcases t.detach_cases id with ⟨-, hd⟩ | hd
  · exact Nat.le_of_eq (congrArg mutations hd.symm)
  · omega

theorem mutations_le_removeAll (t : Tree) (ids : List NodeId) :
    t.mutations ≤ (t.removeAll ids).mutations := by
  induction ids generalizing t with
  | nil => exact Nat.le_refl _
  | cons id ids ih =>
    refine Nat.le_trans ?_ (ih _)
    rw [remove, mutations_release]
    exact (t.modify id fun n => { n with parent := none }).mutations_le_detach id

/-! ## One operation after the other -/

/-- New nodes hang below no node that was there. -/
theorem Adds.counted {ids : List NodeId} (h : Adds t t' ids) (ht : t.WellFormed)
    (hm : t'.mutations = t.mutations) : Counted t t' := by
  refine .inr ⟨hm, fun r hr _ n hn => h.core n ?_⟩
  exact ((ht.mem_preorder_iff hr).1 hn).1

theorem counted_setKind (t : Tree) (id : NodeId) (kind : NodeKind) :
    Counted t (t.setKind id kind) :=
  .inl (Nat.lt_succ_self t.mutations)

theorem counted_setText (t : Tree) (id : NodeId) (content : String) :
    Counted t (t.setText id content).1 := by
  rw [setText]
  split
  · exact t.counted_setKind id _
  · exact .refl t

theorem counted_setAttribute (t : Tree) (id : NodeId) (name value : String) :
    Counted t (t.setAttribute id name value).1 := by
  rw [setAttribute]
  split
  · exact t.counted_setKind id _
  · exact .refl t

theorem counted_removeAttribute (t : Tree) (id : NodeId) (name : String) :
    Counted t (t.removeAttribute id name).1 := by
  rw [removeAttribute]
  split
  · split
    · exact t.counted_setKind id _
    · exact .refl t
  · exact .refl t

theorem counted_detach (t : Tree) (id : NodeId) : Counted t (t.detach id) := by
  rcases t.detach_cases id with ⟨-, hd⟩ | hd
  · rw [hd]
    exact .refl t
  · exact .inl (by omega)

theorem counted_append (t : Tree) (p id : NodeId) : Counted t (t.append p id) :=
  .inl (Nat.lt_succ_of_le (t.mutations_le_detach id))

theorem counted_insertBefore (t : Tree) (reference id : NodeId) :
    Counted t (t.insertBefore reference id).1 := by
  rw [insertBefore]
  split
  · exact .inl (Nat.lt_succ_of_le (t.mutations_le_detach id))
  · exact t.counted_detach id

theorem counted_moveChildren (t : Tree) (source target : NodeId) (before : Option NodeId) :
    Counted t (t.moveChildren source target before) := by
  simp only [moveChildren]
  split
  · exact .refl t
  · refine .inl (Nat.lt_succ_of_le (Nat.le_of_eq ?_))
    rw [mutations_linkAll]
    rfl

theorem counted_moveChildrenBefore (t : Tree) (source reference : NodeId) :
    Counted t (t.moveChildrenBefore source reference).1 := by
  rw [moveChildrenBefore]
  split
  · exact t.counted_moveChildren source _ _
  · exact .refl t

namespace WellFormed

theorem position_eq_none_iff (h : t.WellFormed) (hl : t.contains id = true) :
    t.position id = none ↔ t.parent id = none := by
  refine ⟨fun hpos => ?_, position_of_parent_none⟩
  cases hup : t.parent id with
  | none => rfl
  | some p =>
    obtain ⟨-, before, -, -, hplace⟩ := h.exists_place hl hup
    cases hpos.symm.trans hplace

/-- A node without parent is freed without being counted, but then no other node stands above it or
above what is freed with it. -/
theorem counted_remove (h : t.WellFormed) (id : NodeId) : Counted t (t.remove id) := by
  rcases t.detach_cases id with ⟨hpos, hd⟩ | hd
  · have hm : (t.remove id).mutations = t.mutations := by rw [remove, mutations_release, hd]
    by_cases hl : t.contains id = true
    · have hup := (h.position_eq_none_iff hl).1 hpos
      have hheld : t.Holds none (t.branch id) := hup ▸ h.holds_branch hl
      have hfrees := frees_remove h.accounted hheld (h.nodup_labels hheld)
      rw [label_branch] at hfrees
      refine .inr ⟨hm, fun r hr hstays n hn => hfrees.core_other n fun hgone => ?_⟩
      have hout : r ∉ t.preorder id := fun hin => by
        rw [contains_core, hfrees.gone r hin] at hstays
        cases hstays
      -- Of two nodes above a third one, one stands above the other.
      rcases Relation.ReflTransGen.total_of_right_unique
        (fun _ _ _ hx hy => Option.some.inj (hx.symm.trans hy))
        ((h.mem_preorder_iff hr).1 hn).2 ((h.mem_preorder_iff hl).1 hgone).2 with habove | habove
      · exact hout ((h.mem_preorder_iff hl).2 ⟨hr, habove⟩)
      · rcases above_iff.1 habove with rfl | ⟨p, hp, -⟩
        · exact hout ((h.mem_preorder_iff hl).2 ⟨hl, .refl⟩)
        · cases hup.symm.trans hp
    · have hsame : t.remove id = t := by simp [remove, hd, release, hl]
      rw [hsame]
      exact .refl t
  · refine .inl ?_
    rw [remove, mutations_release]
    omega

theorem counted_removeRange (h : t.WellFormed) (first stop : NodeId) :
    Counted t (t.removeRange first stop).1 := by
  rw [removeRange]
  split
  · exact .refl t
  · split
    · exact h.counted_remove first
    · rename_i p start hpos
      have hcut (kept doomed : List NodeId) : t.mutations <
          ((t.modify p fun n => { n with children := kept }).touched.removeAll doomed).mutations :=
        mutations_le_removeAll (t.modify p fun n => { n with children := kept }).touched doomed
      exact .inl (hcut _ _)

theorem counted_removeBetween (h : t.WellFormed) (start stop : NodeId) :
    Counted t (t.removeBetween start stop).1 := by
  rw [removeBetween]
  split
  · split
    · exact .refl t
    · exact h.counted_removeRange _ stop
  · exact .refl t

theorem counted_apply (h : t.WellFormed) (e : Edit) : Counted t (e.apply t) := by
  cases e with
  | create kind => exact (h.accounted.create kind).adds.counted h (t.mutations_create kind)
  | append p id => exact t.counted_append p id
  | insertBefore reference id => exact t.counted_insertBefore reference id
  | detach id => exact t.counted_detach id
  | remove id => exact h.counted_remove id
  | removeRange first stop => exact h.counted_removeRange first stop
  | removeBetween start stop => exact h.counted_removeBetween start stop
  | moveChildren source target before => exact t.counted_moveChildren source target before
  | moveChildrenBefore source reference => exact t.counted_moveChildrenBefore source reference
  | setKind id kind => exact t.counted_setKind id kind
  | setText id content => exact t.counted_setText id content
  | setAttribute id name value => exact t.counted_setAttribute id name value
  | removeAttribute id name => exact t.counted_removeAttribute id name
  | importFrom source root =>
    obtain ⟨b, -, hg, -⟩ := h.accounted.grows_graft (source.content root)
    exact hg.toAdds.counted h (t.mutations_graft _)

end WellFormed

/-- No operation takes a counted change back, and one after which the count is the same has left
alone whatever subtree is looked at, if its root is still there. -/
theorem mutations_witness (h : t.WellFormed) (hr : t.contains r = true) (e : Edit)
    (hstays : (e.apply t).contains r = true) :
    t.mutations ≤ (e.apply t).mutations ∧
      ((e.apply t).mutations = t.mutations → (e.apply t).rows r = t.rows r) := by
  have hcounted := h.counted_apply e
  refine ⟨hcounted.le, fun hsame => ?_⟩
  rcases hcounted with hlt | ⟨-, hcore⟩
  · omega
  · exact h.rows_of_core hr (hcore r hr hstays)

/-- A part of the shelf that was taken out of it is freed without being counted. -/
theorem mutations_witness_shelf :
    let t := (({} : Tree).edit shelf).detach ⟨2⟩
    t.WellFormed ∧ t.contains ⟨0⟩ = true ∧ (t.remove ⟨2⟩).contains ⟨0⟩ = true ∧
      (t.remove ⟨2⟩).mutations = t.mutations ∧ (t.remove ⟨2⟩).rows ⟨0⟩ = t.rows ⟨0⟩ := by
  intro t
  have hwell : t.WellFormed :=
    ((linked_empty.edit permits_shelf).detach List.not_mem_nil).1.wellFormed
  have hr : t.contains ⟨0⟩ = true := by decide +kernel
  have hl : t.contains ⟨2⟩ = true := by decide +kernel
  have hup : t.parent ⟨2⟩ = none := by decide +kernel
  have hout : ⟨0⟩ ∉ [⟨2⟩].flatMap t.preorder := by decide +kernel
  have hstays : (t.remove ⟨2⟩).contains ⟨0⟩ = true :=
    ((hwell.removes_remove hl hup).live ⟨0⟩).2 ⟨hr, hout⟩
  have hsame : (t.remove ⟨2⟩).mutations = t.mutations := by
    rw [remove, mutations_release, detach_of_parent_none hup]
  exact ⟨hwell, hr, hstays, hsame, (mutations_witness hwell hr (.remove ⟨2⟩) hstays).2 hsame⟩

end LiveMarkup.Tree
