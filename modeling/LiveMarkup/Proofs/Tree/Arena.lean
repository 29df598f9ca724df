import LiveMarkup.Tree.Remove
import Mathlib.Data.List.Nodup

set_option autoImplicit false

/-!
The arena as a map from numbers to records. Hints are left out of the records, since they decide
nothing; each operation that works on one or two records is described by what it does to the map,
and by keeping the account of free slots and live nodes.
-/

namespace LiveMarkup

/-- The record of a node without its hint. -/
def Node.core (n : Node) : Node := { n with hint := 0 }

/-- The record of a slot that waits to be used again. -/
def Node.dead : Node := { live := false }

namespace Tree

def core (t : Tree) (id : NodeId) : Node := (t.node id).core

/-- The free slots are the dead ones, each once, and the live nodes are counted. -/
structure Accounted (t : Tree) : Prop where
  free_nodup : t.free.Nodup
  mem_free : ∀ id, id ∈ t.free ↔ id.index < t.nodes.size ∧ t.contains id = false
  size_eq : t.size = t.nodes.countP (·.live)

variable {t t' : Tree} {id other : NodeId}

theorem contains_core (t : Tree) (id : NodeId) : t.contains id = (t.core id).live := rfl

theorem kind_core (t : Tree) (id : NodeId) : t.kind id = (t.core id).kind := rfl

theorem parent_core (t : Tree) (id : NodeId) : t.parent id = (t.core id).parent := rfl

theorem children_core (t : Tree) (id : NodeId) : t.children id = (t.core id).children := rfl

theorem kind_of_core (h : t'.core id = t.core id) : t'.kind id = t.kind id := by
  simp only [kind_core, h]

theorem parent_of_core (h : t'.core id = t.core id) : t'.parent id = t.parent id := by
  simp only [parent_core, h]

theorem children_of_core (h : t'.core id = t.core id) : t'.children id = t.children id := by
  simp only [children_core, h]

theorem contains_of_core (h : t'.core id = t.core id) : t'.contains id = t.contains id := by
  simp only [contains_core, h]

theorem ne_of_contains (h : t.contains id = true) (h' : t.contains other = false) : id ≠ other := by
  rintro rfl
  rw [h] at h'
  cases h'

theorem node_of_size_le (t : Tree) (id : NodeId) (h : t.nodes.size ≤ id.index) :
    t.node id = Node.dead := by
  simp [node, Node.dead, Array.getD_eq_getD_getElem?, h]

theorem node_modify (t : Tree) (id other : NodeId) (f : Node → Node) :
    (t.modify id f).node other =
      if other = id ∧ id.index < t.nodes.size then f (t.node id) else t.node other :=
  node_put t id other _

@[simp] theorem size_modify (t : Tree) (id : NodeId) (f : Node → Node) :
    (t.modify id f).nodes.size = t.nodes.size := size_put t id _

theorem core_modify_self (h : t.contains id = true) (f : Node → Node) :
    (t.modify id f).core id = (f (t.node id)).core := by
  simp [core, node_modify, lt_size_of_contains h]

theorem core_modify_of_ne (h : other ≠ id) (f : Node → Node) :
    (t.modify id f).core other = t.core other := by
  simp [core, node_modify, h]

@[simp] theorem core_touched (t : Tree) (id : NodeId) : t.touched.core id = t.core id := rfl

theorem contains_modify (t : Tree) (id other : NodeId) {f : Node → Node}
    (hf : ∀ n, (f n).live = n.live) : (t.modify id f).contains other = t.contains other := by
  simp only [contains, node_modify]
  split
  · rename_i h
    rw [hf, h.1]
  · rfl

theorem countP_put (t : Tree) (id : NodeId) (n : Node) (h : id.index < t.nodes.size) :
    (t.put id n).nodes.countP (·.live) + (if t.contains id then 1 else 0) =
      t.nodes.countP (·.live) + (if n.live then 1 else 0) := by
  have hl : t.contains id = t.nodes[id.index].live := by
    simp [contains, node, Array.getD_eq_getD_getElem?, h]
  have hp : t.nodes[id.index].live = true → 0 < t.nodes.countP (·.live) := fun hl =>
    Array.countP_pos_iff.2 ⟨t.nodes[id.index], Array.getElem_mem h, hl⟩
  simp only [put, Array.setIfInBounds, h, dif_pos, Array.countP_set, hl]
  split
  · rename_i hl
    have := hp hl
    split <;> omega
  · omega

theorem Accounted.modify (h : t.Accounted) (id : NodeId) {f : Node → Node}
    (hf : ∀ n, (f n).live = n.live) : (t.modify id f).Accounted where
  free_nodup := h.free_nodup
  mem_free other := by
    rw [contains_modify t id other hf, size_modify]
    exact h.mem_free other
  size_eq := by
    have hs : (t.modify id f).size = t.size := rfl
    rw [hs, h.size_eq]
    by_cases hi : id.index < t.nodes.size
    · have hc := countP_put t id (f (t.node id)) hi
      have hl : (f (t.node id)).live = t.contains id := hf _
      rw [hl] at hc
      simp only [Tree.modify]
      omega
    · simp [Tree.modify, put, Array.setIfInBounds, hi]

theorem Accounted.touched (h : t.Accounted) : t.touched.Accounted :=
  ⟨h.free_nodup, h.mem_free, h.size_eq⟩

/-- What creation does: one number that named no live node names a new one without links. -/
structure Creates (t t' : Tree) (id : NodeId) (kind : NodeKind) : Prop where
  fresh : t.contains id = false
  core_self : t'.core id = { kind }
  core_other : ∀ n, n ≠ id → t'.core n = t.core n
  accounted : t'.Accounted

theorem Accounted.create (h : t.Accounted) (kind : NodeKind) :
    Creates t (t.create kind).1 (t.create kind).2 kind := by
  unfold Tree.create
  split
  · rename_i id free hfree
    obtain ⟨hi, hdead⟩ := (h.mem_free id).1 (hfree ▸ List.mem_cons_self)
    have hnd : (id :: free).Nodup := hfree ▸ h.free_nodup
    refine ⟨hdead, ?_, ?_, ?_, ?_, ?_⟩
    · change ((t.put id { kind }).node id).core = _
      simp [node_put, hi, Node.core]
    · intro n hn
      change ((t.put id { kind }).node n).core = _
      simp [node_put, hn, Tree.core]
    · exact (List.nodup_cons.1 hnd).2
    · intro n
      change n ∈ free ↔ n.index < (t.put id { kind }).nodes.size ∧
        ((t.put id { kind }).node n).live = false
      have hm : n ∈ id :: free ↔ n.index < t.nodes.size ∧ t.contains n = false :=
        hfree ▸ h.mem_free n
      rw [size_put, node_put]
      by_cases hn : n = id
      · subst hn
        simpa [hi] using (List.nodup_cons.1 hnd).1
      · simpa [hn, contains] using hm
    · have hc := countP_put t id { kind } hi
      have hs := h.size_eq
      simp only [hdead, Bool.false_eq_true, ↓reduceIte] at hc
      change t.size + 1 = (t.put id { kind }).nodes.countP (·.live)
      omega
  · rename_i hfree
    have hnode (n : NodeId) (nodes : Array Node) :
        (nodes.push { kind }).getD n.index { live := false } =
          if n.index = nodes.size then { kind } else nodes.getD n.index { live := false } := by
      simp only [Array.getD_eq_getD_getElem?, Array.getElem?_push]
      split <;> rfl
    refine ⟨?_, ?_, ?_, ?_, ?_, ?_⟩
    · change (t.node ⟨t.nodes.size⟩).live = false
      rw [node_of_size_le t ⟨t.nodes.size⟩ (Nat.le_refl t.nodes.size)]
      rfl
    · change ((t.nodes.push { kind }).getD t.nodes.size { live := false }).core = _
      rw [hnode ⟨t.nodes.size⟩, if_pos rfl]
      rfl
    · intro n hn
      change ((t.nodes.push { kind }).getD n.index { live := false }).core = _
      rw [hnode n, if_neg fun he => hn (by cases n; simp_all)]
      rfl
    · exact hfree ▸ List.nodup_nil
    · intro n
      change n ∈ t.free ↔ n.index < (t.nodes.push { kind }).size ∧
        ((t.nodes.push { kind }).getD n.index { live := false }).live = false
      rw [h.mem_free n, hnode n, Array.size_push]
      by_cases hn : n.index = t.nodes.size
      · simp [hn]
      · simp only [hn, if_false]
        exact ⟨fun hm => ⟨by omega, hm.2⟩, fun hm => ⟨by omega, hm.2⟩⟩
    · change t.size + 1 = (t.nodes.push { kind }).countP (·.live)
      simp [h.size_eq]

theorem core_bury_self (h : t.contains id = true) : (t.bury id).core id = Node.dead := by
  change ((t.put id _).node id).core = _
  simp [node_put, lt_size_of_contains h, Node.core, Node.dead]

theorem core_bury_of_ne (h : other ≠ id) : (t.bury id).core other = t.core other := by
  change ((t.put id _).node other).core = _
  simp [node_put, h, core]

theorem countP_bury_eq (h : t.contains id = true) :
    (t.bury id).nodes.countP (·.live) + 1 = t.nodes.countP (·.live) := by
  have hc := countP_put t id
    { t.node id with live := false, parent := none, kind := .fragment, children := [] }
    (lt_size_of_contains h)
  rw [if_pos h] at hc
  exact hc

theorem Accounted.bury (h : t.Accounted) (hl : t.contains id = true) : (t.bury id).Accounted where
  free_nodup := List.nodup_cons.2 ⟨fun hm => by simp [((h.mem_free id).1 hm).2] at hl, h.free_nodup⟩
  mem_free other := by
    have hi := lt_size_of_contains hl
    have hs : (t.bury id).nodes.size = t.nodes.size := size_put t id _
    have hm : other ∈ (t.bury id).free ↔ other = id ∨ other ∈ t.free := List.mem_cons
    rw [hm, hs, contains_core, h.mem_free other]
    by_cases ho : other = id
    · subst ho
      simp [core_bury_self hl, hi, Node.dead]
    · simp [core_bury_of_ne ho, ho, contains_core]
  size_eq := by
    have hc := countP_bury_eq hl
    have hs := h.size_eq
    change t.size - 1 = _
    omega

end Tree

end LiveMarkup
