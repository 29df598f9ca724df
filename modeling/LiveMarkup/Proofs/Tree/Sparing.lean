import LiveMarkup.Proofs.Tree.Stretch

set_option autoImplicit false

/-!
What a change leaves alone. Nodes may come and go among those that are given up; every other node
stays what it is and where it hangs, and those of its children that stay keep their order.
-/

namespace LiveMarkup

open Branch (labelsOfAll)

namespace Tree

/-- Whether a node is there and not given up. -/
def spared (t : Tree) (gone : List NodeId) (n : NodeId) : Bool := t.contains n && !gone.contains n

/-- From one tree to a later one, nothing has happened to the nodes that are not given up. -/
structure Spares (t t' : Tree) (gone : List NodeId) : Prop where
  live : ∀ n, t.spared gone n = true → t'.contains n = true
  kind : ∀ n, t.spared gone n = true → t'.kind n = t.kind n
  parent : ∀ n, t.spared gone n = true → t'.parent n = t.parent n
  order : ∀ n, t.spared gone n = true →
    (t'.children n).filter (t.spared gone) = (t.children n).filter (t.spared gone)

variable {t t' t'' : Tree} {p : NodeId} {before after gone gone' : List NodeId}
  {f g : List (Branch NodeId)}

theorem spared_iff {n : NodeId} :
    t.spared gone n = true ↔ t.contains n = true ∧ n ∉ gone := by
  simp [spared]

theorem spared_of_subset (h : gone ⊆ gone') {n : NodeId} (hn : t.spared gone' n = true) :
    t.spared gone n = true := by
  rw [spared_iff] at hn ⊢
  exact ⟨hn.1, fun hm => hn.2 (h hm)⟩

/-- Lists that agree on what satisfies a property agree on what satisfies a stronger one. -/
theorem filter_eq_of_imp {l l' : List NodeId} {P Q : NodeId → Bool}
    (h : l.filter Q = l'.filter Q) (hpq : ∀ n, P n = true → Q n = true) :
    l.filter P = l'.filter P := by
  have hboth (l : List NodeId) : (l.filter Q).filter P = l.filter P := by
    rw [List.filter_filter]
    refine List.filter_congr fun n _ => ?_
    cases hp : P n
    · rfl
    · simp [hpq n hp]
  rw [← hboth l, ← hboth l', h]

namespace Spares

theorem refl (t : Tree) (gone : List NodeId) : Spares t t gone where
  live _ hn := (spared_iff.1 hn).1
  kind _ _ := rfl
  parent _ _ := rfl
  order _ _ := rfl

theorem mono (h : Spares t t' gone) (hs : gone ⊆ gone') : Spares t t' gone' where
  live n hn := h.live n (spared_of_subset hs hn)
  kind n hn := h.kind n (spared_of_subset hs hn)
  parent n hn := h.parent n (spared_of_subset hs hn)
  order n hn := filter_eq_of_imp (h.order n (spared_of_subset hs hn)) fun _ => spared_of_subset hs

/-- A tree of the same records. -/
theorem of_core (h : ∀ n, t'.core n = t.core n) : Spares t t' [] where
  live n hn := (contains_of_core (h n)).trans (spared_iff.1 hn).1
  kind n _ := kind_of_core (h n)
  parent n _ := parent_of_core (h n)
  order n _ := by rw [children_of_core (h n)]

/-- What is spared by two changes is spared by the second. -/
theorem spared_next (h : Spares t t' gone) {n : NodeId}
    (hn : t.spared (gone ++ gone') n = true) : t'.spared gone' n = true := by
  refine spared_iff.2 ⟨h.live n (spared_of_subset (List.subset_append_left _ _) hn), fun hm => ?_⟩
  exact (spared_iff.1 hn).2 (List.mem_append_right _ hm)

theorem trans (h : Spares t t' gone) (h' : Spares t' t'' gone') :
    Spares t t'' (gone ++ gone') := by
  have hfirst : gone ⊆ gone ++ gone' := List.subset_append_left _ _
  have hnext (n : NodeId) (hn : t.spared (gone ++ gone') n = true) := h.spared_next hn
  refine ⟨fun n hn => h'.live n (hnext n hn), fun n hn => ?_, fun n hn => ?_, fun n hn => ?_⟩
  · rw [h'.kind n (hnext n hn), h.kind n (spared_of_subset hfirst hn)]
  · rw [h'.parent n (hnext n hn), h.parent n (spared_of_subset hfirst hn)]
  · rw [filter_eq_of_imp (h'.order n (hnext n hn)) hnext]
    exact filter_eq_of_imp (h.order n (spared_of_subset hfirst hn)) fun _ => spared_of_subset hfirst

theorem of_exchange (h : Stretch t p before f after)
    (hx : Exchange t t' p (labelsOfAll f) (labelsOfAll g)) (h' : Stretch t' p before g after) :
    Spares t t' (labelsOfAll f) := by
  have hcore (n : NodeId) (hn : t.spared (labelsOfAll f) n = true) (hp : n ≠ p) :
      t'.core n = t.core n := by
    obtain ⟨hl, hm⟩ := spared_iff.1 hn
    exact hx.core_other n hl hm hp
  refine ⟨fun n hn => ?_, fun n hn => ?_, fun n hn => ?_, fun n hn => ?_⟩
  · exact hx.contains_other (spared_iff.1 hn).1 (spared_iff.1 hn).2
  · by_cases hp : n = p
    · rw [hp, hx.kind_owner]
    · exact kind_of_core (hcore n hn hp)
  · by_cases hp : n = p
    · rw [hp, hx.parent_owner]
    · exact parent_of_core (hcore n hn hp)
  · by_cases hp : n = p
    · -- Neither the roots that were there nor those that came in are spared.
      have hold : (f.map Branch.label).filter (t.spared (labelsOfAll f)) = [] :=
        List.filter_eq_nil_iff.2 fun m hm hs =>
          (spared_iff.1 hs).2 ((Branch.roots_sublist f).mem hm)
      have hnew : (g.map Branch.label).filter (t.spared (labelsOfAll f)) = [] :=
        List.filter_eq_nil_iff.2 fun m hm hs =>
          hx.not_mem_new (spared_iff.1 hs).1 (spared_iff.1 hs).2 ((Branch.roots_sublist g).mem hm)
      rw [hp, h.children, h'.children]
      simp only [List.filter_append, hold, hnew]
    · rw [children_of_core (hcore n hn hp)]

end Spares

end Tree

end LiveMarkup
