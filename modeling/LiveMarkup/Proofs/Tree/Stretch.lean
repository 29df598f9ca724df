import LiveMarkup.Proofs.Tree.Freeing

set_option autoImplicit false

/-!
Stretches of siblings. A stretch is a run of the children of a node with all that is below them; an
exchange puts other branches in its place and touches no record outside. Exchanges compose, and one
that happens somewhere inside a stretch is an exchange of the whole stretch.
-/

namespace LiveMarkup

open Branch (labelsOfAll)

namespace Tree

/-- Between the siblings `before` and `after`, the children of `p` are the roots of `f`. -/
structure Stretch (t : Tree) (p : NodeId) (before : List NodeId) (f : List (Branch NodeId))
    (after : List NodeId) : Prop where
  live : t.contains p = true
  children : t.children p = before ++ f.map Branch.label ++ after
  holds : t.HoldsAll (some p) f
  sides : ∀ x ∈ before ++ after, t.contains x = true ∧ t.parent x = some p
  nodup : (p :: (before ++ after ++ labelsOfAll f)).Nodup

/-- Among the children of `p` and below, the nodes `old` have made place for the nodes `new`, which
were among the old ones or not there at all. -/
structure Exchange (t t' : Tree) (p : NodeId) (old new : List NodeId) : Prop where
  core_owner : t'.core p = { t.core p with children := t'.children p }
  core_other : ∀ n, t.contains n = true → n ∉ old → n ≠ p → t'.core n = t.core n
  fresh : ∀ n ∈ new, n ∈ old ∨ t.contains n = false
  live : ∀ n, t'.contains n = true → n ∈ new ∨ t.contains n = true ∧ n ∉ old
  accounted : t'.Accounted

variable {t t' t'' : Tree} {p : NodeId} {before after old new : List NodeId}
  {f g : List (Branch NodeId)}

namespace Exchange

theorem refl (h : t.Accounted) (p : NodeId) (old : List NodeId) : Exchange t t p old old where
  core_owner := rfl
  core_other _ _ _ _ := rfl
  fresh _ hn := .inl hn
  live n hn := (Classical.em (n ∈ old)).imp id fun ho => ⟨hn, ho⟩
  accounted := h

theorem contains_owner (h : Exchange t t' p old new) : t'.contains p = t.contains p := by
  rw [contains_core, h.core_owner]
  rfl

theorem kind_owner (h : Exchange t t' p old new) : t'.kind p = t.kind p := by
  rw [kind_core, h.core_owner]
  rfl

theorem parent_owner (h : Exchange t t' p old new) : t'.parent p = t.parent p := by
  rw [parent_core, h.core_owner]
  rfl

theorem contains_other (h : Exchange t t' p old new) {n : NodeId} (hl : t.contains n = true)
    (hn : n ∉ old) : t'.contains n = true := by
  by_cases hp : n = p
  · rw [hp, h.contains_owner, ← hp, hl]
  · exact (contains_of_core (h.core_other n hl hn hp)).trans hl

theorem trans {mid : List NodeId} (h : Exchange t t' p old mid) (h' : Exchange t' t'' p mid new) :
    Exchange t t'' p old new where
  core_owner := by rw [h'.core_owner, h.core_owner]
  core_other n hl hn hp := by
    have hm : n ∉ mid := fun hm => (h.fresh n hm).elim hn fun hd => by simp [hd] at hl
    rw [h'.core_other n (h.contains_other hl hn) hm hp, h.core_other n hl hn hp]
  fresh n hn := by
    rcases h'.fresh n hn with hm | hd
    · exact h.fresh n hm
    · by_cases ho : n ∈ old
      · exact .inl ho
      · refine .inr (Bool.eq_false_iff.2 fun hl => ?_)
        rw [h.contains_other hl ho] at hd
        cases hd
  live n hn := by
    rcases h'.live n hn with hm | ⟨hl, hm⟩
    · exact .inl hm
    · exact .inr ((h.live n hl).resolve_left hm)
  accounted := h'.accounted

/-- Nodes that stay where they are keep apart from what comes in. -/
theorem not_mem_new (h : Exchange t t' p old new) {n : NodeId} (hl : t.contains n = true)
    (hn : n ∉ old) : n ∉ new := fun hm =>
  (h.fresh n hm).elim hn fun hd => by simp [hd] at hl

theorem holdsAll (h : Exchange t t' p old new) {up : Option NodeId} (hf : t.HoldsAll up f)
    (ho : ∀ n ∈ labelsOfAll f, n ∉ old) (hp : p ∉ labelsOfAll f) : t'.HoldsAll up f :=
  hf.of_core fun n hn => h.core_other n (hf.contains hn) (ho n hn) fun he => hp (he ▸ hn)

/-- An exchange that is one of a larger set of nodes, the others being kept. -/
theorem widen (h : Exchange t t' p old new) {rest old' new' : List NodeId}
    (hold : ∀ n, n ∈ old' ↔ n ∈ old ∨ n ∈ rest) (hnew : ∀ n, n ∈ new' ↔ n ∈ new ∨ n ∈ rest) :
    Exchange t t' p old' new' where
  core_owner := h.core_owner
  core_other n hl hn hp := h.core_other n hl (fun ho => hn ((hold n).2 (.inl ho))) hp
  fresh n hn := by
    rcases (hnew n).1 hn with hn | hr
    · exact (h.fresh n hn).imp (fun ho => (hold n).2 (.inl ho)) id
    · exact .inl ((hold n).2 (.inr hr))
  live n hn := by
    by_cases hr : n ∈ rest
    · exact .inl ((hnew n).2 (.inr hr))
    · rcases h.live n hn with hn | ⟨hl, ho⟩
      · exact .inl ((hnew n).2 (.inl hn))
      · exact .inr ⟨hl, fun hm => ((hold n).1 hm).elim ho hr⟩
  accounted := h.accounted

/-- An exchange below a node that is itself exchanged. -/
theorem lift {q : NodeId} (h : Exchange t t' q old new) (hp : t.contains p = true) (hpq : p ≠ q)
    (ho : p ∉ old) {old' new' : List NodeId} (hold : ∀ n, n ∈ old' ↔ n = q ∨ n ∈ old)
    (hnew : ∀ n, n ∈ new' ↔ n = q ∨ n ∈ new) : Exchange t t' p old' new' where
  core_owner := by rw [children_of_core (h.core_other p hp ho hpq), h.core_other p hp ho hpq]; rfl
  core_other n hl hn _ := by
    rw [hold, not_or] at hn
    exact h.core_other n hl hn.2 hn.1
  fresh n hn := by
    rcases (hnew n).1 hn with rfl | hn
    · exact .inl ((hold n).2 (.inl rfl))
    · exact (h.fresh n hn).imp (fun ho => (hold n).2 (.inr ho)) id
  live n hn := by
    by_cases hq : n = q
    · exact .inl ((hnew n).2 (.inl hq))
    · rcases h.live n hn with hn | ⟨hl, ho⟩
      · exact .inl ((hnew n).2 (.inr hn))
      · exact .inr ⟨hl, fun hm => ((hold n).1 hm).elim hq ho⟩
  accounted := h.accounted

end Exchange

namespace Stretch

theorem nodup_children (h : Stretch t p before f after) : (t.children p).Nodup := by
  have hn := (List.nodup_cons.1 h.nodup).2
  obtain ⟨hs, hf, hd⟩ := List.nodup_append.1 hn
  obtain ⟨hb, ha, hba⟩ := List.nodup_append.1 hs
  have hr := (Branch.roots_sublist f).nodup hf
  rw [h.children]
  refine List.nodup_append.2 ⟨List.nodup_append.2 ⟨hb, hr, ?_⟩, ha, ?_⟩
  · intro x hx y hy
    exact hd x (List.mem_append_left _ hx) y ((Branch.roots_sublist f).mem hy)
  · intro x hx y hy
    rcases List.mem_append.1 hx with hx | hx
    · exact hba x hx y hy
    · exact (hd y (List.mem_append_right _ hy) x ((Branch.roots_sublist f).mem hx)).symm

theorem nodup_labels (h : Stretch t p before f after) : (labelsOfAll f).Nodup :=
  (List.nodup_append.1 (List.nodup_cons.1 h.nodup).2).2.1

theorem owner_not_mem (h : Stretch t p before f after) : p ∉ labelsOfAll f := fun hm =>
  (List.nodup_cons.1 h.nodup).1 (List.mem_append_right _ hm)

theorem side_not_mem (h : Stretch t p before f after) {x : NodeId} (hx : x ∈ before ++ after) :
    x ∉ labelsOfAll f := fun hm =>
  (List.nodup_append.1 (List.nodup_cons.1 h.nodup).2).2.2 x hx x hm rfl

theorem side_ne_owner (h : Stretch t p before f after) {x : NodeId} (hx : x ∈ before ++ after) :
    x ≠ p := fun he =>
  (List.nodup_cons.1 h.nodup).1 (List.mem_append_left _ (he ▸ hx))

/-- What an exchange has to put in place for there to be a stretch again. -/
theorem of_exchange (h : Stretch t p before f after)
    (hx : Exchange t t' p (labelsOfAll f) (labelsOfAll g))
    (hc : t'.children p = before ++ g.map Branch.label ++ after) (hg : t'.HoldsAll (some p) g)
    (hn : (labelsOfAll g).Nodup) : Stretch t' p before g after where
  live := hx.contains_owner.trans h.live
  children := hc
  holds := hg
  sides x hm := by
    have hs := h.sides x hm
    have hcore := hx.core_other x hs.1 (h.side_not_mem hm) (h.side_ne_owner hm)
    exact ⟨(contains_of_core hcore).trans hs.1, (parent_of_core hcore).trans hs.2⟩
  nodup := by
    obtain ⟨hp, hrest⟩ := List.nodup_cons.1 h.nodup
    obtain ⟨hs, _, _⟩ := List.nodup_append.1 hrest
    refine List.nodup_cons.2 ⟨?_, List.nodup_append.2 ⟨hs, hn, ?_⟩⟩
    · intro hm
      rcases List.mem_append.1 hm with hm | hm
      · exact hp (List.mem_append_left _ hm)
      · exact hx.not_mem_new h.live h.owner_not_mem hm
    · rintro x hm y hy rfl
      exact hx.not_mem_new (h.sides x hm).1 (h.side_not_mem hm) hy

end Stretch

end Tree

/-- A place inside a list of branches where other branches can be put. -/
inductive Place (α : Type) where
  | here (left right : List (Branch α))
  | inside (left : List (Branch α)) (a : α) (inner : Place α) (right : List (Branch α))

namespace Place

variable {α : Type}

def fill (f : List (Branch α)) : Place α → List (Branch α)
  | .here left right => left ++ f ++ right
  | .inside left a inner right => left ++ .node a (inner.fill f) :: right

/-- The node whose children the place is among, in a list of children of `p`. -/
def owner : Place α → α → α
  | .here _ _, p => p
  | .inside _ a inner _, _ => inner.owner a

/-- The siblings before the place. -/
def before : Place α → List α → List α
  | .here left _, siblings => siblings ++ left.map Branch.label
  | .inside _ _ inner _, _ => inner.before []

/-- The siblings after the place. -/
def after : Place α → List α → List α
  | .here _ right, siblings => right.map Branch.label ++ siblings
  | .inside _ _ inner _, _ => inner.after []

end Place

namespace Tree

variable {t t' : Tree} {p : NodeId} {before after : List NodeId} {f g : List (Branch NodeId)}

theorem Stretch.narrow {left right : List (Branch NodeId)}
    (h : Stretch t p before (left ++ f ++ right) after) :
    Stretch t p (before ++ left.map Branch.label) f (right.map Branch.label ++ after) where
  live := h.live
  children := by simp [h.children]
  holds := (holdsAll_append.1 (holdsAll_append.1 h.holds).1).2
  sides x hx := by
    have hh := h.holds
    rw [holdsAll_append, holdsAll_append] at hh
    have hroot {gs : List (Branch NodeId)} (hg : t.HoldsAll (some p) gs)
        (hm : x ∈ gs.map Branch.label) : t.contains x = true ∧ t.parent x = some p :=
      ⟨hg.contains ((Branch.roots_sublist gs).mem hm), hg.parent_root hm⟩
    simp only [List.mem_append] at hx
    rcases hx with (hx | hx) | (hx | hx)
    · exact h.sides x (List.mem_append_left _ hx)
    · exact hroot hh.1.1 hx
    · exact hroot hh.2 hx
    · exact h.sides x (List.mem_append_right _ hx)
  nodup := by
    have hsub : List.Sublist
        (p :: (before ++ left.map Branch.label ++ (right.map Branch.label ++ after) ++
          labelsOfAll f))
        (p :: (before ++ labelsOfAll left ++ (labelsOfAll right ++ after) ++ labelsOfAll f)) :=
      ((((List.Sublist.refl before).append (Branch.roots_sublist left)).append
        ((Branch.roots_sublist right).append (.refl after))).append (.refl _)).cons_cons p
    refine hsub.nodup ((List.Perm.nodup_iff ?_).1 h.nodup)
    refine List.Perm.cons p (List.perm_iff_count.2 fun n => ?_)
    simp only [Branch.labelsOfAll_append, List.count_append]
    omega

/-- A stretch of the children of a node of a stretch. -/
theorem Stretch.children_of {left right kids : List (Branch NodeId)} {n : NodeId}
    (h : Stretch t p before (left ++ .node n kids :: right) after) : Stretch t n [] kids [] := by
  have hh := h.holds
  rw [holdsAll_append, holdsAll_cons, holds_node] at hh
  have hn := h.nodup_labels
  rw [Branch.labelsOfAll_append, Branch.labelsOfAll_cons, Branch.labels_node] at hn
  have hk := (List.nodup_append.1 (List.nodup_append.1 hn).2.1).1
  refine ⟨hh.2.1.1, by simpa using hh.2.1.2.2.1, hh.2.1.2.2.2, by simp, by simpa using hk⟩

theorem Stretch.inner {place : Place NodeId}
    (h : Stretch t p before (place.fill f) after) :
    Stretch t (place.owner p) (place.before before) f (place.after after) := by
  induction place generalizing p before after with
  | here left right => exact h.narrow
  | inside left n inner right ih => exact ih h.children_of

theorem Stretch.widen {left right : List (Branch NodeId)}
    (h : Stretch t p before (left ++ f ++ right) after)
    (hx : Exchange t t' p (labelsOfAll f) (labelsOfAll g))
    (hg : Stretch t' p (before ++ left.map Branch.label) g (right.map Branch.label ++ after)) :
    Exchange t t' p (labelsOfAll (left ++ f ++ right)) (labelsOfAll (left ++ g ++ right)) ∧
      Stretch t' p before (left ++ g ++ right) after := by
  have hh := h.holds
  have hn := h.nodup_labels
  have hp := h.owner_not_mem
  simp only [holdsAll_append] at hh
  simp only [Branch.labelsOfAll_append, List.nodup_append, List.mem_append, not_or] at hn hp
  obtain ⟨⟨hl, _⟩, hr⟩ := hh
  obtain ⟨⟨hnl, _, hlf⟩, hnr, hlr⟩ := hn
  have hleft {n : NodeId} (hm : n ∈ labelsOfAll left) : n ∉ labelsOfAll f := fun hf =>
    hlf n hm n hf rfl
  have hright {n : NodeId} (hm : n ∈ labelsOfAll right) : n ∉ labelsOfAll f := fun hf =>
    hlr n (.inr hf) n hm rfl
  have hwide : Exchange t t' p (labelsOfAll (left ++ f ++ right))
      (labelsOfAll (left ++ g ++ right)) := by
    have hmem (k : List (Branch NodeId)) (n : NodeId) : n ∈ labelsOfAll (left ++ k ++ right) ↔
        n ∈ labelsOfAll k ∨ n ∈ labelsOfAll left ++ labelsOfAll right := by
      simp only [Branch.labelsOfAll_append, List.mem_append]
      tauto
    exact hx.widen (hmem f) (hmem g)
  refine ⟨hwide, h.of_exchange hwide (by simp [hg.children]) ?_ ?_⟩
  · simp only [holdsAll_append]
    exact ⟨⟨hx.holdsAll hl (fun _ => hleft) hp.1.1, hg.holds⟩,
      hx.holdsAll hr (fun _ => hright) hp.2⟩
  · simp only [Branch.labelsOfAll_append, List.nodup_append, List.mem_append]
    refine ⟨⟨hnl, hg.nodup_labels, ?_⟩, hnr, ?_⟩
    · rintro n hm _ hk rfl
      exact hx.not_mem_new (hl.contains hm) (hleft hm) hk
    · rintro n (hm | hk) _ hm' rfl
      · exact hlr n (.inl hm) n hm' rfl
      · exact hx.not_mem_new (hr.contains hm') (hright hm') hk

/-- The children of a node of a stretch are exchanged. -/
theorem Stretch.exchange_children {left right kids kids' : List (Branch NodeId)} {n : NodeId}
    (h : Stretch t p before (left ++ .node n kids :: right) after)
    (hx : Exchange t t' n (labelsOfAll kids) (labelsOfAll kids'))
    (hk : Stretch t' n [] kids' []) :
    Exchange t t' p (labelsOfAll (left ++ .node n kids :: right))
        (labelsOfAll (left ++ .node n kids' :: right)) ∧
      Stretch t' p before (left ++ .node n kids' :: right) after := by
  have hmid : Stretch t p (before ++ left.map Branch.label) [.node n kids]
      (right.map Branch.label ++ after) := by
    refine Stretch.narrow (h := ?_)
    simpa using h
  have hp := hmid.owner_not_mem
  have hn := hmid.nodup_labels
  simp only [Branch.labelsOfAll_cons, Branch.labels_node, Branch.labelsOfAll_nil, List.append_nil,
    List.mem_cons, not_or, List.nodup_cons] at hp hn
  have hlift : Exchange t t' p (labelsOfAll [.node n kids]) (labelsOfAll [.node n kids']) := by
    refine hx.lift h.live hp.1 hp.2 ?_ ?_ <;> simp
  have hcore := hx.core_other p h.live hp.2 hp.1
  have hheld := (holdsAll_cons.1 hmid.holds).1
  have hmid' : Stretch t' p (before ++ left.map Branch.label) [.node n kids']
      (right.map Branch.label ++ after) := by
    refine hmid.of_exchange hlift ?_ ?_ ?_
    · rw [children_of_core hcore, hmid.children]
      rfl
    · rw [holdsAll_cons, holds_node]
      refine ⟨⟨hk.live, ?_, by simpa using hk.children, hk.holds⟩, trivial⟩
      rw [hx.parent_owner]
      exact hheld.2.1
    · have hnew := hk.nodup
      simpa using hnew
  have hwhole : Stretch t p before (left ++ [.node n kids] ++ right) after := by simpa using h
  simpa using hwhole.widen hlift hmid'

/-- An exchange at a place inside a stretch is one of the stretch. -/
theorem Stretch.outer {place : Place NodeId} (h : Stretch t p before (place.fill f) after)
    (hx : Exchange t t' (place.owner p) (labelsOfAll f) (labelsOfAll g))
    (hg : Stretch t' (place.owner p) (place.before before) g (place.after after)) :
    Exchange t t' p (labelsOfAll (place.fill f)) (labelsOfAll (place.fill g)) ∧
      Stretch t' p before (place.fill g) after := by
  induction place generalizing p before after with
  | here left right => exact h.widen hx hg
  | inside left n inner right ih =>
    obtain ⟨hx', hg'⟩ := ih h.children_of hx hg
    exact h.exchange_children hx' hg'

end Tree

end LiveMarkup
