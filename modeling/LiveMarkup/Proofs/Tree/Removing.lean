import LiveMarkup.Proofs.Tree.Subtree
import Mathlib.Data.List.TakeWhile

set_option autoImplicit false

/-!
Removing a run of siblings. Exactly the nodes of their subtrees are freed; every other node stays
what it is and where it hangs, and the siblings that stay keep their order.
-/

namespace LiveMarkup.Tree

open Branch (labelsOfAll)

variable {t t' : Tree} {p first stop : NodeId} {roots before between after : List NodeId}

/-- A node and its following siblings up to, not including, `stop`, or to the last one where `stop`
is none of them; without a parent the node only. -/
def siblingsFrom (t : Tree) (first stop : NodeId) : List NodeId :=
  match t.parent first with
  | none => [first]
  | some p => ((t.children p).dropWhile (· != first)).takeWhile (· != stop)

/-- What removing the subtrees of some nodes does. -/
structure Removes (t t' : Tree) (roots : List NodeId) : Prop where
  /-- Exactly the nodes of the subtrees are freed. -/
  live : ∀ n, t'.contains n = true ↔ t.contains n = true ∧ n ∉ roots.flatMap t.preorder
  nodup : (roots.flatMap t.preorder).Nodup
  /-- As many nodes fewer are counted. -/
  size : t'.size + (roots.flatMap t.preorder).length = t.size
  kind : ∀ n, t'.contains n = true → t'.kind n = t.kind n
  parent : ∀ n, t'.contains n = true → t'.parent n = t.parent n
  /-- The children that stay keep their order. -/
  children : ∀ n, t'.contains n = true → t'.children n = (t.children n).filter t'.contains
  wellFormed : t'.WellFormed

theorem mem_flatMap_preorder (h : t.WellFormed) (hl : ∀ r ∈ roots, t.contains r = true)
    {n : NodeId} : n ∈ roots.flatMap t.preorder ↔
      t.contains n = true ∧ ∃ r ∈ roots, t.Above r n := by
  rw [List.mem_flatMap]
  constructor
  · rintro ⟨r, hr, hn⟩
    obtain ⟨hln, habove⟩ := (h.mem_preorder_iff (hl r hr)).1 hn
    exact ⟨hln, r, hr, habove⟩
  · rintro ⟨hln, r, hr, habove⟩
    exact ⟨r, hr, (h.mem_preorder_iff (hl r hr)).2 ⟨hln, habove⟩⟩

/-- Of the children of a node that stays exactly those go that are removed themselves. -/
theorem mem_flatMap_of_mem_children (h : t.WellFormed) (hl : ∀ r ∈ roots, t.contains r = true)
    {n c : NodeId} (hn : t.contains n = true) (hstays : n ∉ roots.flatMap t.preorder)
    (hc : c ∈ t.children n) : c ∈ roots.flatMap t.preorder ↔ c ∈ roots := by
  obtain ⟨hlc, hup⟩ := h.owned n c hn hc
  rw [mem_flatMap_preorder h hl] at hstays ⊢
  constructor
  · rintro ⟨-, r, hr, habove⟩
    rcases above_iff.1 habove with rfl | ⟨q, hq, habove⟩
    · exact hr
    · obtain rfl := Option.some.inj (hup.symm.trans hq)
      exact absurd ⟨hn, r, hr, habove⟩ hstays
  · exact fun hr => ⟨hlc, c, hr, .refl⟩

theorem Removes.of_core (h : t.WellFormed) (hl : ∀ r ∈ roots, t.contains r = true)
    (hnd : (roots.flatMap t.preorder).Nodup)
    (hgone : ∀ n ∈ roots.flatMap t.preorder, t'.core n = Node.dead)
    (hdead : ∀ n, t.contains n = false → t'.core n = t.core n)
    (hstays : ∀ n ∉ roots.flatMap t.preorder, t.contains n = true →
      t'.core n = { t.core n with children := (t.children n).filter (· ∉ roots) })
    (ha : t'.Accounted) : Removes t t' roots := by
  have hlive (n : NodeId) :
      t'.contains n = true ↔ t.contains n = true ∧ n ∉ roots.flatMap t.preorder := by
    by_cases hg : n ∈ roots.flatMap t.preorder
    · simp [contains_core t', hgone n hg, hg, Node.dead]
    by_cases hn : t.contains n = true
    · rw [contains_core, hstays n hg hn]
      simpa [hg] using Eq.symm (contains_core t n)
    · simp [contains_of_core (hdead n (Bool.not_eq_true _ ▸ hn)), hg]
  have hkind {n : NodeId} (hn : t'.contains n = true) : t'.kind n = t.kind n := by
    rw [kind_core, hstays n ((hlive n).1 hn).2 ((hlive n).1 hn).1]
    rfl
  have hparent {n : NodeId} (hn : t'.contains n = true) : t'.parent n = t.parent n := by
    rw [parent_core, hstays n ((hlive n).1 hn).2 ((hlive n).1 hn).1]
    rfl
  have hchildren {n : NodeId} (hn : t'.contains n = true) :
      t'.children n = (t.children n).filter t'.contains := by
    obtain ⟨hold, hg⟩ := (hlive n).1 hn
    rw [children_core, hstays n hg hold]
    refine List.filter_congr fun c hc => ?_
    have hiff := mem_flatMap_of_mem_children h hl hold hg hc
    rw [Bool.eq_iff_iff, decide_eq_true_iff, hlive, hiff]
    exact ⟨fun hr => ⟨(h.owned n c hold hc).1, hr⟩, And.right⟩
  have hup (n q : NodeId) (hq : t'.parent n = some q) : t.parent n = some q := by
    by_cases hn : t'.contains n = true
    · rwa [hparent hn] at hq
    by_cases hold : t.contains n = true
    · have hg : n ∈ roots.flatMap t.preorder := by
        by_contra hg
        exact hn ((hlive n).2 ⟨hold, hg⟩)
      rw [parent_core, hgone n hg] at hq
      cases hq
    · rwa [parent_of_core (hdead n (Bool.not_eq_true _ ▸ hold))] at hq
  refine ⟨hlive, hnd, ?_, fun n => hkind, fun n => hparent, fun n => hchildren, ⟨fun n q hn hq => ?_,
    fun q n hq hm => ?_, grounded_of_imp h.grounded hup, ha.free_nodup,
    fun n => by rw [ha.mem_free, Bool.not_eq_true], ha.size_eq⟩⟩
  · -- The live nodes from before are those that still live and those that are gone.
    obtain ⟨ids, hn, hids, hsize⟩ := ha.exists_live
    have hnodup : (ids ++ roots.flatMap t.preorder).Nodup := by
      refine List.nodup_append.2 ⟨hn, hnd, ?_⟩
      rintro n hm _ hg rfl
      exact ((hlive n).1 ((hids n).1 hm)).2 hg
    have hall (n : NodeId) : n ∈ ids ++ roots.flatMap t.preorder ↔ t.contains n = true := by
      rw [List.mem_append, hids, hlive]
      by_cases hg : n ∈ roots.flatMap t.preorder
      · simp [hg, ((mem_flatMap_preorder h hl).1 hg).1]
      · simp [hg]
    rw [h.accounted.size_eq_length hnodup hall, hsize, List.length_append]
  · obtain ⟨hold, hg⟩ := (hlive n).1 hn
    rw [hparent hn] at hq
    obtain ⟨hlq, hcount⟩ := h.listed n q hold hq
    have hlq' : t'.contains q = true := by
      refine (hlive q).2 ⟨hlq, fun hgq => hg ?_⟩
      obtain ⟨-, r, hr, habove⟩ := (mem_flatMap_preorder h hl).1 hgq
      exact (mem_flatMap_preorder h hl).2 ⟨hold, r, hr, .head hq habove⟩
    rw [hchildren hlq', List.count_filter hn]
    exact ⟨hlq', hcount⟩
  · rw [hchildren hq, List.mem_filter] at hm
    rw [hparent hm.2]
    exact ⟨hm.2, (h.owned q n ((hlive q).1 hq).1 hm.1).2⟩

theorem labelsOfAll_map_branch (t : Tree) (ids : List NodeId) :
    labelsOfAll (ids.map t.branch) = ids.flatMap t.preorder := by
  induction ids with
  | nil => rfl
  | cons id ids ih => simp [ih, preorder]

/-- Taking a run of different things out leaves what is before and after it. -/
theorem filter_not_mem {xs : List NodeId} (hn : xs.Nodup) (hx : xs = before ++ roots ++ after) :
    xs.filter (· ∉ roots) = before ++ after := by
  subst hx
  rw [List.nodup_append, List.nodup_append] at hn
  obtain ⟨⟨-, -, hbr⟩, -, hra⟩ := hn
  have hbefore : before.filter (· ∉ roots) = before :=
    List.filter_eq_self.2 fun x hx => decide_eq_true fun hr => hbr x hx x hr rfl
  have hroots : roots.filter (· ∉ roots) = [] :=
    List.filter_eq_nil_iff.2 fun x hx => by simpa using hx
  have hafter : after.filter (· ∉ roots) = after :=
    List.filter_eq_self.2 fun x hx =>
      decide_eq_true fun hr => hra x (List.mem_append_right _ hr) x hx rfl
  rw [List.filter_append, List.filter_append, hbefore, hroots, hafter, List.append_nil]

/-- A live node without a parent is removed with its subtree. -/
theorem WellFormed.removes_remove (h : t.WellFormed) (hl : t.contains first = true)
    (hup : t.parent first = none) : Removes t (t.remove first) [first] := by
  have hroots : ∀ r ∈ [first], t.contains r = true := by simpa using hl
  have hheld : t.Holds none (t.branch first) := hup ▸ h.holds_branch hl
  have hfrees := frees_remove h.accounted hheld (h.nodup_labels hheld)
  rw [label_branch] at hfrees
  have hgone : [first].flatMap t.preorder = (t.branch first).labels := by simp [preorder]
  refine .of_core h hroots (hgone ▸ h.nodup_labels hheld) (hgone ▸ hfrees.gone)
    (fun n hn => hfrees.core_other n fun hm => by simp [hheld.contains hm] at hn)
    (fun n hn hln => ?_) hfrees.accounted
  rw [hfrees.core_other n (hgone ▸ hn)]
  have hkept : (t.children n).filter (· ∉ [first]) = t.children n := by
    refine List.filter_eq_self.2 fun c hc => ?_
    have hupc := (h.owned n c hln hc).2
    have hne : c ≠ first := by
      rintro rfl
      simp [hup] at hupc
    simpa using hne
  rw [hkept]
  rfl

/-- A run of children is taken out of the list of a live node and removed. -/
theorem WellFormed.removes_removeAll (h : t.WellFormed) (hp : t.contains p = true)
    (hc : t.children p = before ++ roots ++ after) :
    Removes t ((t.modify p fun n => { n with children := before ++ after }).touched.removeAll roots)
      roots := by
  have hmem {r : NodeId} (hr : r ∈ roots) : r ∈ t.children p := by simp [hc, hr]
  have hl (r : NodeId) (hr : r ∈ roots) := (h.owned p r hp (hmem hr)).1
  have hnc := h.nodup_children hp
  have hnr : roots.Nodup := by
    rw [hc] at hnc
    exact (List.nodup_append.1 (List.nodup_append.1 hnc).1).2.1
  have hheld : t.HoldsAll (some p) (roots.map t.branch) := by
    refine holdsAll_iff.2 fun b hb => ?_
    obtain ⟨r, hr, rfl⟩ := List.mem_map.1 hb
    rw [← (h.owned p r hp (hmem hr)).2]
    exact h.holds_branch (hl r hr)
  have hgone := t.labelsOfAll_map_branch roots
  have hnd : (labelsOfAll (roots.map t.branch)).Nodup :=
    h.nodup_labelsOfAll hheld (by simpa [Function.comp_def] using hnr)
  have howner : p ∉ labelsOfAll (roots.map t.branch) := by
    rw [hgone, mem_flatMap_preorder h hl]
    rintro ⟨-, r, hr, habove⟩
    exact h.not_ancestor_self r ⟨p, (h.owned p r hp (hmem hr)).2, habove⟩
  obtain ⟨u, hu⟩ : ∃ u, u = (t.modify p fun n => { n with children := before ++ after }).touched :=
    ⟨_, rfl⟩
  have hself : u.core p = { t.core p with children := before ++ after } := by
    rw [hu, core_touched, core_modify_self hp]
    rfl
  have hother (n : NodeId) (hn : n ≠ p) : u.core n = t.core n := by
    rw [hu, core_touched, core_modify_of_ne hn]
  have hau : u.Accounted := by
    have hlive : ∀ n : Node, ({ n with children := before ++ after } : Node).live = n.live :=
      fun _ => rfl
    exact hu ▸ (h.accounted.modify p hlive).touched
  have hfrees := frees_removeAll hau
    (hheld.of_core fun n hn => hother n fun he => howner (he ▸ hn)) hnd
  rw [map_label_branch, hgone] at hfrees
  rw [hgone] at hnd howner
  rw [← hu]
  refine .of_core h hl hnd hfrees.gone (fun n hn => ?_) (fun n hn hln => ?_) hfrees.accounted
  · rw [hfrees.core_other n fun hm => ?_, hother n ?_]
    · rintro rfl
      simp [hp] at hn
    · simp [((mem_flatMap_preorder h hl).1 hm).1] at hn
  · rw [hfrees.core_other n hn]
    by_cases hnp : n = p
    · rw [hnp, hself, filter_not_mem hnc hc]
    · have hkept : (t.children n).filter (· ∉ roots) = t.children n := by
        refine List.filter_eq_self.2 fun c hcn => decide_eq_true fun hr => hnp ?_
        have hup := (h.owned n c hln hcn).2
        exact Option.some.inj (hup.symm.trans (h.owned p c hp (hmem hr)).2)
      rw [hother n hnp, hkept]
      rfl

theorem getElem?_of_position {i : Nat} (h : t.position first = some (p, i)) :
    (t.children p)[i]? = some first := by
  unfold position at h
  split at h
  · cases h
  · obtain ⟨j, hj, he⟩ := Option.map_eq_some_iff.1 h
    cases he
    exact getElem?_of_indexOutward hj

theorem siblingsFrom_of_children {rest : List NodeId} (hup : t.parent first = some p)
    (hc : t.children p = before ++ first :: rest) (hn : (t.children p).Nodup) :
    t.siblingsFrom first stop = (first :: rest).takeWhile (· != stop) := by
  have hbefore : ∀ x ∈ before, x != first := fun x hx => by
    rw [hc] at hn
    simpa using (List.nodup_append.1 hn).2.2 x hx first List.mem_cons_self
  simp only [siblingsFrom, hup, hc, List.dropWhile_append_of_pos hbefore]
  rw [List.dropWhile_cons_of_neg (by simp)]

/-- A node that is not in the rest of a list of children stands in front of it. -/
theorem lt_of_position {i : Nat} (h : t.position stop = some (p, i))
    (hc : t.children p = before ++ after) (hs : stop ∉ after) : i < before.length := by
  have hat := getElem?_of_position h
  by_contra hi
  rw [hc, List.getElem?_append_right (Nat.le_of_not_lt hi)] at hat
  exact hs (List.mem_of_getElem? hat)

theorem cut_run {xs run : List NodeId} (h : xs = before ++ run ++ after) :
    xs.take before.length = before ∧
      (xs.take (before ++ run).length).drop before.length = run ∧
      xs.drop (before ++ run).length = after := by
  subst h
  refine ⟨?_, ?_, List.drop_left⟩
  · rw [List.append_assoc, List.take_left]
  · rw [List.take_left, List.drop_left]

/-- A range is a run of siblings that begins with its first node, and what is removed is that run. -/
theorem WellFormed.exists_cut (h : t.WellFormed) (hl : t.contains first = true)
    (hup : t.parent first = some p) (hne : first ≠ stop) : ∃ before after,
      t.children p = before ++ t.siblingsFrom first stop ++ after ∧
      t.removeRange first stop =
        ((t.modify p fun n => { n with children := before ++ after }).touched.removeAll
          (t.siblingsFrom first stop), (t.siblingsFrom first stop).length) := by
  obtain ⟨hp, before, rest, hc, hpos⟩ := h.exists_place hl hup
  have hnc := h.nodup_children hp
  obtain ⟨run, hrun⟩ : ∃ run, run = (first :: rest).takeWhile (· != stop) := ⟨_, rfl⟩
  obtain ⟨after, hafter⟩ : ∃ after, after = (first :: rest).dropWhile (· != stop) := ⟨_, rfl⟩
  have hfrom : t.siblingsFrom first stop = run :=
    (siblingsFrom_of_children hup hc hnc).trans hrun.symm
  have hc' : t.children p = before ++ run ++ after := by
    rw [hc, hrun, hafter, List.append_assoc, List.takeWhile_append_dropWhile]
  have hlt : before.length < (before ++ run).length := by
    simp [hrun, hne]
  obtain ⟨htake, hrange, hdrop⟩ := cut_run hc'
  refine ⟨before, after, hfrom ▸ hc', ?_⟩
  simp only [hfrom, removeRange, hne, if_false, hpos]
  -- The run ends in front of `stop` where that is a later sibling, else with the list.
  cases after with
  | nil =>
    have hlength : (t.children p).length = (before ++ run).length := by
      rw [hc', List.append_nil]
    have hnone : stop ∉ first :: rest := fun hm => by
      simpa using List.dropWhile_eq_nil_iff.1 hafter.symm stop hm
    cases hstop : t.position stop with
    | none => simp only [hlength, htake, hrange, hdrop]
    | some place =>
      obtain ⟨q, i⟩ := place
      have hearlier : ¬ (q = p ∧ before.length < i) := by
        rintro ⟨rfl, hi⟩
        exact Nat.lt_asymm hi (lt_of_position hstop hc hnone)
      simp only [hearlier, if_false, hlength, htake, hrange, hdrop]
  | cons a after =>
    obtain rfl : a = stop := by
      have hhead := List.head?_dropWhile_not (· != stop) (first :: rest)
      rw [← hafter] at hhead
      simpa using hhead
    have hm : a ∈ t.children p := by simp [hc']
    have hstop := position_of_children (h.owned p a hp hm).2 hc' hnc
    simp only [hstop, true_and, hlt, if_true, htake, hrange, hdrop]

theorem WellFormed.removes_refl (h : t.WellFormed) : Removes t t [] where
  live := by simp
  nodup := by simp
  size := by simp
  kind _ _ := rfl
  parent _ _ := rfl
  children n hn := (List.filter_eq_self.2 fun c hc => (h.owned n c hn hc).1).symm
  wellFormed := h

/-- What a range of two different nodes takes out. -/
theorem WellFormed.removes_removeRange (h : t.WellFormed) (hl : t.contains first = true)
    (hne : first ≠ stop) : (t.removeRange first stop).2 = (t.siblingsFrom first stop).length ∧
      Removes t (t.removeRange first stop).1 (t.siblingsFrom first stop) := by
  cases hup : t.parent first with
  | none =>
    have hfrom : t.siblingsFrom first stop = [first] := by simp only [siblingsFrom, hup]
    rw [hfrom, removeRange, if_neg hne, position_of_parent_none hup]
    exact ⟨rfl, h.removes_remove hl hup⟩
  | some p =>
    obtain ⟨before, after, hc, hcut⟩ := h.exists_cut hl hup hne
    rw [hcut]
    exact ⟨rfl, h.removes_removeAll (h.listed first p hl hup).1 hc⟩

/-- Removing a range of siblings frees the subtrees of just these siblings and returns their number:
a range includes its first node and not the one where it stops, removing between two siblings takes
neither. -/
theorem removeRange_removes (h : t.WellFormed) (hl : t.contains first = true) (stop : NodeId) :
    (first = stop → t.removeRange first stop = (t, 0)) ∧
    (first ≠ stop → (t.removeRange first stop).2 = (t.siblingsFrom first stop).length ∧
      Removes t (t.removeRange first stop).1 (t.siblingsFrom first stop)) ∧
    ∀ p before between after, t.parent first = some p →
      t.children p = before ++ first :: (between ++ stop :: after) →
        (t.removeBetween first stop).2 = between.length ∧
          Removes t (t.removeBetween first stop).1 between := by
  refine ⟨fun he => if_pos he, h.removes_removeRange hl, fun p before between after hup hc => ?_⟩
  have hp := (h.listed first p hl hup).1
  have hn := h.nodup_children hp
  match between with
  | [] =>
    simp only [removeBetween, nextSibling_of_children hup hc hn, if_true]
    exact ⟨rfl, h.removes_refl⟩
  | next :: between =>
    have hnext : t.children p = (before ++ [first]) ++ next :: (between ++ stop :: after) := by simp [hc]
    obtain ⟨hlnext, hupnext⟩ := h.owned p next hp (by simp [hc])
    have hstop : stop ∉ next :: between := by
      have hn' := hnext ▸ hn
      rw [← List.cons_append, ← List.append_assoc] at hn'
      exact fun hm => (List.nodup_append.1 hn').2.2 stop (List.mem_append_right _ hm) stop
        List.mem_cons_self rfl
    have hne : next ≠ stop := fun he => hstop (he ▸ List.mem_cons_self)
    have hfrom : t.siblingsFrom next stop = next :: between := by
      rw [siblingsFrom_of_children hupnext hnext hn, ← List.cons_append,
        List.takeWhile_append_of_pos fun x hx => by simpa using fun he : x = stop => hstop (he ▸ hx),
        List.takeWhile_cons_of_neg (by simp), List.append_nil]
    simp only [removeBetween, nextSibling_of_children hup hc hn, hne, if_false]
    have hrange := h.removes_removeRange hlnext hne
    rwa [hfrom] at hrange

theorem removeRange_removes_shelf :
    let t := ({} : Tree).edit shelf
    t.WellFormed ∧ t.contains ⟨2⟩ = true ∧ t.removeRange ⟨2⟩ ⟨2⟩ = (t, 0) ∧
      (t.removeRange ⟨2⟩ ⟨4⟩).2 = 2 ∧ Removes t (t.removeRange ⟨2⟩ ⟨4⟩).1 [⟨2⟩, ⟨3⟩] ∧
      (t.removeBetween ⟨2⟩ ⟨4⟩).2 = 1 ∧ Removes t (t.removeBetween ⟨2⟩ ⟨4⟩).1 [⟨3⟩] := by
  intro t
  have hl : t.contains ⟨2⟩ = true := by decide +kernel
  have hup : t.parent ⟨2⟩ = some ⟨0⟩ := by decide +kernel
  have hc : t.children ⟨0⟩ = [⟨1⟩] ++ ⟨2⟩ :: ([⟨3⟩] ++ ⟨4⟩ :: []) := by decide +kernel
  have hfrom : t.siblingsFrom ⟨2⟩ ⟨4⟩ = [⟨2⟩, ⟨3⟩] := by decide +kernel
  obtain ⟨hsame, -, -⟩ := removeRange_removes wellFormed_shelf hl ⟨2⟩
  obtain ⟨-, hrange, hbetween⟩ := removeRange_removes wellFormed_shelf hl ⟨4⟩
  rw [hfrom] at hrange
  obtain ⟨hcount, hremoved⟩ := hrange (by decide)
  obtain ⟨hcountb, hremovedb⟩ := hbetween ⟨0⟩ _ _ _ hup hc
  exact ⟨wellFormed_shelf, hl, hsame rfl, hcount, hremoved, hcountb, hremovedb⟩

end LiveMarkup.Tree
