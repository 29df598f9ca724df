import LiveMarkup.Proofs.Tree.Arena

set_option autoImplicit false

/-!
Linking and unlinking among siblings. Where a node stands once among the children of its parent, the
search finds that place whatever the hint says, so each operation is a plain change of one list of
children and one parent.
-/

namespace LiveMarkup

theorem indexOutward_of_getElem? {α : Type} [DecidableEq α] {xs : List α} {x : α} {start i : Nat}
    (hs : start ≤ xs.length) (hn : xs.Nodup) (hi : xs[i]? = some x) :
    indexOutward xs x start = some i := by
  have hlt : i < xs.length := (List.getElem?_eq_some_iff.1 hi).1
  cases hf : indexOutward xs x start with
  | some j =>
    have hj := getElem?_of_indexOutward hf
    obtain ⟨hjlt, hj⟩ := List.getElem?_eq_some_iff.1 hj
    obtain ⟨_, hi⟩ := List.getElem?_eq_some_iff.1 hi
    rw [(hn.getElem_inj_iff).1 (hj.trans hi.symm)]
  | none =>
    exfalso
    have hall := List.findSome?_eq_none_iff.1 hf
    by_cases hle : start ≤ i
    · have h := hall (i - start) (List.mem_range.2 (by omega))
      simp only [Nat.add_sub_cancel' hle, hi, if_true] at h
      cases h
    · have h := hall (start - i - 1) (List.mem_range.2 (by omega))
      have hb : start - (start - i - 1 + 1) = i := by omega
      have hd : start - i - 1 < start := by omega
      simp only [hb, hd, hi, and_self, if_true] at h
      split at h <;> cases h

theorem insertIdx_length_append {α : Type} (before after : List α) (x : α) :
    (before ++ after).insertIdx before.length x = before ++ x :: after := by
  induction before with
  | nil => simp
  | cons b bs ih => simp [List.insertIdx_succ_cons, ih]

namespace Tree

variable {t : Tree} {p id : NodeId} {before after : List NodeId}

theorem position_of_children (hp : t.parent id = some p)
    (hc : t.children p = before ++ id :: after) (hn : (t.children p).Nodup) :
    t.position id = some (p, before.length) := by
  have hi : (t.children p)[before.length]? = some id := by simp [hc]
  have hs : min (t.node id).hint (t.children p).length ≤ (t.children p).length :=
    Nat.min_le_right _ _
  simp only [position, hp, indexOutward_of_getElem? hs hn hi, Option.map_some]

theorem position_of_parent_none (hp : t.parent id = none) : t.position id = none := by
  simp only [position, hp]

theorem nextSibling_of_children {next : NodeId} (hp : t.parent id = some p)
    (hc : t.children p = before ++ id :: next :: after) (hn : (t.children p).Nodup) :
    t.nextSibling id = some next := by
  simp [nextSibling, position_of_children hp hc hn, hc]

theorem nextSibling_of_children_last (hp : t.parent id = some p)
    (hc : t.children p = before ++ [id]) (hn : (t.children p).Nodup) : t.nextSibling id = none := by
  simp [nextSibling, position_of_children hp hc hn, hc]

theorem detach_of_parent_none (hp : t.parent id = none) : t.detach id = t := by
  simp only [detach, position_of_parent_none hp]

theorem Accounted.link (h : t.Accounted) (p id : NodeId) (i : Nat) : (t.link p id i).Accounted := by
  refine (h.modify id ?_).modify p ?_ <;> intro <;> rfl

theorem contains_link (t : Tree) (p id n : NodeId) (i : Nat) :
    (t.link p id i).contains n = t.contains n := by
  rw [link, contains_modify, contains_modify] <;> intro <;> rfl

theorem core_link_self (hl : t.contains id = true) (hne : id ≠ p) (i : Nat) :
    (t.link p id i).core id = { t.core id with parent := some p } := by
  rw [link, core_modify_of_ne hne, core_modify_self hl]
  rfl

theorem core_link_parent (hp : t.contains p = true) (hne : id ≠ p) (i : Nat) :
    (t.link p id i).core p =
      { t.core p with children := (t.children p).insertIdx i id } := by
  have hl : (t.modify id fun n => { n with parent := some p, hint := i }).contains p = true := by
    rw [contains_modify, hp]
    intro
    rfl
  have hn : (t.modify id fun n => { n with parent := some p, hint := i }).node p = t.node p := by
    simp [node_modify, hne.symm]
  rw [link, core_modify_self hl, hn]
  rfl

theorem core_link_of_ne {n : NodeId} (hn : n ≠ id) (hp : n ≠ p) (i : Nat) :
    (t.link p id i).core n = t.core n := by
  rw [link, core_modify_of_ne hp, core_modify_of_ne hn]

/-- What linking a detached node at one place of a list of children does. -/
structure Links (t t' : Tree) (p id : NodeId) (before after : List NodeId) : Prop where
  core_self : t'.core id = { t.core id with parent := some p }
  core_parent : t'.core p = { t.core p with children := before ++ id :: after }
  core_other : ∀ n, n ≠ id → n ≠ p → t'.core n = t.core n
  accounted : t'.Accounted

theorem links_link (h : t.Accounted) (hp : t.contains p = true) (hl : t.contains id = true)
    (hne : id ≠ p) (hc : t.children p = before ++ after) :
    Links t (t.link p id before.length) p id before after where
  core_self := core_link_self hl hne _
  core_parent := by
    rw [core_link_parent hp hne, hc, insertIdx_length_append]
  core_other n hn hp := core_link_of_ne hn hp _
  accounted := h.link p id _

theorem Links.touched {t' : Tree} (h : Links t t' p id before after) :
    Links t t'.touched p id before after :=
  ⟨h.core_self, h.core_parent, h.core_other, h.accounted.touched⟩

theorem links_append (h : t.Accounted) (hp : t.contains p = true) (hl : t.contains id = true)
    (hd : t.parent id = none) (hne : id ≠ p) : Links t (t.append p id) p id (t.children p) [] := by
  simp only [append, detach_of_parent_none hd]
  exact (links_link h hp hl hne (by simp)).touched

theorem links_insertBefore {reference : NodeId} (h : t.Accounted) (hp : t.contains p = true)
    (hl : t.contains id = true) (hd : t.parent id = none) (hne : id ≠ p)
    (hr : t.parent reference = some p) (hc : t.children p = before ++ reference :: after)
    (hn : (t.children p).Nodup) :
    Links t (t.insertBefore reference id).1 p id before (reference :: after) := by
  simp only [insertBefore, detach_of_parent_none hd, position_of_children hr hc hn]
  exact (links_link h hp hl hne hc).touched

/-- What linking nodes one after the other does. -/
structure LinksAll (t t' : Tree) (p : NodeId) (before ids after : List NodeId) : Prop where
  core_self : ∀ n ∈ ids, t'.core n = { t.core n with parent := some p }
  core_parent : t'.core p = { t.core p with children := before ++ ids ++ after }
  core_other : ∀ n, n ∉ ids → n ≠ p → t'.core n = t.core n
  accounted : t'.Accounted

theorem linksAll_linkAll {ids : List NodeId} (h : t.Accounted) (hp : t.contains p = true)
    (hl : ∀ n ∈ ids, t.contains n = true) (hne : p ∉ ids) (hnd : ids.Nodup)
    (hc : t.children p = before ++ after) :
    LinksAll t (t.linkAll p ids before.length) p before ids after := by
  induction ids generalizing t before with
  | nil =>
    have hk : { t.core p with children := before ++ after } = t.core p := by rw [← hc]; rfl
    exact ⟨by simp, by simpa [linkAll] using hk.symm, fun _ _ _ => rfl, h⟩
  | cons id ids ih =>
    simp only [List.mem_cons, not_or] at hne
    have hnd' := List.nodup_cons.1 hnd
    have hlink := links_link h hp (hl id List.mem_cons_self) (Ne.symm hne.1) hc
    have hcore (n : NodeId) : (t.link p id before.length).contains n = t.contains n :=
      contains_link t p id n _
    have hch : (t.link p id before.length).children p = (before ++ [id]) ++ after := by
      rw [children_core, hlink.core_parent]
      simp
    have hrest := ih hlink.accounted (by rw [hcore, hp])
      (fun n hm => by rw [hcore, hl n (List.mem_cons_of_mem _ hm)]) hne.2 hnd'.2 hch
    have he : (before ++ [id]).length = before.length + 1 := by simp
    rw [he] at hrest
    refine ⟨?_, ?_, ?_, hrest.accounted⟩
    · intro n hm
      rcases List.mem_cons.1 hm with rfl | hm
      · rw [linkAll, hrest.core_other n hnd'.1 (Ne.symm hne.1), hlink.core_self]
      · have hni : n ≠ id := fun he => hnd'.1 (he ▸ hm)
        have hnp : n ≠ p := fun he => hne.2 (he ▸ hm)
        rw [linkAll, hrest.core_self n hm, hlink.core_other n hni hnp]
    · rw [linkAll, hrest.core_parent, hlink.core_parent]
      simp
    · intro n hm hnp
      simp only [List.mem_cons, not_or] at hm
      rw [linkAll, hrest.core_other n hm.2 hnp, hlink.core_other n hm.1 hnp]

end Tree

end LiveMarkup
