import LiveMarkup.Proofs.Tree.Subtree

set_option autoImplicit false

/-!
Where live nodes stand, in an arena of which nothing else is asked: neither that following parents
ends nor what dead slots hold. Every operation on live nodes keeps every live node once among the
children of its parent and nowhere else, and that also where a node comes under itself.
-/

namespace LiveMarkup.Tree

variable {t t' : Tree} {id p : NodeId} {loose : List NodeId}

/-- A node is among the children of a live node. -/
def Stands (t : Tree) (p id : NodeId) : Prop := t.contains p = true ∧ id ∈ t.children p

/-- A live node names a node as its parent. -/
def Names (t : Tree) (id p : NodeId) : Prop := t.contains id = true ∧ t.parent id = some p

/-- A live node stands once among the children of the parent that it names and nowhere else; loose
nodes stand nowhere, and neither do dead ones. -/
structure Tied (t : Tree) (loose : List NodeId) : Prop where
  stands_iff : ∀ p id, t.Stands p id ↔ t.Names id p ∧ id ∉ loose
  nodup : ∀ p, t.contains p = true → (t.children p).Nodup

theorem SameLinks.stands_iff (h : SameLinks t t' p) : t'.Stands p id ↔ t.Stands p id := by
  rw [Stands, Stands, h.1, h.2.2]

theorem SameLinks.names_iff (h : SameLinks t t' id) : t'.Names id p ↔ t.Names id p := by
  rw [Names, Names, h.1, h.2.1]

theorem WellFormed.tied (h : t.WellFormed) : t.Tied [] where
  stands_iff p id := by
    constructor
    · rintro ⟨hp, hin⟩
      exact ⟨h.owned p id hp hin, List.not_mem_nil⟩
    · rintro ⟨⟨hl, hup⟩, -⟩
      exact ⟨(h.listed id p hl hup).1, h.mem_children hl hup⟩
  nodup p := h.nodup_children

theorem parent_orphan (t : Tree) (id : NodeId) :
    (t.modify id fun n => { n with parent := none }).parent id = none := by
  simp only [parent, node_modify, true_and]
  split
  · rfl
  · rename_i hi
    rw [t.node_of_size_le id (Nat.le_of_not_lt hi)]
    rfl

namespace Tied

theorem of_links (h : t.Tied loose) (hs : ∀ n, SameLinks t t' n) : t'.Tied loose where
  stands_iff p id := by rw [(hs p).stands_iff, (hs id).names_iff, h.stands_iff]
  nodup p hp := by
    rw [(hs p).2.2]
    exact h.nodup p ((hs p).1 ▸ hp)

theorem touched (h : t.Tied loose) : t.touched.Tied loose := ⟨h.stands_iff, h.nodup⟩

/-- Where a node stands is found in the list that it stands in. -/
theorem exists_place (h : t.Tied loose) (hl : t.contains id = true) (hup : t.parent id = some p)
    (hid : id ∉ loose) : t.contains p = true ∧ ∃ before after,
      t.children p = before ++ id :: after ∧ t.position id = some (p, before.length) := by
  obtain ⟨hp, hin⟩ := (h.stands_iff p id).2 ⟨⟨hl, hup⟩, hid⟩
  obtain ⟨before, after, hc⟩ := List.append_of_mem hin
  exact ⟨hp, before, after, hc, position_of_children hup hc (h.nodup p hp)⟩

/-- Whose child a live node is found to be is live. -/
theorem contains_of_position {i : Nat} (h : t.Tied []) (hl : t.contains id = true)
    (hpos : t.position id = some (p, i)) : t.contains p = true := by
  cases hup : t.parent id with
  | none => cases (position_of_parent_none hup).symm.trans hpos
  | some q =>
    obtain ⟨hq, before, after, hc, hplace⟩ := h.exists_place hl hup List.not_mem_nil
    obtain ⟨rfl, -⟩ := Prod.mk.inj (Option.some.inj (hplace.symm.trans hpos))
    exact hq

/-- What follows a live node is live. -/
theorem contains_nextSibling {next : NodeId} (h : t.Tied []) (hl : t.contains id = true)
    (hnext : t.nextSibling id = some next) : t.contains next = true := by
  obtain ⟨⟨p, i⟩, hpos, hin⟩ := Option.bind_eq_some_iff.1 hnext
  have hp := h.contains_of_position hl hpos
  exact ((h.stands_iff p next).1 ⟨hp, List.mem_of_getElem? hin⟩).1.1

/-- What names no parent may be loose or not. -/
theorem cons_iff (hno : ∀ p, ¬ t.Names id p) : t.Tied (id :: loose) ↔ t.Tied loose := by
  have hsame (p n : NodeId) : t.Names n p ∧ n ∉ id :: loose ↔ t.Names n p ∧ n ∉ loose := by
    by_cases hn : n = id
    · simp [hn, hno]
    · simp [hn]
  constructor
  · exact fun h => ⟨fun p n => (h.stands_iff p n).trans (hsame p n), h.nodup⟩
  · exact fun h => ⟨fun p n => (h.stands_iff p n).trans (hsame p n).symm, h.nodup⟩

/-- Nothing stands under a new node, and it stands nowhere, as when it was dead. -/
theorem create (h : t.Tied loose) (ha : t.Accounted) (kind : NodeKind) :
    (t.create kind).1.Tied loose := by
  have hc := ha.create kind
  obtain ⟨u, new, hu⟩ : ∃ u new, t.create kind = (u, new) := ⟨_, _, rfl⟩
  rw [hu] at hc ⊢
  have hother {n : NodeId} (hn : n ≠ new) : SameLinks t u n :=
    sameLinks_of_core (hc.core_other n hn)
  have hchildren : u.children new = [] := by rw [children_core, hc.core_self]
  have hparent : u.parent new = none := by rw [parent_core, hc.core_self]
  refine ⟨fun p id => ?_, fun p hp => ?_⟩
  · have hs : u.Stands p id ↔ t.Stands p id := by
      by_cases hp : p = new
      · simp [hp, Stands, hchildren, hc.fresh]
      · exact (hother hp).stands_iff
    have hn : u.Names id p ↔ t.Names id p := by
      by_cases hid : id = new
      · simp [hid, Names, hparent, hc.fresh]
      · exact (hother hid).names_iff
    rw [hs, hn, h.stands_iff]
  · by_cases hpn : p = new
    · rw [hpn, hchildren]
      exact List.nodup_nil
    · rw [(hother hpn).2.2]
      exact h.nodup p ((hother hpn).1 ▸ hp)

/-- Some children of a node are taken out of its list and are loose. -/
theorem drop {dropped kept : List NodeId} (h : t.Tied loose) (hp : t.contains p = true)
    (hperm : (t.children p).Perm (dropped ++ kept)) :
    (t.modify p fun n => { n with children := kept }).Tied (dropped ++ loose) := by
  obtain ⟨u, hu⟩ : ∃ u, u = t.modify p fun n => { n with children := kept } := ⟨_, rfl⟩
  have hlive (n : NodeId) : u.contains n = t.contains n := hu ▸ contains_modify t p n fun _ => rfl
  have hparent (n : NodeId) : u.parent n = t.parent n := hu ▸ parent_modify_of t p n fun _ => rfl
  have hchildren (n : NodeId) : u.children n = if n = p then kept else t.children n := by
    rw [hu, children_modify t hp]
  obtain ⟨-, hkept, hdis⟩ := List.nodup_append.1 (hperm.nodup_iff.1 (h.nodup p hp))
  have hmem (n : NodeId) : n ∈ dropped ∨ n ∈ kept ↔ t.Names n p ∧ n ∉ loose := by
    rw [← h.stands_iff, Stands, hperm.mem_iff, List.mem_append]
    simp [hp]
  rw [← hu]
  refine ⟨fun q id => ?_, fun q hq => ?_⟩
  · have hs := h.stands_iff q id
    have hm := hmem id
    simp only [Stands, Names, hlive, hparent, hchildren, List.mem_append] at hs hm ⊢
    grind
  · rw [hchildren]
    split
    · exact hkept
    · exact h.nodup q (hlive q ▸ hq)

/-- A loose node forgets its parent and is loose no more. -/
theorem orphan (h : t.Tied (id :: loose)) :
    (t.modify id fun n => { n with parent := none }).Tied loose := by
  obtain ⟨u, hu⟩ : ∃ u, u = t.modify id fun n => { n with parent := none } := ⟨_, rfl⟩
  have hlive (n : NodeId) : u.contains n = t.contains n := hu ▸ contains_modify t id n fun _ => rfl
  have hchildren (n : NodeId) : u.children n = t.children n :=
    hu ▸ children_modify_of t id n fun _ => rfl
  have hparent (n : NodeId) (hl : t.contains n = true) :
      u.parent n = if n = id then none else t.parent n := by
    by_cases hn : n = id
    · subst hn
      rw [hu, parent_modify t hl]
    · rw [hu, if_neg hn]
      exact parent_of_core (core_modify_of_ne hn _)
  rw [← hu]
  refine ⟨fun p n => ?_, fun p hp => ?_⟩
  · have hs := h.stands_iff p n
    have hup := hparent n
    simp only [Stands, Names, hlive, hchildren, List.mem_cons] at hs ⊢
    grind
  · rw [hchildren]
    exact h.nodup p (hlive p ▸ hp)

/-- A loose node comes under a node, which may be the same. -/
theorem link {i : Nat} (h : t.Tied (id :: loose)) (hid : id ∉ loose) (hl : t.contains id = true)
    (hp : t.contains p = true) (hi : i ≤ (t.children p).length) : (t.link p id i).Tied loose := by
  have hlive (n : NodeId) := contains_link t p id n i
  have hparent (n : NodeId) : (t.link p id i).parent n = if n = id then some p else t.parent n := by
    rw [← parent_modify t hl n fun n => { n with parent := some p, hint := i }]
    exact parent_modify_of _ p n fun _ => rfl
  have hchildren (n : NodeId) : (t.link p id i).children n =
      if n = p then (t.children p).insertIdx i id else t.children n := children_link hp n i
  have hout : id ∉ t.children p := fun hin =>
    ((h.stands_iff p id).1 ⟨hp, hin⟩).2 List.mem_cons_self
  refine ⟨fun q n => ?_, fun q hq => ?_⟩
  · have hs := h.stands_iff q n
    simp only [Stands, Names, hlive, hparent, hchildren, List.mem_cons] at hs ⊢
    have hin := List.mem_insertIdx hi (a := n) (b := id)
    grind
  · rw [hchildren]
    split
    · rw [(List.perm_insertIdx id _ hi).nodup_iff, List.nodup_cons]
      exact ⟨hout, h.nodup p hp⟩
    · exact h.nodup q (hlive q ▸ hq)

/-- Loose nodes come one after the other under a node. -/
theorem linkAll {ids : List NodeId} {i : Nat} (h : t.Tied (ids ++ loose))
    (hnd : (ids ++ loose).Nodup) (hl : ∀ n ∈ ids, t.contains n = true)
    (hp : t.contains p = true) (hi : i ≤ (t.children p).length) :
    (t.linkAll p ids i).Tied loose := by
  induction ids generalizing t i with
  | nil => exact h
  | cons id ids ih =>
    rw [List.cons_append, List.nodup_cons] at hnd
    have hlid := hl id List.mem_cons_self
    refine ih (h.link hnd.1 hlid hp hi) hnd.2 (fun n hn => ?_) ?_ ?_
    · rw [contains_link, hl n (List.mem_cons_of_mem _ hn)]
    · rw [contains_link, hp]
    · rw [children_link hp, if_pos rfl, List.length_insertIdx_of_le_length hi]
      omega

/-- A loose node dies, and what stood below it is loose. -/
theorem bury (h : t.Tied (id :: loose)) (hl : t.contains id = true) :
    (t.bury id).Tied ((t.children id).reverse ++ loose) := by
  have hself := core_bury_self hl
  have hother {n : NodeId} (hn : n ≠ id) : SameLinks t (t.bury id) n :=
    sameLinks_of_core (core_bury_of_ne hn)
  have hdead : (t.bury id).contains id = false := by
    rw [contains_core, hself]
    rfl
  have hbelow (n : NodeId) : n ∈ t.children id ↔ t.Names n id ∧ n ∉ id :: loose := by
    rw [← h.stands_iff, Stands]
    simp [hl]
  refine ⟨fun p n => ?_, fun p hp => ?_⟩
  · have hs := h.stands_iff p n
    have hb := hbelow n
    rw [List.mem_append, List.mem_reverse, not_or]
    by_cases hn : n = id
    · -- The dead node stands nowhere, as when it was loose.
      have hout : ¬ (t.bury id).Stands p n := fun hin => by
        by_cases hp : p = id
        · simp [Stands, hp, hdead] at hin
        · exact (hs.1 ((hother hp).stands_iff.1 hin)).2 (hn ▸ List.mem_cons_self)
      refine iff_of_false hout fun hin => ?_
      simp [Names, hn, hdead] at hin
    rw [(hother hn).names_iff]
    by_cases hp : p = id
    · simp only [hp, Stands, hdead, hb, List.mem_cons, hn]
      grind
    · rw [(hother hp).stands_iff, hs, hb, List.mem_cons]
      simp only [Names]
      grind
  · have hne : p ≠ id := fun he => by simp [he, hdead] at hp
    rw [(hother hne).2.2]
    exact h.nodup p ((hother hne).1 ▸ hp)

/-! ## The operations -/

theorem detach (h : t.Tied loose) (hid : id ∉ loose) (hl : t.contains id = true) :
    (t.detach id).Tied loose ∧ ∀ p, ¬ (t.detach id).Names id p := by
  cases hup : t.parent id with
  | none =>
    rw [detach_of_parent_none hup]
    exact ⟨h, fun p hn => by simp [Names, hup] at hn⟩
  | some p =>
    obtain ⟨hp, before, after, hc, hpos⟩ := h.exists_place hl hup hid
    have hperm : (t.children p).Perm ([id] ++ (before ++ after)) := by
      rw [hc]
      exact List.perm_middle
    rw [detach_of_position hc hpos]
    refine ⟨(h.drop hp hperm).orphan.touched, fun q hn => ?_⟩
    have hnone := (t.modify p fun n => { n with children := before ++ after }).parent_orphan id
    exact Option.some_ne_none q (hn.2.symm.trans hnone)

/-- Loose nodes die with all below them: what is on the stack is loose. -/
theorem release {stack : List NodeId} (h : t.Tied (stack ++ loose)) :
    (t.release stack).Tied loose := by
  induction t, stack using Tree.release.induct with
  | case1 t =>
    rw [Tree.release]
    exact h
  | case2 t id stack below hl ih =>
    rw [Tree.release]
    simp only [hl, dif_pos]
    refine ih ?_
    rw [List.append_assoc]
    exact h.bury hl
  | case3 t id stack hl ih =>
    rw [Tree.release]
    simp only [hl]
    exact ih ((cons_iff fun p hn => hl hn.1).1 h)

theorem remove (h : t.Tied loose) (hid : id ∉ loose) (hl : t.contains id = true) :
    (t.remove id).Tied loose := by
  obtain ⟨hd, hnone⟩ := h.detach hid hl
  have hstack : (t.detach id).Tied ([id] ++ loose) := (cons_iff hnone).2 hd
  exact hstack.release

/-- Loose nodes are removed one after the other, some of them perhaps with one before. -/
theorem removeAll {ids : List NodeId} (h : t.Tied (ids ++ loose)) :
    (t.removeAll ids).Tied loose := by
  induction ids generalizing t with
  | nil => exact h
  | cons id ids ih =>
    have hnone := t.parent_orphan id
    refine ih ?_
    rw [Tree.remove, detach_of_parent_none hnone]
    have hno (p : NodeId) : ¬ (t.modify id fun n => { n with parent := none }).Names id p :=
      fun hn => Option.some_ne_none p (hn.2.symm.trans hnone)
    have hstack : (t.modify id fun n => { n with parent := none }).Tied ([id] ++ (ids ++ loose)) :=
      (cons_iff hno).2 h.orphan
    exact hstack.release

/-- Siblings are removed, whatever the two nodes are that bound them. -/
theorem removeRange {first stop : NodeId} (h : t.Tied []) (hl : t.contains first = true) :
    (t.removeRange first stop).1.Tied [] := by
  unfold Tree.removeRange
  split
  · exact h
  cases hup : t.parent first with
  | none =>
    rw [position_of_parent_none hup]
    exact h.remove List.not_mem_nil hl
  | some p =>
    obtain ⟨hp, before, after, hc, hpos⟩ := h.exists_place hl hup List.not_mem_nil
    rw [hpos]
    have hlength : before.length ≤ (t.children p).length := by simp [hc]
    have hcut (limit : Nat) (hle : before.length ≤ limit) :=
      (h.drop hp (perm_cut (t.children p) hle)).touched.removeAll
    refine hcut _ ?_
    split
    · split
      · rename_i hlt
        exact Nat.le_of_lt hlt.2
      · exact hlength
    · exact hlength

theorem removeBetween {start stop : NodeId} (h : t.Tied []) (hl : t.contains start = true) :
    (t.removeBetween start stop).1.Tied [] := by
  unfold Tree.removeBetween
  split
  · split
    · exact h
    · rename_i first hnext _
      exact h.removeRange (h.contains_nextSibling hl hnext)
  · exact h

theorem append (h : t.Tied []) (hp : t.contains p = true) (hl : t.contains id = true) :
    (t.append p id).Tied [] := by
  obtain ⟨hd, hnone⟩ := h.detach List.not_mem_nil hl
  exact (Tied.link ((cons_iff hnone).2 hd) List.not_mem_nil ((t.contains_detach id id).trans hl)
    ((t.contains_detach id p).trans hp) (Nat.le_refl _)).touched

theorem insertBefore {reference : NodeId} (h : t.Tied []) (hr : t.contains reference = true)
    (hl : t.contains id = true) : (t.insertBefore reference id).1.Tied [] := by
  obtain ⟨hd, hnone⟩ := h.detach List.not_mem_nil hl
  unfold Tree.insertBefore
  cases hup : (t.detach id).parent reference with
  | none =>
    simp only [position_of_parent_none hup]
    exact hd
  | some p =>
    obtain ⟨hp, before, after, hc, hpos⟩ :=
      hd.exists_place ((t.contains_detach id reference).trans hr) hup List.not_mem_nil
    simp only [hpos]
    have hlive := (t.contains_detach id id).trans hl
    exact (Tied.link ((cons_iff hnone).2 hd) List.not_mem_nil hlive hp (by simp [hc])).touched

theorem moveChildren {source target : NodeId} (h : t.Tied []) (hs : t.contains source = true)
    (ht : t.contains target = true) (before : Option NodeId) :
    (t.moveChildren source target before).Tied [] := by
  simp only [Tree.moveChildren]
  split
  · exact h
  obtain ⟨u, hu⟩ : ∃ u, u = t.modify source fun n => { n with children := [] } := ⟨_, rfl⟩
  have hperm : (t.children source).Perm (t.children source ++ []) := by simp
  have hlive (n : NodeId) : u.contains n = t.contains n :=
    hu ▸ contains_modify t source n fun _ => rfl
  have hdrop : u.Tied (t.children source ++ []) := hu ▸ h.drop hs hperm
  simp only [← hu]
  refine (hdrop.linkAll ?_ (fun n hn => ?_) (hlive target ▸ ht) ?_).touched
  · simpa using h.nodup source hs
  · exact hlive n ▸ ((h.stands_iff source n).1 ⟨hs, hn⟩).1.1
  · exact index_le_length (u.children target) before

theorem moveChildrenBefore {source reference : NodeId} (h : t.Tied [])
    (hs : t.contains source = true) (hr : t.contains reference = true) :
    (t.moveChildrenBefore source reference).1.Tied [] := by
  unfold Tree.moveChildrenBefore
  split
  · rename_i p hup
    exact h.moveChildren hs (h.exists_place hr hup List.not_mem_nil).1 _
  · exact h

theorem setKind (h : t.Tied loose) (id : NodeId) (kind : NodeKind) :
    (t.setKind id kind).Tied loose := by
  obtain ⟨u, hu⟩ : ∃ u, u = t.modify id fun n => { n with kind } := ⟨_, rfl⟩
  have hlinks (n : NodeId) : SameLinks t u n :=
    hu ▸ ⟨contains_modify t id n fun _ => rfl, parent_modify_of t id n fun _ => rfl,
      children_modify_of t id n fun _ => rfl⟩
  rw [Tree.setKind, ← hu]
  exact (h.of_links hlinks).touched

theorem setText (h : t.Tied loose) (id : NodeId) (content : String) :
    (t.setText id content).1.Tied loose := by
  unfold Tree.setText
  split
  · exact h.setKind id _
  · exact h

theorem setAttribute (h : t.Tied loose) (id : NodeId) (name value : String) :
    (t.setAttribute id name value).1.Tied loose := by
  unfold Tree.setAttribute
  split
  · exact h.setKind id _
  · exact h

theorem removeAttribute (h : t.Tied loose) (id : NodeId) (name : String) :
    (t.removeAttribute id name).1.Tied loose := by
  unfold Tree.removeAttribute
  split
  · split
    · exact h.setKind id _
    · exact h
  · exact h

end Tied

end LiveMarkup.Tree
