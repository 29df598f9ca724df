import LiveMarkup.Proofs.Tree.Linked

set_option autoImplicit false

/-!
Sequences of changes to an arena. A change is allowed if it names live nodes and puts no node under
itself or a node below it. Allowed changes keep an arena well-formed, so every arena that they build
from nothing is.
-/

namespace LiveMarkup.Tree

variable {t : Tree} {id p : NodeId} {loose : List NodeId}

/-- A node that is found in a list leaves it. -/
theorem detach_of_position {before after : List NodeId} (hc : t.children p = before ++ id :: after)
    (hpos : t.position id = some (p, before.length)) : t.detach id =
      ((t.modify p fun n => { n with children := before ++ after }).modify id fun n =>
        { n with parent := none }).touched := by
  have hcut : (t.node p).children.eraseIdx before.length = before ++ after := by
    change (t.children p).eraseIdx before.length = before ++ after
    rw [hc, List.eraseIdx_append_of_length_le (Nat.le_refl _), Nat.sub_self,
      List.eraseIdx_cons_zero]
  simp only [detach, hpos, modify, hcut]

theorem contains_detach (t : Tree) (id n : NodeId) : (t.detach id).contains n = t.contains n := by
  rw [detach]
  split
  · rw [contains_core, core_touched, ← contains_core, contains_modify, contains_modify] <;>
      intro <;> rfl
  · rfl

/-- Where something is put in front of a node, or at the end, is inside the list or at its end. -/
theorem index_le_length (siblings : List NodeId) (before : Option NodeId) :
    (before.bind fun b => siblings.findIdx? (· == b)).getD siblings.length ≤ siblings.length := by
  cases hb : before.bind fun b => siblings.findIdx? (· == b) with
  | none => exact Nat.le_refl _
  | some i =>
    obtain ⟨b, -, hi⟩ := Option.bind_eq_some_iff.1 hb
    exact Nat.le_of_lt (List.findIdx?_eq_some_iff_findIdx_eq.1 hi).1

/-- A list is cut into three, and the middle part goes in front. -/
theorem perm_cut {α : Type} (xs : List α) {i j : Nat} (hle : i ≤ j) :
    xs.Perm ((xs.take j).drop i ++ (xs.take i ++ xs.drop j)) := by
  have htake : xs.take i = (xs.take j).take i := by rw [List.take_take, Nat.min_eq_left hle]
  rw [htake, ← List.append_assoc]
  conv_lhs => rw [← List.take_append_drop j xs, ← List.take_append_drop i (xs.take j)]
  exact List.perm_append_comm.append_right _

namespace Linked

/-- Where a node stands is found in the list that it stands in. -/
theorem position_of_parent (h : t.Linked loose) (hid : id ∉ loose) (hp : t.parent id = some p) :
    ∃ before after, t.children p = before ++ id :: after ∧
      t.position id = some (p, before.length) := by
  obtain ⟨before, after, hc⟩ := List.append_of_mem ((h.listed id p hp).2 hid)
  exact ⟨before, after, hc, position_of_children hp hc (h.nodup p)⟩

/-- A node is unlinked from its parent, and no other node gets one. -/
theorem detach (h : t.Linked loose) (hid : id ∉ loose) :
    (t.detach id).Linked loose ∧ (t.detach id).parent id = none ∧
      (∀ n q, (t.detach id).parent n = some q → t.parent n = some q) ∧
      ∀ n, (t.detach id).contains n = t.contains n := by
  cases hp : t.parent id with
  | none =>
    rw [detach_of_parent_none hp]
    exact ⟨h, hp, fun _ _ hn => hn, fun _ => rfl⟩
  | some p =>
    obtain ⟨before, after, hc, hpos⟩ := h.position_of_parent hid hp
    have hlp := (h.owned p id (by simp [hc])).2.1
    have hperm : (t.children p).Perm ([id] ++ (before ++ after)) := by
      rw [hc]
      exact List.perm_middle
    obtain ⟨hlinked, hnone⟩ := (h.drop hlp hperm).orphan
    obtain ⟨u, hu⟩ : ∃ u, u = t.modify p fun n => { n with children := before ++ after } := ⟨_, rfl⟩
    rw [← hu] at hlinked hnone
    have hd : t.detach id = (u.modify id fun n => { n with parent := none }).touched :=
      hu ▸ detach_of_position hc hpos
    refine ⟨hd ▸ hlinked.touched, hd ▸ hnone, fun n q hn => ?_, t.contains_detach id⟩
    rw [hd] at hn
    change (u.modify id fun n => { n with parent := none }).parent n = some q at hn
    have hn' : u.parent n = some q := parent_of_modify hn (by simp)
    rw [hu] at hn'
    exact parent_of_modify hn' fun _ _ hm => hm

/-- Loose nodes die with all below them: what is on the stack is loose. -/
theorem release {stack : List NodeId} (h : t.Linked (stack ++ loose)) :
    (t.release stack).Linked loose := by
  -- A live node on the stack leaves its children there; a dead one has no parent to be listed by.
  induction t, stack using Tree.release.induct with
  | case1 t =>
    rw [Tree.release]
    exact h
  | case2 t id stack below hl ih =>
    rw [Tree.release]
    simp only [hl, dif_pos]
    refine ih ?_
    rw [List.append_assoc]
    exact h.bury hl
  | case3 t id stack hl ih =>
    rw [Tree.release]
    simp only [hl]
    exact ih ((cons_iff (h.parent_of_dead (Bool.not_eq_true _ ▸ hl))).1 h)

theorem remove (h : t.Linked loose) (hid : id ∉ loose) : (t.remove id).Linked loose := by
  obtain ⟨hd, hnone, -⟩ := h.detach hid
  have hstack : (t.detach id).Linked ([id] ++ loose) := (cons_iff hnone).2 hd
  exact hstack.release

theorem removeAll {ids : List NodeId} (h : t.Linked (ids ++ loose)) (hnd : (ids ++ loose).Nodup) :
    (t.removeAll ids).Linked loose := by
  induction ids generalizing t with
  | nil => exact h
  | cons id ids ih =>
    rw [List.cons_append, List.nodup_cons] at hnd
    exact ih (h.orphan.1.remove hnd.1) hnd.2

/-- Siblings are removed, whatever the two nodes are that bound them. -/
theorem removeRange {first stop : NodeId} (h : t.Linked []) :
    (t.removeRange first stop).1.Linked [] := by
  unfold Tree.removeRange
  split
  · exact h
  cases hp : t.parent first with
  | none =>
    rw [position_of_parent_none hp]
    exact h.remove List.not_mem_nil
  | some p =>
    obtain ⟨before, after, hc, hpos⟩ := h.position_of_parent List.not_mem_nil hp
    rw [hpos]
    have hlp := (h.owned p first (by simp [hc])).2.1
    -- The list is cut into three, and only the middle part goes.
    have hcut (limit : Nat) (hle : before.length ≤ limit) : ((t.modify p fun n => { n with
        children := (t.children p).take before.length ++ (t.children p).drop limit }).touched.removeAll
          (((t.children p).take limit).drop before.length)).Linked [] := by
      refine (h.drop hlp (perm_cut (t.children p) hle)).touched.removeAll ?_
      exact (((List.drop_sublist _ _).trans (List.take_sublist _ _)).append (.refl [])).nodup
        (by simpa using h.nodup p)
    have hlength : before.length ≤ (t.children p).length := by simp [hc]
    refine hcut _ ?_
    split
    · split
      · rename_i hlt
        exact Nat.le_of_lt hlt.2
      · exact hlength
    · exact hlength

theorem removeBetween {start stop : NodeId} (h : t.Linked []) :
    (t.removeBetween start stop).1.Linked [] := by
  unfold Tree.removeBetween
  split
  · split
    · exact h
    · exact h.removeRange
  · exact h

theorem append (h : t.Linked []) (hl : t.contains id = true) (hp : t.contains p = true)
    (habove : ¬ t.Above id p) : (t.append p id).Linked [] := by
  obtain ⟨hd, hnone, hparent, hlive⟩ := h.detach List.not_mem_nil
  refine (Linked.link ((cons_iff hnone).2 hd) List.not_mem_nil (hlive id ▸ hl) (hlive p ▸ hp) ?_
    (Nat.le_refl _)).touched
  exact fun ha => habove (ha.of_imp hparent)

theorem insertBefore {reference : NodeId} (h : t.Linked []) (hl : t.contains id = true)
    (habove : ∀ p, t.parent reference = some p → ¬ t.Above id p) :
    (t.insertBefore reference id).1.Linked [] := by
  obtain ⟨hd, hnone, hparent, hlive⟩ := h.detach List.not_mem_nil
  unfold Tree.insertBefore
  cases hr : (t.detach id).parent reference with
  | none =>
    simp only [position_of_parent_none hr]
    exact hd
  | some p =>
    obtain ⟨before, after, hc, hpos⟩ := hd.position_of_parent List.not_mem_nil hr
    simp only [hpos]
    have hp := (hd.owned p reference (by simp [hc])).2.1
    refine (Linked.link ((cons_iff hnone).2 hd) List.not_mem_nil (hlive id ▸ hl) hp ?_
      (by simp [hc])).touched
    exact fun ha => habove p (hparent reference p hr) (ha.of_imp hparent)

theorem moveChildren {source target : NodeId} {before : Option NodeId} (h : t.Linked [])
    (hs : t.contains source = true) (ht : t.contains target = true)
    (habove : ∀ id ∈ t.children source, ¬ t.Above id target) :
    (t.moveChildren source target before).Linked [] := by
  simp only [Tree.moveChildren]
  split
  · exact h
  obtain ⟨u, hu⟩ : ∃ u, u = t.modify source fun n => { n with children := [] } := ⟨_, rfl⟩
  have hperm : (t.children source).Perm (t.children source ++ []) := by simp
  have hlive (n : NodeId) : u.contains n = t.contains n :=
    hu ▸ contains_modify t source n fun _ => rfl
  have hparent (n q : NodeId) (hn : u.parent n = some q) : t.parent n = some q := by
    rw [hu] at hn
    exact parent_of_modify hn fun _ _ hm => hm
  have hdrop : u.Linked (t.children source ++ []) := hu ▸ h.drop hs hperm
  simp only [← hu]
  refine (hdrop.linkAll ?_ ?_ (hlive target ▸ ht) ?_ ?_).touched
  · simpa using h.nodup source
  · exact fun n hn => hlive n ▸ h.contains_of_mem hn
  · exact fun n hn ha => habove n hn (ha.of_imp hparent)
  · exact index_le_length (u.children target) before

theorem moveChildrenBefore {source reference : NodeId} (h : t.Linked [])
    (hs : t.contains source = true)
    (habove : ∀ p, t.parent reference = some p → ∀ id ∈ t.children source, ¬ t.Above id p) :
    (t.moveChildrenBefore source reference).1.Linked [] := by
  unfold Tree.moveChildrenBefore
  split
  · rename_i p hp
    have hin := (h.listed reference p hp).2 List.not_mem_nil
    exact h.moveChildren hs (h.owned p reference hin).2.1 (habove p hp)
  · exact h

theorem setKind (h : t.Linked loose) (hl : t.contains id = true) (kind : NodeKind) :
    (t.setKind id kind).Linked loose :=
  have he := h.accounted.edits_setKind hl kind
  h.of_links he.accounted he.sameLinks

theorem setText (h : t.Linked loose) (hl : t.contains id = true) (content : String) :
    (t.setText id content).1.Linked loose := by
  unfold Tree.setText
  split
  · exact h.setKind hl _
  · exact h

theorem setAttribute (h : t.Linked loose) (hl : t.contains id = true) (name value : String) :
    (t.setAttribute id name value).1.Linked loose := by
  unfold Tree.setAttribute
  split
  · exact h.setKind hl _
  · exact h

theorem removeAttribute (h : t.Linked loose) (hl : t.contains id = true) (name : String) :
    (t.removeAttribute id name).1.Linked loose := by
  unfold Tree.removeAttribute
  split
  · split
    · exact h.setKind hl _
    · exact h
  · exact h

mutual

/-- A branch is copied: loose nodes are live, so no copy is one of them. -/
theorem graft {t : Tree} {loose : List NodeId} (h : t.Linked loose) (hnd : loose.Nodup)
    (hl : ∀ n ∈ loose, t.contains n = true) (b : Branch NodeKind) : (t.graft b).1.Linked loose := by
  match b with
  | .node kind bs =>
    have hc := h.accounted.create kind
    have hlinked := h.create kind
    obtain ⟨u, id, hu⟩ : ∃ u id, t.create kind = (u, id) := ⟨_, _, rfl⟩
    rw [hu] at hc hlinked
    have hself : u.contains id = true := by rw [contains_core, hc.core_self]
    have hnone : u.parent id = none := by rw [parent_core, hc.core_self]
    have hlive (n : NodeId) (hn : n ∈ loose) : u.contains n = true := hc.adds.contains (hl n hn)
    have hall := hlinked.graftAll hnd hlive hself hnone 0 bs
    obtain ⟨cs, hids, hg, -⟩ := hlinked.accounted.grows_graftAll id 0 bs
    obtain ⟨v, ids, hv⟩ : ∃ v ids, u.graftAll id 0 bs = (v, ids) := ⟨_, _, rfl⟩
    rw [hv] at hall hids hg
    replace hids : cs.map Branch.label = ids := hids
    have hcore : v.core id = { kind } := (hg.core id hself).trans hc.core_self
    have hroots := Branch.roots_sublist cs
    rw [hids] at hroots
    simp only [Tree.graft, hu, hv]
    refine collect hall ?_ (by rw [contains_core, hcore]) (by rw [children_core, hcore]) ?_
    · refine List.nodup_append.2 ⟨hroots.nodup hg.nodup, hnd, ?_⟩
      rintro n hn _ hm rfl
      exact hg.not_mem (hlive n hm) (hroots.mem hn)
    · exact fun n hn => hg.holds.parent_root (hids ▸ hn)

theorem graftAll {t : Tree} {loose : List NodeId} {p : NodeId} (h : t.Linked loose)
    (hnd : loose.Nodup) (hl : ∀ n ∈ loose, t.contains n = true) (hp : t.contains p = true)
    (hup : t.parent p = none) (i : Nat) (bs : List (Branch NodeKind)) :
    (t.graftAll p i bs).1.Linked ((t.graftAll p i bs).2 ++ loose) := by
  match bs with
  | [] =>
    rw [Tree.graftAll]
    exact h
  | b :: bs =>
    have hlinked := h.graft hnd hl b
    obtain ⟨c, hid, hg, -⟩ := h.accounted.grows_graft b
    obtain ⟨u, id, hu⟩ : ∃ u id, t.graft b = (u, id) := ⟨_, _, rfl⟩
    rw [hu] at hlinked hid hg
    replace hid : c.label = id := hid
    have hself : u.contains id = true := hid ▸ hg.holds.contains_label
    have hnone : u.parent id = none := hid ▸ hg.holds.parent_label
    have hne : p ≠ id := fun he => hg.not_mem hp (he ▸ hid ▸ c.label_mem_labels)
    have hup' : u.parent p = none := (parent_of_core (hg.core p hp)).trans hup
    have hadopt := hlinked.adopt hself (not_above_of_parent_none hup' hne) hnone i
    obtain ⟨v, hv⟩ : ∃ v, v = u.modify id fun n => { n with parent := some p, hint := i } :=
      ⟨_, rfl⟩
    rw [← hv] at hadopt
    have hlive (n : NodeId) : v.contains n = u.contains n :=
      hv ▸ contains_modify u id n fun _ => rfl
    have hid' : id ∉ loose := fun hm => hg.not_mem (hl id hm) (hid ▸ c.label_mem_labels)
    have hloose (n : NodeId) (hn : n ∈ id :: loose) : v.contains n = true := by
      rw [hlive]
      rcases List.mem_cons.1 hn with rfl | hn
      · exact hself
      · exact hg.contains (hl n hn)
    have hvp : v.parent p = none := by rw [hv, parent_modify u hself, if_neg hne, hup']
    have hall := hadopt.graftAll (List.nodup_cons.2 ⟨hid', hnd⟩) hloose
      ((hlive p).trans (hg.contains hp)) hvp (i + 1) bs
    obtain ⟨w, ids, hw⟩ : ∃ w ids, v.graftAll p (i + 1) bs = (w, ids) := ⟨_, _, rfl⟩
    rw [hw] at hall
    simp only [Tree.graftAll, hu, ← hv, hw]
    exact hall.of_perm List.perm_middle

end

end Linked

inductive Edit where
  | create (kind : NodeKind)
  | append (parent id : NodeId)
  | insertBefore (reference id : NodeId)
  | detach (id : NodeId)
  | remove (id : NodeId)
  | removeRange (first stop : NodeId)
  | removeBetween (start stop : NodeId)
  | moveChildren (source target : NodeId) (before : Option NodeId)
  | moveChildrenBefore (source reference : NodeId)
  | setKind (id : NodeId) (kind : NodeKind)
  | setText (id : NodeId) (content : String)
  | setAttribute (id : NodeId) (name value : String)
  | removeAttribute (id : NodeId) (name : String)
  | importFrom (source : Tree) (root : NodeId)

/-- The arena after a change; what the operation answers is left out. -/
def Edit.apply (t : Tree) : Edit → Tree
  | .create kind => (t.create kind).1
  | .append parent id => t.append parent id
  | .insertBefore reference id => (t.insertBefore reference id).1
  | .detach id => t.detach id
  | .remove id => t.remove id
  | .removeRange first stop => (t.removeRange first stop).1
  | .removeBetween start stop => (t.removeBetween start stop).1
  | .moveChildren source target before => t.moveChildren source target before
  | .moveChildrenBefore source reference => (t.moveChildrenBefore source reference).1
  | .setKind id kind => t.setKind id kind
  | .setText id content => (t.setText id content).1
  | .setAttribute id name value => (t.setAttribute id name value).1
  | .removeAttribute id name => (t.removeAttribute id name).1
  | .importFrom source root => (t.importFrom source root).1

/-- A change names live nodes and attaches none under itself or a node below it. -/
def Edit.Allowed (t : Tree) : Edit → Prop
  | .create _ => True
  | .append parent id => t.contains parent ∧ t.contains id ∧ ¬ t.Above id parent
  | .insertBefore reference id =>
    t.contains reference ∧ t.contains id ∧ ∀ p, t.parent reference = some p → ¬ t.Above id p
  | .detach id | .remove id | .setKind id _ | .setText id _ | .setAttribute id _ _
  | .removeAttribute id _ => t.contains id
  | .removeRange first stop => t.contains first ∧ t.contains stop
  | .removeBetween start stop => t.contains start ∧ t.contains stop
  | .moveChildren source target before =>
    t.contains source ∧ t.contains target ∧ (∀ b, before = some b → t.contains b) ∧
      ∀ id ∈ t.children source, ¬ t.Above id target
  | .moveChildrenBefore source reference =>
    t.contains source ∧ t.contains reference ∧
      ∀ p, t.parent reference = some p → ∀ id ∈ t.children source, ¬ t.Above id p
  | .importFrom source root => source.contains root

def edit (t : Tree) (es : List Edit) : Tree := es.foldl Edit.apply t

/-- Each change of a list is allowed when its turn comes. -/
def Permits (t : Tree) : List Edit → Prop
  | [] => True
  | e :: es => e.Allowed t ∧ (e.apply t).Permits es

theorem linked_empty : ({} : Tree).Linked [] where
  owned p id hm := by simp [children, node] at hm
  listed id p hp := by simp [parent, node] at hp
  nodup p := by simp [children, node]
  grounded id := .intro id fun p hp => by simp [parent, node] at hp
  accounted := ⟨List.nodup_nil, fun id => by simp, rfl⟩

theorem Linked.apply {e : Edit} (h : t.Linked []) (ha : e.Allowed t) : (e.apply t).Linked [] := by
  cases e with
  | create kind => exact h.create kind
  | append parent id => exact h.append ha.2.1 ha.1 ha.2.2
  | insertBefore reference id => exact h.insertBefore ha.2.1 ha.2.2
  | detach id => exact (h.detach List.not_mem_nil).1
  | remove id => exact h.remove List.not_mem_nil
  | removeRange first stop => exact h.removeRange
  | removeBetween start stop => exact h.removeBetween
  | moveChildren source target before => exact h.moveChildren ha.1 ha.2.1 ha.2.2.2
  | moveChildrenBefore source reference => exact h.moveChildrenBefore ha.1 ha.2.2
  | setKind id kind => exact h.setKind ha kind
  | setText id content => exact h.setText ha content
  | setAttribute id name value => exact h.setAttribute ha name value
  | removeAttribute id name => exact h.removeAttribute ha name
  | importFrom source root => exact h.graft List.nodup_nil (by simp) _

theorem Linked.edit {es : List Edit} (h : t.Linked []) (hp : t.Permits es) :
    (t.edit es).Linked [] := by
  induction es generalizing t with
  | nil => exact h
  | cons e es ih => exact ih (h.apply hp.1) hp.2

theorem Linked.wellFormed (h : t.Linked []) : t.WellFormed where
  listed id p _ hp := by
    have hm := (h.listed id p hp).2 List.not_mem_nil
    exact ⟨(h.owned p id hm).2.1, List.count_eq_one_of_mem (h.nodup p) hm⟩
  owned p id _ hm := ⟨h.contains_of_mem hm, (h.owned p id hm).1⟩
  grounded := h.grounded
  free_nodup := h.accounted.free_nodup
  mem_free id := by rw [h.accounted.mem_free, Bool.not_eq_true]
  size_eq := h.accounted.size_eq

/-- Whatever is built from nothing by allowed changes is well-formed, and no link leads to a slot
that waits to be used again. -/
theorem wellFormed_edit {es : List Edit} (h : ({} : Tree).Permits es) :
    (({} : Tree).edit es).WellFormed ∧
      ∀ id, (({} : Tree).edit es).contains id = false → ∀ p, id ∉ (({} : Tree).edit es).children p := by
  have hl := linked_empty.edit h
  refine ⟨hl.wellFormed, fun id hd p hm => ?_⟩
  rw [hl.contains_of_mem hm] at hd
  cases hd

/-- A list of one item is built, another item is copied in front of it and gives up its text, and
its slot is used again. -/
def rearranging : List Edit :=
  [.create (.element "ul" []), .create (.element "li" []), .create (.text "a"),
    .append ⟨0⟩ ⟨1⟩, .append ⟨1⟩ ⟨2⟩,
    .importFrom (({} : Tree).edit [.create (.element "li" []), .create (.text "b"),
      .append ⟨0⟩ ⟨1⟩]) ⟨0⟩,
    .insertBefore ⟨1⟩ ⟨3⟩, .moveChildren ⟨3⟩ ⟨1⟩ (some ⟨2⟩), .setText ⟨2⟩ "c",
    .removeRange ⟨3⟩ ⟨1⟩, .create (.comment "d")]

theorem wellFormed_rearranging :
    ({} : Tree).Permits rearranging ∧ (({} : Tree).edit rearranging).WellFormed ∧
      ∀ id, (({} : Tree).edit rearranging).contains id = false →
        ∀ p, id ∉ (({} : Tree).edit rearranging).children p := by
  have h : ({} : Tree).Permits rearranging := by
    refine ⟨trivial, trivial, trivial, ⟨by decide, by decide, ?_⟩, ⟨by decide, by decide, ?_⟩, ?_,
      ⟨by decide +kernel, by decide +kernel, fun p hp => ?_⟩,
      ⟨by decide +kernel, by decide +kernel, ?_, fun id hid => ?_⟩, ?_,
      ⟨by decide +kernel, by decide +kernel⟩, trivial, trivial⟩
    · exact not_above_of_parent_none (by decide) (by decide)
    · exact not_above_of_parent_some (q := ⟨0⟩) (by decide) (by decide)
        (not_above_of_parent_none (by decide) (by decide))
    · change Tree.contains _ _ = true
      decide +kernel
    · have hp0 : p = ⟨0⟩ := Option.some.inj (hp.symm.trans (by decide +kernel))
      rw [hp0]
      exact not_above_of_parent_none (by decide +kernel) (by decide)
    · rintro b ⟨⟩
      decide +kernel
    · have hc : (({} : Tree).edit (rearranging.take 7)).children ⟨3⟩ = [⟨4⟩] := by decide +kernel
      change id ∈ (({} : Tree).edit (rearranging.take 7)).children ⟨3⟩ at hid
      rw [hc, List.mem_singleton] at hid
      rw [hid]
      exact not_above_of_parent_some (q := ⟨0⟩) (by decide +kernel) (by decide)
        (not_above_of_parent_none (by decide +kernel) (by decide))
    · change Tree.contains _ _ = true
      decide +kernel
  exact ⟨h, wellFormed_edit h⟩

namespace Accounted

theorem setKind (h : t.Accounted) (id : NodeId) (kind : NodeKind) : (t.setKind id kind).Accounted := by
  refine (h.modify id ?_).touched
  exact fun _ => rfl

theorem linkAll (h : t.Accounted) (p : NodeId) (ids : List NodeId) (i : Nat) :
    (t.linkAll p ids i).Accounted := by
  induction ids generalizing t i with
  | nil => exact h
  | cons id ids ih => exact ih (h.link p id i) (i + 1)

theorem detach (h : t.Accounted) (id : NodeId) : (t.detach id).Accounted := by
  unfold Tree.detach
  split
  · refine ((h.modify _ ?_).modify id ?_).touched <;> exact fun _ => rfl
  · exact h

theorem release (h : t.Accounted) (ids : List NodeId) : (t.release ids).Accounted := by
  fun_induction Tree.release t ids with
  | case1 => exact h
  | case2 t id ids below hl ih => exact ih (h.bury hl)
  | case3 t id ids hl ih => exact ih h

theorem remove (h : t.Accounted) (id : NodeId) : (t.remove id).Accounted :=
  (h.detach id).release [id]

theorem removeAll (h : t.Accounted) (ids : List NodeId) : (t.removeAll ids).Accounted := by
  induction ids generalizing t with
  | nil => exact h
  | cons id ids ih =>
    refine ih ((h.modify id ?_).remove id)
    exact fun _ => rfl

theorem removeRange (h : t.Accounted) (first stop : NodeId) :
    (t.removeRange first stop).1.Accounted := by
  unfold Tree.removeRange
  split
  · exact h
  · split
    · exact h.remove first
    · refine (h.modify _ ?_).touched.removeAll _
      exact fun _ => rfl

theorem moveChildren (h : t.Accounted) (source target : NodeId) (before : Option NodeId) :
    (t.moveChildren source target before).Accounted := by
  simp only [Tree.moveChildren]
  split
  · exact h
  · refine ((h.modify source ?_).linkAll target _ _).touched
    exact fun _ => rfl

/-- No operation loses a slot, whatever nodes it is given. -/
theorem apply (h : t.Accounted) (e : Edit) : (e.apply t).Accounted := by
  cases e with
  | create kind => exact (h.create kind).accounted
  | append p id => exact ((h.detach id).link p id _).touched
  | insertBefore reference id =>
    simp only [Edit.apply, Tree.insertBefore]
    split
    · exact ((h.detach id).link _ id _).touched
    · exact h.detach id
  | detach id => exact h.detach id
  | remove id => exact h.remove id
  | removeRange first stop => exact h.removeRange first stop
  | removeBetween start stop =>
    simp only [Edit.apply, Tree.removeBetween]
    split
    · split
      · exact h
      · exact h.removeRange _ stop
    · exact h
  | moveChildren source target before => exact h.moveChildren source target before
  | moveChildrenBefore source reference =>
    simp only [Edit.apply, Tree.moveChildrenBefore]
    split
    · exact h.moveChildren source _ _
    · exact h
  | setKind id kind => exact h.setKind id kind
  | setText id content =>
    simp only [Edit.apply, Tree.setText]
    split
    · exact h.setKind id _
    · exact h
  | setAttribute id name value =>
    simp only [Edit.apply, Tree.setAttribute]
    split
    · exact h.setKind id _
    · exact h
  | removeAttribute id name =>
    simp only [Edit.apply, Tree.removeAttribute]
    split
    · split
      · exact h.setKind id _
      · exact h
    · exact h
  | importFrom source root =>
    obtain ⟨c, -, hg, -⟩ := h.grows_graft (source.content root)
    exact hg.accounted

end Accounted

/-- The arena of whatever is built from nothing is accounted for, whether or not the changes were
allowed. -/
theorem accounted_edit (es : List Edit) : (({} : Tree).edit es).Accounted := by
  suffices h : ∀ t : Tree, t.Accounted → (t.edit es).Accounted from h {} linked_empty.accounted
  induction es with
  | nil => exact fun t h => h
  | cons e es ih => exact fun t h => ih _ (h.apply e)

end LiveMarkup.Tree
