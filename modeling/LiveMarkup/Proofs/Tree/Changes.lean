import LiveMarkup.Proofs.Tree.Stretch
import LiveMarkup.Tree.Import

set_option autoImplicit false

/-!
The operations that change a stretch of siblings: taking branches off its end, putting new branches
behind its last one, and editing a node of it. Each one is an exchange.
-/

namespace LiveMarkup

open Branch (labelsOfAll)

namespace Tree

variable {t t' t'' : Tree} {p stop : NodeId} {before after : List NodeId}
  {f : List (Branch NodeId)}

/-- New nodes have come into being, and every node that there was is kept. -/
structure Adds (t t' : Tree) (ids : List NodeId) : Prop where
  fresh : ∀ n ∈ ids, t.contains n = false
  core : ∀ n, t.contains n = true → t'.core n = t.core n
  live : ∀ n, t'.contains n = true → n ∈ ids ∨ t.contains n = true
  accounted : t'.Accounted

namespace Adds

variable {ids jds : List NodeId}

theorem contains (h : Adds t t' ids) {n : NodeId} (hl : t.contains n = true) :
    t'.contains n = true :=
  (contains_of_core (h.core n hl)).trans hl

theorem not_mem (h : Adds t t' ids) {n : NodeId} (hl : t.contains n = true) : n ∉ ids := fun hm => by
  simp [h.fresh n hm] at hl

theorem trans (h : Adds t t' ids) (h' : Adds t' t'' jds) : Adds t t'' (ids ++ jds) where
  fresh n hn := by
    rcases List.mem_append.1 hn with hn | hn
    · exact h.fresh n hn
    · by_contra hl
      exact h'.not_mem (h.contains (Bool.not_eq_false _ ▸ hl)) hn
  core n hl := (h'.core n (h.contains hl)).trans (h.core n hl)
  live n hl := by
    rw [List.mem_append]
    rcases h'.live n hl with hn | hl
    · exact .inl (.inr hn)
    · exact (h.live n hl).imp .inl id
  accounted := h'.accounted

/-- What has come into being is exchanged below one of its nodes. -/
theorem exchange {root : NodeId} {old new : List NodeId} (h : Adds t t' (root :: old))
    (hx : Exchange t' t'' root old new) (hroot : t'.contains root = true) :
    Adds t t'' (root :: new) where
  fresh n hn := by
    rcases List.mem_cons.1 hn with rfl | hn
    · exact h.fresh n List.mem_cons_self
    · rcases hx.fresh n hn with ho | hd
      · exact h.fresh n (List.mem_cons_of_mem _ ho)
      · by_contra hl
        rw [Bool.not_eq_false] at hl
        rw [h.contains hl] at hd
        cases hd
  core n hl := by
    have hn := h.not_mem hl
    rw [List.mem_cons, not_or] at hn
    rw [hx.core_other n (h.contains hl) hn.2 hn.1, h.core n hl]
  live n hl := by
    rcases hx.live n hl with hn | ⟨hl, hn⟩
    · exact .inl (List.mem_cons_of_mem _ hn)
    · rcases h.live n hl with hm | hl
      · rcases List.mem_cons.1 hm with rfl | hm
        · exact .inl List.mem_cons_self
        · exact absurd hm hn
      · exact .inr hl
  accounted := hx.accounted

end Adds

/-- A detached branch of new nodes has come into being. -/
structure Grows (t t' : Tree) (b : Branch NodeId) : Prop extends Adds t t' b.labels where
  holds : t'.Holds none b
  nodup : b.labels.Nodup

theorem Creates.adds {id : NodeId} {kind : NodeKind} (h : Creates t t' id kind) :
    Adds t t' [id] where
  fresh n hn := List.mem_singleton.1 hn ▸ h.fresh
  core n hl := h.core_other n (ne_of_contains hl h.fresh)
  live n hl := by
    by_cases hn : n = id
    · exact .inl (by simp [hn])
    · rw [contains_core, h.core_other n hn] at hl
      exact .inr hl
  accounted := h.accounted

theorem Accounted.grows_create (h : t.Accounted) (kind : NodeKind) :
    Grows t (t.create kind).1 (.node (t.create kind).2 []) := by
  have hc := h.create kind
  refine ⟨hc.adds, ?_, by simp⟩
  simp [contains_core, parent_core, children_core, hc.core_self]

theorem Accounted.kind_create (h : t.Accounted) (kind : NodeKind) :
    (t.create kind).1.kind (t.create kind).2 = kind := by
  rw [kind_core, (h.create kind).core_self]

namespace Stretch

/-- The end of a stretch is cut off. -/
theorem cut {b : Branch NodeId} {g : List (Branch NodeId)}
    (h : Stretch t p before (f ++ b :: g) (stop :: after)) (ha : t.Accounted) :
    Exchange t (t.removeRange b.label stop).1 p (labelsOfAll (f ++ b :: g)) (labelsOfAll f) ∧
      Stretch (t.removeRange b.label stop).1 p before f (stop :: after) ∧
      ∀ n ∈ labelsOfAll f, (t.removeRange b.label stop).1.core n = t.core n := by
  have hh := holdsAll_append.1 h.holds
  have hn := h.nodup_labels
  have hp := h.owner_not_mem
  rw [Branch.labelsOfAll_append] at hn hp
  obtain ⟨hnf, hng, hd⟩ := List.nodup_append.1 hn
  rw [List.mem_append, not_or] at hp
  have hs := h.sides stop (by simp)
  have hchildren : t.children p =
      (before ++ f.map Branch.label) ++ (b :: g).map Branch.label ++ stop :: after := by
    simp [h.children]
  have hcut := cuts_removeRange ha h.live hh.2 hs.2 hchildren h.nodup_children hng hp.2
  have hx : Exchange t (t.removeRange b.label stop).1 p (labelsOfAll (f ++ b :: g))
      (labelsOfAll f) := by
    refine ⟨?_, ?_, ?_, ?_, hcut.accounted⟩
    · rw [children_core, hcut.core_parent]
    · intro n _ hm hne
      rw [Branch.labelsOfAll_append, List.mem_append, not_or] at hm
      exact hcut.core_other n hm.2 hne
    · exact fun n hm => .inl (by simp [hm])
    · intro n hl
      by_cases hg : n ∈ labelsOfAll (b :: g)
      · rw [contains_core, hcut.gone n hg] at hl
        cases hl
      by_cases hf : n ∈ labelsOfAll f
      · exact .inl hf
      refine .inr ⟨?_, by simpa [hf] using hg⟩
      by_cases hnp : n = p
      · rw [hnp]
        exact h.live
      · rwa [contains_core, hcut.core_other n hg hnp] at hl
  have hkept : ∀ n ∈ labelsOfAll f, (t.removeRange b.label stop).1.core n = t.core n :=
    fun n hm => hcut.core_other n (fun hg => hd n hm n hg rfl) fun he => hp.1 (he ▸ hm)
  refine ⟨hx, h.of_exchange hx ?_ (hh.1.of_core hkept) hnf, hkept⟩
  rw [children_core, hcut.core_parent]

/-- A stretch is emptied. -/
theorem clear {start : NodeId} (h : Stretch t p (before ++ [start]) f (stop :: after))
    (ha : t.Accounted) :
    Exchange t (t.removeBetween start stop).1 p (labelsOfAll f) [] ∧
      Stretch (t.removeBetween start stop).1 p (before ++ [start]) [] (stop :: after) := by
  have hs := h.sides start (by simp)
  match f with
  | [] =>
    have hnext : t.nextSibling start = some stop :=
      nextSibling_of_children hs.2 (by rw [h.children]; simp; rfl) h.nodup_children
    simp only [removeBetween, hnext, if_true]
    exact ⟨.refl ha p _, h⟩
  | b :: g =>
    have hnext : t.nextSibling start = some b.label :=
      nextSibling_of_children hs.2 (by rw [h.children]; simp; rfl) h.nodup_children
    have hne : b.label ≠ stop := by
      rintro rfl
      exact h.side_not_mem (x := b.label) (by simp)
        (List.mem_append_left _ b.label_mem_labels)
    simp only [removeBetween, hnext, hne, if_false]
    obtain ⟨hx, hs, -⟩ := Stretch.cut (f := []) h ha
    exact ⟨hx, hs⟩

/-- A stretch is kept by whatever keeps the live nodes. -/
theorem of_core (h : Stretch t p before f after)
    (hc : ∀ n, t.contains n = true → t'.core n = t.core n) : Stretch t' p before f after where
  live := (contains_of_core (hc p h.live)).trans h.live
  children := (children_of_core (hc p h.live)).trans h.children
  holds := h.holds.of_core fun n hn => hc n (h.holds.contains hn)
  sides x hx := by
    have hs := h.sides x hx
    exact ⟨(contains_of_core (hc x hs.1)).trans hs.1, (parent_of_core (hc x hs.1)).trans hs.2⟩
  nodup := h.nodup

end Stretch

/-- Branches of new nodes come in at the end of a stretch, linked in one step. -/
theorem Stretch.extend {b : Branch NodeId} {g : List (Branch NodeId)} {rest : List NodeId}
    (h : Stretch t p before f after) (hg : Grows t t' b)
    (hb : ∀ n, n ∈ b.labels ↔ n ∈ rest ∨ n ∈ labelsOfAll g) (hng : (labelsOfAll g).Nodup)
    (hparent : t''.core p = { t.core p with
      children := before ++ (f ++ g).map Branch.label ++ after })
    (hholds : t''.HoldsAll (some p) g) (hrest : ∀ n ∈ rest, t''.contains n = false)
    (hother : ∀ n, n ∉ b.labels → n ≠ p → t''.core n = t'.core n) (ha : t''.Accounted) :
    Exchange t t'' p (labelsOfAll f) (labelsOfAll (f ++ g)) ∧
      Stretch t'' p before (f ++ g) after := by
  have hlive {n : NodeId} (hl : t.contains n = true) : n ∉ b.labels := hg.not_mem hl
  have hkeep {n : NodeId} (hl : t.contains n = true) (hne : n ≠ p) : t''.core n = t.core n := by
    rw [hother n (hlive hl) hne, hg.core _ hl]
  have hx : Exchange t t'' p (labelsOfAll f) (labelsOfAll (f ++ g)) := by
    refine ⟨?_, fun n hl _ hne => hkeep hl hne, ?_, ?_, ha⟩
    · rw [children_core, hparent]
    · intro n hm
      rw [Branch.labelsOfAll_append, List.mem_append] at hm
      exact hm.imp id fun hm => hg.fresh n ((hb n).2 (.inr hm))
    · intro n hl
      rw [Branch.labelsOfAll_append, List.mem_append]
      by_cases hf : n ∈ labelsOfAll f
      · exact .inl (.inl hf)
      by_cases hm : n ∈ b.labels
      · rcases (hb n).1 hm with hr | hm
        · simp [hrest n hr] at hl
        · exact .inl (.inr hm)
      refine .inr ⟨?_, hf⟩
      by_cases hnp : n = p
      · rw [hnp]
        exact h.live
      · rw [contains_core, hother n hm hnp] at hl
        exact (hg.live n hl).resolve_left hm
  refine ⟨hx, h.of_exchange hx ?_ ?_ ?_⟩
  · rw [children_core, hparent]
  · rw [holdsAll_append]
    refine ⟨h.holds.of_core fun n hm => hkeep (h.holds.contains hm) ?_, hholds⟩
    exact fun he => h.owner_not_mem (he ▸ hm)
  · rw [Branch.labelsOfAll_append]
    refine List.nodup_append.2 ⟨h.nodup_labels, hng, ?_⟩
    rintro n hm _ hm' rfl
    exact hlive (h.holds.contains hm) ((hb n).2 (.inr hm'))

/-- A detached branch is linked behind the last branch of a stretch. -/
theorem Stretch.put {b : Branch NodeId} (h : Stretch t p before f after) (hg : Grows t t' b)
    (hlink : Links t' t'' p b.label (before ++ f.map Branch.label) after) :
    Exchange t t'' p (labelsOfAll f) (labelsOfAll (f ++ [b])) ∧
      Stretch t'' p before (f ++ [b]) after ∧ ∀ n, t''.kind n = t'.kind n := by
  have hroot := b.label_mem_labels
  have hp : p ∉ b.labels := fun hm => by simpa [hg.fresh _ hm] using h.live
  have hlabels : ∀ n, n ∈ b.labels ↔ n ∈ ([] : List NodeId) ∨ n ∈ labelsOfAll [b] := by simp
  obtain ⟨hx, hs⟩ := h.extend hg hlabels (by simpa using hg.nodup)
    (by rw [hlink.core_parent, hg.core _ h.live]; simp)
    (by
      rw [holdsAll_cons]
      refine ⟨hg.holds.move hg.nodup hlink.core_self fun n hm hn => ?_, trivial⟩
      exact hlink.core_other n hn fun he => hp (he ▸ hm))
    (by simp)
    (fun n hm hne => hlink.core_other n (fun he => hm (he ▸ hroot)) hne) hlink.accounted
  refine ⟨hx, hs, fun n => ?_⟩
  by_cases hn : n = b.label
  · rw [kind_core, hn, hlink.core_self]
    rfl
  by_cases hnp : n = p
  · rw [kind_core, hnp, hlink.core_parent]
    rfl
  · exact kind_of_core (hlink.core_other n hn hnp)

/-- A detached branch is put at the end of a stretch, in front of what follows. -/
theorem Stretch.insert {b : Branch NodeId} (h : Stretch t p before f (stop :: after))
    (hg : Grows t t' b) :
    Exchange t (t'.insertBefore stop b.label).1 p (labelsOfAll f) (labelsOfAll (f ++ [b])) ∧
      Stretch (t'.insertBefore stop b.label).1 p before (f ++ [b]) (stop :: after) ∧
      ∀ n, (t'.insertBefore stop b.label).1.kind n = t'.kind n := by
  have h' := h.of_core fun n hl => hg.core _ hl
  have hne : b.label ≠ p := fun he => by simpa [hg.fresh _ b.label_mem_labels, ← he] using h.live
  exact h.put hg (links_insertBefore hg.accounted h'.live hg.holds.contains_label
    hg.holds.parent_label hne (h'.sides stop (by simp)).2 h'.children h'.nodup_children)

/-- A detached branch is put at the end of a stretch, as the last child. -/
theorem Stretch.append {b : Branch NodeId} (h : Stretch t p before f []) (hg : Grows t t' b) :
    Exchange t (t'.append p b.label) p (labelsOfAll f) (labelsOfAll (f ++ [b])) ∧
      Stretch (t'.append p b.label) p before (f ++ [b]) [] ∧
      ∀ n, (t'.append p b.label).kind n = t'.kind n := by
  have h' := h.of_core fun n hl => hg.core _ hl
  have hne : b.label ≠ p := fun he => by simpa [hg.fresh _ b.label_mem_labels, ← he] using h.live
  have hc : t'.children p = before ++ f.map Branch.label := by simpa using h'.children
  have hlink := links_append hg.accounted h'.live hg.holds.contains_label hg.holds.parent_label hne
  exact h.put hg (hc ▸ hlink)

theorem findIdx?_append_cons {x : NodeId} {before after : List NodeId} (h : x ∉ before) :
    (before ++ x :: after).findIdx? (· == x) = some before.length := by
  rw [List.findIdx?_append, List.findIdx?_eq_none_iff.2]
  · simp [List.findIdx?_cons]
  · intro y hy
    simpa using fun he : y = x => h (he ▸ hy)

/-- What moving the children of a node right before another one does, once the node has let them
go. -/
theorem linksAll_moveChildren {source reference : NodeId} (ha : t.Accounted)
    (hs : t.contains source = true) (hp : t.contains p = true) (hne : p ≠ source)
    (hr : t.parent reference = some p) (hc : t.children p = before ++ reference :: after)
    (hn : (t.children p).Nodup) (hl : ∀ n ∈ t.children source, t.contains n = true)
    (hnp : p ∉ t.children source) (hnd : (t.children source).Nodup) :
    ∃ u : Tree, u.core source = { t.core source with children := [] } ∧
      (∀ n, n ≠ source → u.core n = t.core n) ∧
      LinksAll u (t.moveChildrenBefore source reference).1 p before (t.children source)
        (reference :: after) := by
  simp only [moveChildrenBefore, hr, moveChildren]
  split
  · rename_i hempty
    have hnil : t.children source = [] := List.isEmpty_iff.1 hempty
    refine ⟨t, by rw [← hnil]; rfl, fun _ _ => rfl, ?_⟩
    have hkept : t.children p = before ++ [] ++ reference :: after := by rw [hc, List.append_nil]
    rw [hnil]
    exact ⟨by simp, by rw [← hkept]; rfl, fun _ _ _ => rfl, ha⟩
  · let drop : Node → Node := fun n => { n with children := [] }
    have hdrop : ∀ n, (drop n).live = n.live := fun _ => rfl
    obtain ⟨u, hu⟩ : ∃ u, u = t.modify source drop := ⟨_, rfl⟩
    have hother (n : NodeId) (hn : n ≠ source) : u.core n = t.core n := by
      rw [hu, core_modify_of_ne hn]
    have hlive (n : NodeId) : u.contains n = t.contains n := hu ▸ contains_modify t source n hdrop
    have hcp : u.children p = before ++ reference :: after :=
      (children_of_core (hother p hne)).trans hc
    have hreference : reference ∉ before := fun hm => by
      rw [hc] at hn
      exact (List.nodup_append.1 hn).2.2 reference hm reference List.mem_cons_self rfl
    have hidx : ((some reference).bind fun b => (u.children p).findIdx? (· == b)).getD
        (u.children p).length = before.length := by
      rw [Option.bind_some, hcp, findIdx?_append_cons hreference, Option.getD_some]
    have hlink := linksAll_linkAll (hu ▸ ha.modify source hdrop) ((hlive p).trans hp)
      (fun n hm => (hlive n).trans (hl n hm)) hnp hnd hcp
    refine ⟨u, ?_, hother, ?_⟩
    · rw [hu, core_modify_self hs]
      rfl
    · change LinksAll u (Tree.touched (linkAll (t.modify source drop) p (t.children source)
        (((some reference).bind fun b => ((t.modify source drop).children p).findIdx? (· == b)).getD
          ((t.modify source drop).children p).length))) p before _ _
      rw [← hu, hidx]
      exact ⟨hlink.core_self, hlink.core_parent, hlink.core_other, hlink.accounted.touched⟩

theorem linksAll_moveChildrenBefore {root : NodeId} {bs : List (Branch NodeId)}
    {up : Option NodeId} (h : Stretch t p before f (stop :: after)) (ha : t.Accounted)
    (hb : t.Holds up (.node root bs)) (hnd : (Branch.node root bs).labels.Nodup)
    (hp : p ∉ (Branch.node root bs).labels) :
    ∃ u : Tree, u.core root = { t.core root with children := [] } ∧
      (∀ n, n ≠ root → u.core n = t.core n) ∧
      LinksAll u (t.moveChildrenBefore root stop).1 p (before ++ f.map Branch.label)
        (bs.map Branch.label) (stop :: after) := by
  obtain ⟨hl, -, hch, hkids⟩ := hb
  have hroots {n : NodeId} (hm : n ∈ t.children root) : n ∈ labelsOfAll bs :=
    (Branch.roots_sublist bs).mem (hch ▸ hm)
  rw [Branch.labels_node, List.mem_cons, not_or] at hp
  rw [← hch]
  exact linksAll_moveChildren ha hl h.live hp.1 (h.sides stop (by simp)).2 h.children
    h.nodup_children (fun n hm => hkids.contains (hroots hm)) (fun hm => hp.2 (hroots hm))
    (hch ▸ (Branch.roots_sublist bs).nodup (List.nodup_cons.1 hnd).2)

/-- The children of a detached node are put at the end of a stretch and the node is removed. -/
theorem Stretch.unpack {root : NodeId} {bs : List (Branch NodeId)}
    (h : Stretch t p before f (stop :: after)) (hg : Grows t t' (.node root bs)) :
    let u := (t'.moveChildrenBefore root stop).1.remove root
    Exchange t u p (labelsOfAll f) (labelsOfAll (f ++ bs)) ∧
      Stretch u p before (f ++ bs) (stop :: after) ∧
      ∀ n ∈ labelsOfAll bs, u.kind n = t'.kind n := by
  have h' := h.of_core fun n hl => hg.core _ hl
  have hp : p ∉ (Branch.node root bs).labels := fun hm => by simpa [hg.fresh _ hm] using h.live
  obtain ⟨v, hroot, hother, hlink⟩ :=
    linksAll_moveChildrenBefore h' hg.accounted hg.holds hg.nodup hp
  obtain ⟨w, hw⟩ : ∃ w, w = (t'.moveChildrenBefore root stop).1 := ⟨_, rfl⟩
  rw [← hw] at hlink
  have hnd := List.nodup_cons.1 hg.nodup
  rw [Branch.labels_node, List.mem_cons, not_or] at hp
  have hroots : root ∉ bs.map Branch.label := fun hm =>
    hnd.1 ((Branch.roots_sublist bs).mem hm)
  have hwroot : w.core root = { t'.core root with children := [] } := by
    rw [hlink.core_other root hroots (Ne.symm hp.1), hroot]
  have hheld : w.Holds none (.node root []) := by
    obtain ⟨hl, hup, -, -⟩ := hg.holds
    refine ⟨?_, ?_, ?_, trivial⟩
    · rw [contains_core, hwroot]
      exact hl
    · rw [parent_core, hwroot]
      exact hup
    · rw [children_core, hwroot]
      rfl
  have hfree : Frees w (w.remove root) [root] := frees_remove hlink.accounted hheld (by simp)
  have hcore (n : NodeId) (hn : n ≠ root) : (w.remove root).core n = w.core n :=
    hfree.core_other n (by simpa using hn)
  intro u
  have hu : u = w.remove root := by rw [hw]
  rw [hu]
  have hinner (n : NodeId) (hm : n ∈ labelsOfAll bs) (hn : n ∉ bs.map Branch.label) :
      (w.remove root).core n = t'.core n := by
    have hne : n ≠ root := fun he => hnd.1 (he ▸ hm)
    rw [hcore n hne, hlink.core_other n hn fun he => hp.2 (he ▸ hm), hother n hne]
  have houter (n : NodeId) (hm : n ∈ bs.map Branch.label) :
      (w.remove root).core n = { t'.core n with parent := some p } := by
    have hne : n ≠ root := fun he => hroots (he ▸ hm)
    rw [hcore n hne, hlink.core_self n hm, hother n hne]
  have hlabels : ∀ n, n ∈ (Branch.node root bs).labels ↔ n ∈ [root] ∨ n ∈ labelsOfAll bs := by simp
  obtain ⟨hx, hs⟩ := h.extend hg hlabels hnd.2
    (by
      rw [hcore p hp.1, hlink.core_parent, hother p hp.1, hg.core _ h.live]
      simp)
    (hg.holds.2.2.2.move hnd.2 houter hinner)
    (by
      intro n hm
      rw [contains_core, hfree.gone n hm]
      rfl)
    (by
      intro n hm hne
      rw [Branch.labels_node, List.mem_cons, not_or] at hm
      rw [hcore n hm.1, hlink.core_other n (fun hr => hm.2 ((Branch.roots_sublist bs).mem hr)) hne,
        hother n hm.1])
    hfree.accounted
  refine ⟨hx, hs, fun n hm => ?_⟩
  by_cases hr : n ∈ bs.map Branch.label
  · rw [kind_core, houter n hr]
    rfl
  · exact kind_of_core (hinner n hm hr)

/-- What changing the kind of one node does. -/
structure Edits (t t' : Tree) (id : NodeId) (kind : NodeKind) : Prop where
  core_self : t'.core id = { t.core id with kind }
  core_other : ∀ n, n ≠ id → t'.core n = t.core n
  accounted : t'.Accounted

theorem Accounted.edits_setKind {id : NodeId} (ha : t.Accounted) (hl : t.contains id = true)
    (kind : NodeKind) : Edits t (t.setKind id kind) id kind where
  core_self := by
    rw [setKind, core_touched, core_modify_self hl]
    rfl
  core_other n hn := by rw [setKind, core_touched, core_modify_of_ne hn]
  accounted := by
    have hlive : ∀ n : Node, ({ n with kind } : Node).live = n.live := fun _ => rfl
    exact (ha.modify id hlive).touched

theorem Accounted.edits_refl (ha : t.Accounted) (id : NodeId) : Edits t t id (t.kind id) :=
  ⟨rfl, fun _ _ => rfl, ha⟩

theorem Edits.kind_self {id : NodeId} {kind : NodeKind} (h : Edits t t' id kind) :
    t'.kind id = kind := by
  rw [kind_core, h.core_self]

theorem Edits.kind_other {id n : NodeId} {kind : NodeKind} (h : Edits t t' id kind) (hn : n ≠ id) :
    t'.kind n = t.kind n :=
  kind_of_core (h.core_other n hn)

theorem Edits.sameLinks {id : NodeId} {kind : NodeKind} (h : Edits t t' id kind) (n : NodeId) :
    SameLinks t t' n := by
  by_cases hn : n = id
  · subst hn
    refine ⟨?_, ?_, ?_⟩
    · rw [contains_core, h.core_self]; rfl
    · rw [parent_core, h.core_self]; rfl
    · rw [children_core, h.core_self]; rfl
  · exact sameLinks_of_core (h.core_other n hn)

/-- A node of a stretch is edited. -/
theorem Stretch.edit {id : NodeId} {kind : NodeKind} (h : Stretch t p before f after)
    (he : Edits t t' id kind) (hid : id ∈ labelsOfAll f) :
    Exchange t t' p (labelsOfAll f) (labelsOfAll f) ∧ Stretch t' p before f after := by
  have hne {n : NodeId} (hn : n ∉ labelsOfAll f) : n ≠ id := fun he => hn (he ▸ hid)
  have hp := he.core_other p (hne h.owner_not_mem)
  have hx : Exchange t t' p (labelsOfAll f) (labelsOfAll f) := by
    refine ⟨?_, fun n _ hn _ => he.core_other n (hne hn), fun n hn => .inl hn, ?_, he.accounted⟩
    · rw [children_of_core hp, hp]
      rfl
    · intro n hl
      by_cases hn : n ∈ labelsOfAll f
      · exact .inl hn
      · exact .inr ⟨(he.sameLinks n).1 ▸ hl, hn⟩
  exact ⟨hx, h.of_exchange hx ((children_of_core hp).trans h.children)
    (h.holds.of_links fun n _ => he.sameLinks n) h.nodup_labels⟩

end Tree

end LiveMarkup
