import LiveMarkup.Proofs.Tree.Tied
import LiveMarkup.Tree.Import

set_option autoImplicit false

/-!
Importing a subtree. The copy is a subtree of its own, made of numbers that named no live node, and
one map takes every node of the original to its copy: kinds, parents and children go along with it.
Nothing else in the arena changes.
-/

namespace LiveMarkup

open Branch (labelsOfAll mapAll)

namespace Branch

variable {α β γ : Type} {f : α → γ} {g : β → γ}

open Classical in
mutual

/-- Branches that look alike are the same but for the names of their nodes. -/
theorem exists_map [Nonempty β] {b : Branch α} {c : Branch β} (hn : b.labels.Nodup)
    (h : b.map f = c.map g) : ∃ m : α → β, b.map m = c := by
  match b, c with
  | .node a bs, .node x cs =>
    obtain ⟨ha, hn⟩ := List.nodup_cons.1 hn
    obtain ⟨m, hm⟩ := exists_mapAll hn (Branch.node.inj h).2
    refine ⟨Function.update m a x, ?_⟩
    rw [map_node, Function.update_self, ← hm]
    congr 1
    refine mapAll_congr fun i hi => Function.update_of_ne ?_ x m
    rintro rfl
    exact ha hi

theorem exists_mapAll [Nonempty β] {bs : List (Branch α)} {cs : List (Branch β)}
    (hn : (labelsOfAll bs).Nodup) (h : mapAll f bs = mapAll g cs) :
    ∃ m : α → β, mapAll m bs = cs := by
  match bs, cs with
  | [], [] => exact ⟨fun _ => Classical.arbitrary β, rfl⟩
  | b :: bs, c :: cs =>
    obtain ⟨hb, hbs, hdis⟩ := List.nodup_append.1 hn
    obtain ⟨m, hm⟩ := exists_map hb (List.cons.inj h).1
    obtain ⟨m', hm'⟩ := exists_mapAll hbs (List.cons.inj h).2
    refine ⟨fun i => if i ∈ b.labels then m i else m' i, ?_⟩
    rw [mapAll_cons, ← hm, ← hm']
    congr 1
    · exact map_congr fun i hi => if_pos hi
    · exact mapAll_congr fun i hi => if_neg fun hib => hdis i hib i hi rfl

end

end Branch

namespace Tree

variable {t t' source : Tree} {id p n : NodeId} {up : Option NodeId}

theorem Grows.contains_iff {b : Branch NodeId} (h : Grows t t' b) :
    t'.contains n = true ↔ t.contains n = true ∨ n ∈ b.labels :=
  ⟨fun hl => (h.live n hl).symm, fun hn => hn.elim h.contains h.holds.contains⟩

theorem Grows.size_eq {b : Branch NodeId} (h : Grows t t' b) (ha : t.Accounted) :
    t'.size = t.size + b.labels.length := by
  obtain ⟨ids, hn, hl, hsize⟩ := ha.exists_live
  have hnodup : (ids ++ b.labels).Nodup := by
    refine List.nodup_append.2 ⟨hn, h.nodup, ?_⟩
    rintro n hm _ hm' rfl
    exact h.not_mem ((hl n).1 hm) hm'
  have hlive (n : NodeId) : n ∈ ids ++ b.labels ↔ t'.contains n = true := by
    rw [List.mem_append, hl, h.contains_iff]
  rw [h.accounted.size_eq_length hnodup hlive, hsize, List.length_append]

mutual

/-- Grafting leaves slots as they are, but for those of new nodes. -/
theorem Accounted.core_graft {t : Tree} (h : t.Accounted) (b : Branch NodeKind) (n : NodeId) :
    (t.graft b).1.core n = t.core n ∨ (t.graft b).1.contains n = true := by
  match b with
  | .node kind bs =>
    have hc := h.create kind
    obtain ⟨u, id, hu⟩ : ∃ u id, t.create kind = (u, id) := ⟨_, _, rfl⟩
    rw [hu] at hc
    obtain ⟨cs, -, hg, -⟩ := hc.accounted.grows_graftAll id 0 bs
    have hrest := hc.accounted.core_graftAll id 0 bs n
    obtain ⟨v, ids, hv⟩ : ∃ v ids, u.graftAll id 0 bs = (v, ids) := ⟨_, _, rfl⟩
    rw [hv] at hg hrest
    simp only [graft, hu, hv]
    have hlive : (v.modify id fun n => { n with children := ids }).contains n = v.contains n :=
      contains_modify v id n fun _ => rfl
    rw [hlive]
    by_cases hn : n = id
    · rw [hn]
      exact .inr (hg.contains (by rw [contains_core, hc.core_self]))
    · rw [core_modify_of_ne hn, ← hc.core_other n hn]
      exact hrest

theorem Accounted.core_graftAll {t : Tree} (h : t.Accounted) (p : NodeId) (i : Nat)
    (bs : List (Branch NodeKind)) (n : NodeId) :
    (t.graftAll p i bs).1.core n = t.core n ∨ (t.graftAll p i bs).1.contains n = true := by
  match bs with
  | [] => exact .inl (by rw [graftAll])
  | b :: bs =>
    obtain ⟨c, hid, hg, -⟩ := h.grows_graft b
    have hfirst := h.core_graft b n
    obtain ⟨u, id, hu⟩ : ∃ u id, t.graft b = (u, id) := ⟨_, _, rfl⟩
    rw [hu] at hid hg hfirst
    replace hid : c.label = id := hid
    obtain ⟨v, hv⟩ : ∃ v, v = u.modify id fun n => { n with parent := some p, hint := i } :=
      ⟨_, rfl⟩
    have ha : v.Accounted := hv ▸ hg.accounted.modify id fun _ => rfl
    have hlive : v.contains n = u.contains n := hv ▸ contains_modify u id n fun _ => rfl
    obtain ⟨_, -, hgs, -⟩ := ha.grows_graftAll p (i + 1) bs
    have hrest := ha.core_graftAll p (i + 1) bs n
    simp only [graftAll, hu, ← hv]
    by_cases hn : u.contains n = true
    · exact .inr (hgs.contains (hlive.trans hn))
    · -- Only a dead slot is left to be looked at, and what is given a parent is live.
      have hne : n ≠ id := by
        rintro rfl
        exact hn (hid ▸ hg.holds.contains_label)
      have hvn : v.core n = u.core n := by rw [hv, core_modify_of_ne hne]
      rw [← hfirst.resolve_right hn, ← hvn]
      exact hrest

end

mutual

theorem mutations_graft (t : Tree) (b : Branch NodeKind) :
    (t.graft b).1.mutations = t.mutations := by
  match b with
  | .node kind bs =>
    have hc : (t.create kind).1.mutations = t.mutations := by
      rw [create]
      split <;> rfl
    rw [graft]
    exact (mutations_graftAll _ _ 0 bs).trans hc

theorem mutations_graftAll (t : Tree) (p : NodeId) (i : Nat) (bs : List (Branch NodeKind)) :
    (t.graftAll p i bs).1.mutations = t.mutations := by
  match bs with
  | [] => rw [graftAll]
  | b :: bs =>
    rw [graftAll]
    exact (mutations_graftAll _ p (i + 1) bs).trans (mutations_graft t b)

end

mutual

theorem Holds.listed {up : Option NodeId} {b : Branch NodeId} (h : t.Holds up b)
    (hnd : b.labels.Nodup) {n p : NodeId} (hn : n ∈ b.labels) (hp : t.parent n = some p) :
    n = b.label ∨ t.contains p = true ∧ (t.children p).count n = 1 := by
  match b with
  | .node id bs =>
    rcases List.mem_cons.1 hn with rfl | hn
    · exact .inl rfl
    · refine .inr ?_
      have hbs := (List.nodup_cons.1 hnd).2
      rcases h.2.2.2.listed hbs hn hp with hroot | hin
      · obtain rfl : id = p := Option.some.inj ((h.2.2.2.parent_root hroot).symm.trans hp)
        refine ⟨h.1, ?_⟩
        rw [h.2.2.1]
        exact List.count_eq_one_of_mem ((Branch.roots_sublist bs).nodup hbs) hroot
      · exact hin

theorem HoldsAll.listed {up : Option NodeId} {bs : List (Branch NodeId)} (h : t.HoldsAll up bs)
    (hnd : (labelsOfAll bs).Nodup) {n p : NodeId} (hn : n ∈ labelsOfAll bs)
    (hp : t.parent n = some p) :
    n ∈ bs.map Branch.label ∨ t.contains p = true ∧ (t.children p).count n = 1 := by
  match bs with
  | b :: bs =>
    obtain ⟨hb, hbs, -⟩ := List.nodup_append.1 hnd
    rcases List.mem_append.1 hn with hn | hn
    · exact (h.1.listed hb hn hp).imp_left fun he => List.mem_cons.2 (.inl he)
    · exact (h.2.listed hbs hn hp).imp_left (List.mem_cons_of_mem _)

end

mutual

theorem Holds.owned {up : Option NodeId} {b : Branch NodeId} (h : t.Holds up b) {n p : NodeId}
    (hp : p ∈ b.labels) (hn : n ∈ t.children p) : t.contains n = true ∧ t.parent n = some p := by
  match b with
  | .node id bs =>
    rcases List.mem_cons.1 hp with rfl | hp
    · rw [h.2.2.1] at hn
      exact ⟨h.2.2.2.contains ((Branch.roots_sublist bs).mem hn), h.2.2.2.parent_root hn⟩
    · exact h.2.2.2.owned hp hn

theorem HoldsAll.owned {up : Option NodeId} {bs : List (Branch NodeId)} (h : t.HoldsAll up bs)
    {n p : NodeId} (hp : p ∈ labelsOfAll bs) (hn : n ∈ t.children p) :
    t.contains n = true ∧ t.parent n = some p := by
  match bs with
  | b :: bs =>
    rcases List.mem_append.1 hp with hp | hp
    · exact h.1.owned hp hn
    · exact h.2.owned hp hn

end

theorem acc_of_above {a : NodeId} (h : t.Above a n)
    (ha : Acc (fun p c => t.parent c = some p) a) : Acc (fun p c => t.parent c = some p) n := by
  induction h using Relation.ReflTransGen.head_induction_on with
  | refl => exact ha
  | head hup _ ih => exact .intro _ fun q hq => Option.some.inj (hup.symm.trans hq) ▸ ih

/-- Where a branch of new nodes comes into being, its nodes stand as in the branch, and all others
where they stood. -/
theorem Tied.grows {b : Branch NodeId} (h : t.Tied []) (hg : Grows t t' b) : t'.Tied [] := by
  have hold {n : NodeId} (hl : t.contains n = true) : SameLinks t t' n :=
    sameLinks_of_core (hg.core n hl)
  have hnamed {n p : NodeId} (hn : t'.Names n p) :
      t'.contains p = true ∧ (t'.children p).count n = 1 := by
    obtain ⟨hl, hup⟩ := hn
    rcases hg.contains_iff.1 hl with hn | hn
    · obtain ⟨hp, hin⟩ := (h.stands_iff p n).2
        ⟨(hold hn).names_iff.1 ⟨hl, hup⟩, List.not_mem_nil⟩
      rw [(hold hp).2.2]
      exact ⟨hg.contains hp, List.count_eq_one_of_mem (h.nodup p hp) hin⟩
    · refine (hg.holds.listed hg.nodup hn hup).resolve_left ?_
      rintro rfl
      exact Option.some_ne_none p (hup.symm.trans hg.holds.parent_label)
  have hstanding {p n : NodeId} (hs : t'.Stands p n) : t'.Names n p := by
    obtain ⟨hp, hin⟩ := hs
    rcases hg.contains_iff.1 hp with hp | hp
    · have hn := ((h.stands_iff p n).1 ((hold hp).stands_iff.1 ⟨hg.contains hp, hin⟩)).1
      exact (hold hn.1).names_iff.2 hn
    · exact hg.holds.owned hp hin
  refine ⟨fun p n => ⟨fun hs => ⟨hstanding hs, List.not_mem_nil⟩, fun hn => ?_⟩, fun p hp => ?_⟩
  · obtain ⟨hp, hcount⟩ := hnamed hn.1
    exact ⟨hp, List.count_pos_iff.1 (hcount ▸ Nat.zero_lt_one)⟩
  · refine List.nodup_iff_count_le_one.2 fun n => ?_
    by_cases hin : n ∈ t'.children p
    · exact Nat.le_of_eq (hnamed (hstanding ⟨hp, hin⟩)).2
    · rw [List.count_eq_zero_of_not_mem hin]
      exact Nat.zero_le 1

theorem Tied.importFrom (h : t.Tied []) (ha : t.Accounted) (source : Tree) (root : NodeId) :
    (t.importFrom source root).1.Tied [] := by
  obtain ⟨_, -, hg, -⟩ := ha.grows_graft (source.content root)
  exact h.grows hg

/-- A well-formed arena stays so when a branch of new nodes comes into being, slots that are dead
then being as before. -/
theorem WellFormed.grows {b : Branch NodeId} (h : t.WellFormed) (hg : Grows t t' b)
    (hdead : ∀ n, t'.core n = t.core n ∨ t'.contains n = true) : t'.WellFormed := by
  have hcore (n : NodeId) (hn : n ∉ b.labels) : t'.core n = t.core n :=
    (hdead n).elim id fun hl => hg.core n ((hg.live n hl).resolve_left hn)
  have htied := h.tied.grows hg
  refine ⟨fun n p hl hup => ?_, fun p n hl hm => ((htied.stands_iff p n).1 ⟨hl, hm⟩).1, fun n => ?_,
    hg.accounted.free_nodup, fun n => by rw [hg.accounted.mem_free, Bool.not_eq_true],
    hg.accounted.size_eq⟩
  · obtain ⟨hp, hin⟩ := (htied.stands_iff p n).2 ⟨⟨hl, hup⟩, List.not_mem_nil⟩
    exact ⟨hp, List.count_eq_one_of_mem (htied.nodup p hp) hin⟩
  · induction h.grounded n with
    | intro n _ ih =>
      by_cases hn : n ∈ b.labels
      · refine acc_of_above (hg.holds.above hn) (.intro _ fun q hq => ?_)
        rw [hg.holds.parent_label] at hq
        cases hq
      · refine .intro n fun q hq => ih q ?_
        rwa [parent_of_core (hcore n hn)] at hq

/-- What importing does, `copy` taking every node of the original subtree to its copy. -/
structure Imports (t t' source : Tree) (id : NodeId) (copy : NodeId → NodeId) : Prop where
  /-- The copy has no parent. -/
  detached : t'.parent (copy id) = none
  /-- It is of the same kinds in the same shape. -/
  content : t'.content (copy id) = source.content id
  /-- In pre-order it is, place by place, what was copied. -/
  preorder : t'.preorder (copy id) = (source.preorder id).map copy
  injective : ∀ m ∈ source.preorder id, ∀ n ∈ source.preorder id, copy m = copy n → m = n
  kind : ∀ n ∈ source.preorder id, t'.kind (copy n) = source.kind n
  parent : ∀ n ∈ source.preorder id, n ≠ id → t'.parent (copy n) = (source.parent n).map copy
  children : ∀ n ∈ source.preorder id, t'.children (copy n) = (source.children n).map copy
  /-- No copy has the number of a node that was live before. -/
  fresh : ∀ n ∈ source.preorder id, t.contains (copy n) = false
  live : ∀ n, t'.contains n = true ↔ t.contains n = true ∨ n ∈ (source.preorder id).map copy
  /-- What was live before is as it was. -/
  kept : ∀ n, t.contains n = true →
    t'.kind n = t.kind n ∧ t'.parent n = t.parent n ∧ t'.children n = t.children n
  size : t'.size = t.size + (source.preorder id).length
  mutations : t'.mutations = t.mutations
  wellFormed : t'.WellFormed

mutual

/-- What is linked as the image of a branch is linked by the images of its links. -/
theorem Holds.children_map {up up' : Option NodeId} {b : Branch NodeId} {copy : NodeId → NodeId}
    (h : t.Holds up b) (h' : t'.Holds up' (b.map copy)) {n : NodeId} (hn : n ∈ b.labels) :
    t'.children (copy n) = (t.children n).map copy := by
  match b with
  | .node id bs =>
    rcases List.mem_cons.1 hn with rfl | hn
    · rw [h.2.2.1, h'.2.2.1, Branch.mapAll_eq_map, List.map_map, List.map_map]
      exact List.map_congr_left fun b _ => Branch.label_map copy b
    · exact h.2.2.2.children_map h'.2.2.2 hn

theorem HoldsAll.children_map {up up' : Option NodeId} {bs : List (Branch NodeId)}
    {copy : NodeId → NodeId} (h : t.HoldsAll up bs) (h' : t'.HoldsAll up' (mapAll copy bs))
    {n : NodeId} (hn : n ∈ labelsOfAll bs) :
    t'.children (copy n) = (t.children n).map copy := by
  match bs with
  | b :: bs =>
    rcases List.mem_append.1 hn with hn | hn
    · exact h.1.children_map h'.1 hn
    · exact h.2.children_map h'.2 hn

end

/-- Importing makes a copy that is isomorphic to the subtree at a live node and shares nothing with
what there was. -/
theorem importFrom_imports (ht : t.WellFormed) (hs : source.WellFormed)
    (hl : source.contains id = true) : ∃ copy : NodeId → NodeId,
      (t.importFrom source id).2 = copy id ∧ Imports t (t.importFrom source id).1 source id copy := by
  have hheld := hs.holds_branch hl
  have hnodup := hs.nodup_preorder hl
  obtain ⟨c, hc, hg, hkinds⟩ := ht.accounted.grows_graft (source.content id)
  obtain ⟨copy, rfl⟩ := Branch.exists_map hnodup hkinds.symm
  have hwell := ht.grows hg (ht.accounted.core_graft _)
  have hmutations := t.mutations_graft (source.content id)
  obtain ⟨u, hu⟩ : ∃ u, u = (t.graft (source.content id)).1 := ⟨_, rfl⟩
  rw [Branch.label_map, label_branch] at hc
  rw [← hu] at hg hkinds hwell hmutations
  have hlabels : ((source.branch id).map copy).labels = (source.preorder id).map copy :=
    Branch.labels_map copy _
  have hroot : ((source.branch id).map copy).label = copy id := by simp
  have hbranch : u.branch (copy id) = (source.branch id).map copy := by
    rw [← hroot]
    exact hg.holds.branch hg.nodup
  have hmem {n : NodeId} (hn : n ∈ source.preorder id) :
      copy n ∈ ((source.branch id).map copy).labels := hlabels ▸ List.mem_map_of_mem hn
  have hchildren {n : NodeId} (hn : n ∈ source.preorder id) :
      u.children (copy n) = (source.children n).map copy := hheld.children_map hg.holds hn
  refine ⟨copy, hc.symm, ?_⟩
  rw [show (t.importFrom source id).1 = u from hu.symm]
  refine ⟨?_, ?_, ?_, ?_, ?_, ?_, fun n => hchildren, fun n hn => hg.fresh _ (hmem hn), fun n => ?_,
    fun n hl => ?_, ?_, hmutations, hwell⟩
  · rw [← hroot, hg.holds.parent_label]
  · rw [content, hbranch, hkinds, content]
  · rw [preorder, hbranch, hlabels]
  · have hinj := hg.nodup
    rw [hlabels] at hinj
    exact fun m hm n hn => List.inj_on_of_nodup_map hinj hm hn
  · have hsame := congrArg Branch.labels hkinds
    simp only [content, Branch.labels_map, List.map_map] at hsame
    exact fun n hn => List.map_inj_left.1 hsame n hn
  · -- The parent of a node of the subtree but the root is in the subtree, and lists it.
    intro n hn hne
    obtain ⟨hln, habove⟩ := (hs.mem_preorder_iff hl).1 hn
    obtain ⟨p, hup, habove⟩ := (above_iff.1 habove).resolve_left hne
    obtain ⟨hlp, -⟩ := hs.listed n p hln hup
    have hp := (hs.mem_preorder_iff hl).2 ⟨hlp, habove⟩
    have hlisted : copy n ∈ u.children (copy p) := by
      rw [hchildren hp]
      exact List.mem_map_of_mem (hs.mem_children hln hup)
    rw [hup]
    exact (hg.holds.owned (hmem hp) hlisted).2
  · rw [hg.contains_iff, hlabels]
  · have hcore := hg.core n hl
    exact ⟨kind_of_core hcore, parent_of_core hcore, children_of_core hcore⟩
  · rw [hg.size_eq ht.accounted, hlabels, List.length_map]

/-- A text with two slots in front of it that wait to be used again. -/
def thinned : List Edit := [.create .fragment, .create .fragment, .create (.text "f"), .append ⟨0⟩ ⟨1⟩,
  .remove ⟨0⟩]

theorem importFrom_imports_shelf :
    let t := ({} : Tree).edit thinned
    let source := ({} : Tree).edit shelf
    t.WellFormed ∧ source.WellFormed ∧ source.contains ⟨2⟩ = true ∧
      ∃ copy : NodeId → NodeId, (t.importFrom source ⟨2⟩).2 = copy ⟨2⟩ ∧
        Imports t (t.importFrom source ⟨2⟩).1 source ⟨2⟩ copy := by
  have hpermits : ({} : Tree).Permits thinned := by
    refine ⟨trivial, trivial, trivial, ⟨by decide, by decide, ?_⟩, ?_, trivial⟩
    · exact not_above_of_parent_none (by decide) (by decide)
    · change Tree.contains _ _ = true
      decide
  have ht := (linked_empty.edit hpermits).wellFormed
  have hl : (({} : Tree).edit shelf).contains ⟨2⟩ = true := by decide +kernel
  exact ⟨ht, wellFormed_shelf, hl, importFrom_imports ht wellFormed_shelf hl⟩

end Tree

end LiveMarkup
