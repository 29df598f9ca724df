import LiveMarkup.Proofs.Tree.Copying
import Mathlib.Logic.Relation

set_option autoImplicit false

/-!
The links of an arena agree in both directions, except that some nodes are loose: they stand in no
list of children, whatever their own record still says of a parent. An operation loosens nodes,
works on them one after the other, and leaves none loose, so one invariant carries every operation
through its intermediate states.
-/

namespace LiveMarkup.Tree

/-- A node stands above another or is the other. -/
def Above (t : Tree) (top id : NodeId) : Prop :=
  Relation.ReflTransGen (fun c p => t.parent c = some p) id top

/-- Links agree in both directions but for the nodes of a list, and dead slots have none. -/
structure Linked (t : Tree) (loose : List NodeId) : Prop where
  owned : ∀ p id, id ∈ t.children p → t.parent id = some p ∧ t.contains p = true ∧ id ∉ loose
  /-- What names a parent is live, and is loose or among the children. -/
  listed : ∀ id p, t.parent id = some p →
    t.contains id = true ∧ (id ∉ loose → id ∈ t.children p)
  nodup : ∀ p, (t.children p).Nodup
  grounded : ∀ id, Acc (fun p c => t.parent c = some p) id
  accounted : t.Accounted

variable {t t' : Tree} {id p : NodeId} {loose : List NodeId}

theorem parent_modify (t : Tree) {id : NodeId} (hl : t.contains id = true) (other : NodeId)
    (f : Node → Node) : (t.modify id f).parent other =
      if other = id then (f (t.node id)).parent else t.parent other := by
  simp only [parent, node_modify, lt_size_of_contains hl, and_true]
  split <;> rfl

theorem children_modify (t : Tree) {id : NodeId} (hl : t.contains id = true) (other : NodeId)
    (f : Node → Node) : (t.modify id f).children other =
      if other = id then (f (t.node id)).children else t.children other := by
  simp only [children, node_modify, lt_size_of_contains hl, and_true]
  split <;> rfl

theorem parent_modify_of (t : Tree) (id other : NodeId) {f : Node → Node}
    (hf : ∀ n, (f n).parent = n.parent) : (t.modify id f).parent other = t.parent other := by
  simp only [parent, node_modify]
  split
  · rename_i he
    rw [hf, he.1]
  · rfl

theorem children_modify_of (t : Tree) (id other : NodeId) {f : Node → Node}
    (hf : ∀ n, (f n).children = n.children) : (t.modify id f).children other = t.children other := by
  simp only [children, node_modify]
  split
  · rename_i he
    rw [hf, he.1]
  · rfl

theorem parent_of_modify {f : Node → Node} {other q : NodeId}
    (h : (t.modify id f).parent other = some q)
    (hf : ∀ n q, (f n).parent = some q → n.parent = some q) : t.parent other = some q := by
  simp only [parent, node_modify] at h
  split at h
  · rename_i he
    rw [he.1]
    exact hf _ _ h
  · exact h

theorem grounded_of_imp (h : ∀ id, Acc (fun p c => t.parent c = some p) id)
    (hsub : ∀ id p, t'.parent id = some p → t.parent id = some p) (id : NodeId) :
    Acc (fun p c => t'.parent c = some p) id :=
  Subrelation.accessible (fun {p c} hp => hsub c p hp) (h id)

/-- Following parents still ends where one node has come under a node that it is not above. -/
theorem grounded_of_reparent (h : ∀ id, Acc (fun p c => t.parent c = some p) id)
    (habove : ¬ t.Above id p) (hself : t'.parent id = some p)
    (hother : ∀ n, n ≠ id → t'.parent n = t.parent n) (n : NodeId) :
    Acc (fun p c => t'.parent c = some p) n := by
  -- What `id` is not above keeps its parent, and so does every node above that.
  have haway (n : NodeId) (hn : ¬ t.Above id n) : Acc (fun p c => t'.parent c = some p) n := by
    induction h n with
    | intro n _ ih =>
      refine .intro n fun q hq => ?_
      have hne : n ≠ id := by
        rintro rfl
        exact hn .refl
      rw [hother n hne] at hq
      exact ih q hq fun ha => hn (.head hq ha)
  have hid : Acc (fun p c => t'.parent c = some p) id := by
    refine .intro id fun q hq => ?_
    rw [hself] at hq
    exact Option.some.inj hq ▸ haway p habove
  induction h n with
  | intro n _ ih =>
    by_cases hn : n = id
    · exact hn ▸ hid
    · exact .intro n fun q hq => ih q (hother n hn ▸ hq)

theorem not_above_of_parent_none {a : NodeId} (hp : t.parent p = none) (hne : p ≠ a) :
    ¬ t.Above a p := fun h => by
  rcases Relation.ReflTransGen.cases_head h with he | ⟨q, hq, -⟩
  · exact hne he
  · simp [hp] at hq

theorem not_above_of_parent_some {a q : NodeId} (hp : t.parent p = some q) (hne : p ≠ a)
    (hq : ¬ t.Above a q) : ¬ t.Above a p := fun h => by
  rcases Relation.ReflTransGen.cases_head h with he | ⟨r, hr, hrest⟩
  · exact hne he
  · rw [hp, Option.some.injEq] at hr
    exact hq (hr ▸ hrest)

theorem Above.of_imp {a q : NodeId} (h : t'.Above a q)
    (hsub : ∀ id p, t'.parent id = some p → t.parent id = some p) : t.Above a q :=
  Relation.ReflTransGen.mono (fun c p hp => hsub c p hp) _ _ h

/-- What stands above a node does so already before another node has come under it. -/
theorem Above.of_reparent {a q : NodeId} (h : t'.Above a q) (habove : ¬ t.Above id q)
    (hother : ∀ n, n ≠ id → t'.parent n = t.parent n) : t.Above a q := by
  induction h with
  | refl => exact .refl
  | tail _ hstep ih =>
    refine .tail ih ?_
    rwa [hother _ fun he => habove (he ▸ ih)] at hstep

theorem parent_link (hp : t.contains p = true) (hne : id ≠ p) {n : NodeId} (hn : n ≠ id) (i : Nat) :
    (t.link p id i).parent n = t.parent n := by
  by_cases hnp : n = p
  · rw [hnp, parent_core, core_link_parent hp hne]
    rfl
  · exact parent_of_core (core_link_of_ne hn hnp i)

theorem children_link (hp : t.contains p = true) (n : NodeId) (i : Nat) :
    (t.link p id i).children n =
      if n = p then (t.children p).insertIdx i id else t.children n := by
  obtain ⟨u, hu⟩ : ∃ u, u = t.modify id fun n => { n with parent := some p, hint := i } := ⟨_, rfl⟩
  have hchildren (n : NodeId) : u.children n = t.children n :=
    hu ▸ children_modify_of t id n fun _ => rfl
  have hlive : u.contains p = true := by
    rw [hu, contains_modify, hp]
    intro
    rfl
  rw [link, ← hu, children_modify u hlive, hchildren n, ← hchildren p]
  rfl

theorem ne_of_not_above (h : ¬ t.Above id p) : id ≠ p := by
  rintro rfl
  exact h .refl

namespace Linked

theorem contains_of_mem (h : t.Linked loose) (hm : id ∈ t.children p) : t.contains id = true :=
  (h.listed id p (h.owned p id hm).1).1

theorem parent_of_dead (h : t.Linked loose) (hd : t.contains id = false) : t.parent id = none := by
  cases hp : t.parent id with
  | none => rfl
  | some p => simp [(h.listed id p hp).1] at hd

theorem children_of_dead (h : t.Linked loose) (hd : t.contains id = false) :
    t.children id = [] := by
  refine List.eq_nil_iff_forall_not_mem.2 fun n hn => ?_
  simp [(h.owned id n hn).2.1] at hd

theorem cons_iff (hp : t.parent id = none) : t.Linked (id :: loose) ↔ t.Linked loose := by
  constructor
  · intro h
    refine ⟨fun p n hn => ?_, fun n p hn => ?_, h.nodup, h.grounded, h.accounted⟩
    · obtain ⟨hup, hl, hm⟩ := h.owned p n hn
      exact ⟨hup, hl, fun hl => hm (List.mem_cons_of_mem _ hl)⟩
    · refine ⟨(h.listed n p hn).1, fun hm => (h.listed n p hn).2 ?_⟩
      rw [List.mem_cons, not_or]
      exact ⟨by rintro rfl; simp [hp] at hn, hm⟩
  · intro h
    refine ⟨fun p n hn => ?_, fun n p hn => ?_, h.nodup, h.grounded, h.accounted⟩
    · obtain ⟨hup, hl, hm⟩ := h.owned p n hn
      rw [List.mem_cons, not_or]
      exact ⟨hup, hl, by rintro rfl; simp [hp] at hup, hm⟩
    · exact ⟨(h.listed n p hn).1, fun hm => (h.listed n p hn).2 fun hl => hm (List.mem_cons_of_mem _ hl)⟩

theorem touched (h : t.Linked loose) : t.touched.Linked loose :=
  ⟨h.owned, h.listed, h.nodup, h.grounded, h.accounted.touched⟩

theorem of_perm {others : List NodeId} (h : t.Linked loose) (hp : loose.Perm others) :
    t.Linked others := by
  refine ⟨fun p n hn => ?_, fun n p hn => ?_, h.nodup, h.grounded, h.accounted⟩
  · rw [← hp.mem_iff]
    exact h.owned p n hn
  · rw [← hp.mem_iff]
    exact h.listed n p hn

theorem of_links (h : t.Linked loose) (ha : t'.Accounted) (hs : ∀ n, SameLinks t t' n) :
    t'.Linked loose := by
  refine ⟨fun p n hn => ?_, fun n p hn => ?_, fun p => ?_, ?_, ha⟩
  · rw [(hs p).2.2] at hn
    rw [(hs n).2.1, (hs p).1]
    exact h.owned p n hn
  · rw [(hs n).2.1] at hn
    rw [(hs n).1, (hs p).2.2]
    exact h.listed n p hn
  · rw [(hs p).2.2]
    exact h.nodup p
  · exact grounded_of_imp h.grounded fun n p hn => (hs n).2.1 ▸ hn

theorem create (h : t.Linked loose) (kind : NodeKind) : (t.create kind).1.Linked loose := by
  have hc := h.accounted.create kind
  have hparent (n : NodeId) : (t.create kind).1.parent n = t.parent n := by
    by_cases hn : n = (t.create kind).2
    · rw [hn, h.parent_of_dead hc.fresh, parent_core, hc.core_self]
    · exact parent_of_core (hc.core_other n hn)
  have hchildren (n : NodeId) : (t.create kind).1.children n = t.children n := by
    by_cases hn : n = (t.create kind).2
    · rw [hn, h.children_of_dead hc.fresh, children_core, hc.core_self]
    · exact children_of_core (hc.core_other n hn)
  have hlive (n : NodeId) (hl : t.contains n = true) : (t.create kind).1.contains n = true := by
    by_cases hn : n = (t.create kind).2
    · rw [hn, contains_core, hc.core_self]
    · rw [contains_of_core (hc.core_other n hn), hl]
  refine ⟨fun p n hn => ?_, fun n p hn => ?_, fun p => ?_, ?_, hc.accounted⟩
  · rw [hchildren] at hn
    rw [hparent]
    obtain ⟨hup, hl, hm⟩ := h.owned p n hn
    exact ⟨hup, hlive p hl, hm⟩
  · rw [hparent] at hn
    rw [hchildren]
    exact ⟨hlive n (h.listed n p hn).1, (h.listed n p hn).2⟩
  · rw [hchildren]
    exact h.nodup p
  · exact grounded_of_imp h.grounded fun n p hn => hparent n ▸ hn

/-- Some children of a node are taken out of its list and are loose. -/
theorem drop {dropped kept : List NodeId} (h : t.Linked loose) (hp : t.contains p = true)
    (hperm : (t.children p).Perm (dropped ++ kept)) :
    (t.modify p fun n => { n with children := kept }).Linked (dropped ++ loose) := by
  have hnd := hperm.nodup_iff.1 (h.nodup p)
  obtain ⟨-, hkept, hdis⟩ := List.nodup_append.1 hnd
  have hlive (n : NodeId) : (t.modify p fun n => { n with children := kept }).contains n =
      t.contains n := contains_modify t p n fun _ => rfl
  have hparent (n : NodeId) : (t.modify p fun n => { n with children := kept }).parent n =
      t.parent n := parent_modify_of t p n fun _ => rfl
  have hchildren := children_modify t hp (f := fun n => { n with children := kept })
  refine ⟨fun q n hn => ?_, fun n q hn => ?_, fun q => ?_, ?_, h.accounted.modify p fun _ => rfl⟩
  · rw [hchildren] at hn
    rw [hparent, hlive, List.mem_append, not_or]
    split at hn
    · rename_i he
      subst he
      obtain ⟨hup, hl, hm⟩ := h.owned q n (hperm.mem_iff.2 (List.mem_append_right _ hn))
      exact ⟨hup, hl, fun hd => hdis n hd n hn rfl, hm⟩
    · rename_i hne
      obtain ⟨hup, hl, hm⟩ := h.owned q n hn
      refine ⟨hup, hl, fun hd => hne ?_, hm⟩
      have hup' := (h.owned p n (hperm.mem_iff.2 (List.mem_append_left _ hd))).1
      exact Option.some.inj (hup.symm.trans hup')
  · rw [hparent] at hn
    rw [hlive, hchildren, List.mem_append, not_or]
    refine ⟨(h.listed n q hn).1, fun hm => ?_⟩
    have hin := (h.listed n q hn).2 hm.2
    split
    · rename_i he
      subst he
      exact (List.mem_append.1 (hperm.mem_iff.1 hin)).resolve_left hm.1
    · exact hin
  · rw [hchildren]
    split
    · exact hkept
    · exact h.nodup q
  · exact grounded_of_imp h.grounded fun n q hn => hparent n ▸ hn

/-- A loose node forgets its parent and is loose no more. -/
theorem orphan (h : t.Linked (id :: loose)) :
    (t.modify id fun n => { n with parent := none }).Linked loose ∧
      (t.modify id fun n => { n with parent := none }).parent id = none := by
  have hlive (n : NodeId) : (t.modify id fun n => { n with parent := none }).contains n =
      t.contains n := contains_modify t id n fun _ => rfl
  have hparent (n : NodeId) : (t.modify id fun n => { n with parent := none }).parent n =
      if n = id then none else t.parent n := by
    by_cases hl : t.contains id = true
    · rw [parent_modify t hl]
    · simp only [parent, node_modify]
      by_cases hn : n = id
      · have hnone := h.parent_of_dead (Bool.not_eq_true _ ▸ hl)
        subst hn
        simp only [true_and, if_true]
        split
        · rfl
        · exact hnone
      · simp [hn]
  have hchildren (n : NodeId) : (t.modify id fun n => { n with parent := none }).children n =
      t.children n := children_modify_of t id n fun _ => rfl
  have hnone : (t.modify id fun n => { n with parent := none }).parent id = none := by
    rw [hparent, if_pos rfl]
  refine ⟨(cons_iff hnone).1 ⟨fun q n hn => ?_, fun n q hn => ?_, fun q => ?_, ?_, ?_⟩, hnone⟩
  · rw [hchildren] at hn
    obtain ⟨hup, hl, hm⟩ := h.owned q n hn
    have hne : n ≠ id := fun he => hm (he ▸ List.mem_cons_self)
    rw [hparent, if_neg hne, hlive]
    exact ⟨hup, hl, hm⟩
  · rw [hparent] at hn
    split at hn
    · cases hn
    · rw [hlive, hchildren]
      exact h.listed n q hn
  · rw [hchildren]
    exact h.nodup q
  · refine grounded_of_imp h.grounded fun n q hn => ?_
    rw [hparent] at hn
    split at hn
    · cases hn
    · exact hn
  · exact h.accounted.modify id fun _ => rfl

/-- A loose node comes under a node that it is not above. -/
theorem link {i : Nat} (h : t.Linked (id :: loose)) (hid : id ∉ loose)
    (hl : t.contains id = true) (hp : t.contains p = true) (habove : ¬ t.Above id p)
    (hi : i ≤ (t.children p).length) : (t.link p id i).Linked loose := by
  have hne := ne_of_not_above habove
  have hself : (t.link p id i).parent id = some p := by
    rw [parent_core, core_link_self hl hne]
  have hparent (n : NodeId) (hn : n ≠ id) := parent_link hp hne hn i
  have hin : (t.link p id i).children p = (t.children p).insertIdx i id :=
    (children_link hp p i).trans (if_pos rfl)
  have hchildren (n : NodeId) (hn : n ≠ p) : (t.link p id i).children n = t.children n :=
    (children_link hp n i).trans (if_neg hn)
  have hout (q : NodeId) : id ∉ t.children q := fun hm =>
    (h.owned q id hm).2.2 List.mem_cons_self
  have hlive (n : NodeId) := contains_link t p id n i
  refine ⟨fun q n hn => ?_, fun n q hn => ?_, fun q => ?_, ?_, h.accounted.link p id i⟩
  · rw [hlive]
    have hold (hm : n ∈ t.children q) :
        (t.link p id i).parent n = some q ∧ t.contains q = true ∧ n ∉ loose := by
      obtain ⟨hup, hlq, hm'⟩ := h.owned q n hm
      rw [List.mem_cons, not_or] at hm'
      exact ⟨(hparent n hm'.1).trans hup, hlq, hm'.2⟩
    by_cases hq : q = p
    · subst hq
      rw [hin, List.mem_insertIdx hi] at hn
      rcases hn with rfl | hn
      · exact ⟨hself, hp, hid⟩
      · exact hold hn
    · exact hold (hchildren q hq ▸ hn)
  · rw [hlive]
    by_cases hni : n = id
    · subst hni
      rw [hself, Option.some.injEq] at hn
      subst hn
      exact ⟨hl, fun _ => by rw [hin, List.mem_insertIdx hi]; exact .inl rfl⟩
    · rw [hparent n hni] at hn
      obtain ⟨hln, hm⟩ := h.listed n q hn
      refine ⟨hln, fun hnl => ?_⟩
      have hold := hm (by simp [hni, hnl])
      by_cases hq : q = p
      · subst hq
        rw [hin, List.mem_insertIdx hi]
        exact .inr hold
      · rwa [hchildren q hq]
  · by_cases hq : q = p
    · subst hq
      rw [hin, (List.perm_insertIdx id _ hi).nodup_iff, List.nodup_cons]
      exact ⟨hout q, h.nodup q⟩
    · rw [hchildren q hq]
      exact h.nodup q
  · exact grounded_of_reparent h.grounded habove hself hparent

/-- Loose nodes come one after the other under a node that none of them is above. -/
theorem linkAll {ids : List NodeId} {i : Nat} (h : t.Linked (ids ++ loose))
    (hnd : (ids ++ loose).Nodup) (hl : ∀ n ∈ ids, t.contains n = true)
    (hp : t.contains p = true) (habove : ∀ n ∈ ids, ¬ t.Above n p)
    (hi : i ≤ (t.children p).length) : (t.linkAll p ids i).Linked loose := by
  induction ids generalizing t i with
  | nil => exact h
  | cons id ids ih =>
    rw [List.cons_append, List.nodup_cons] at hnd
    have hid := habove id List.mem_cons_self
    have hne := ne_of_not_above hid
    have hlid := hl id List.mem_cons_self
    -- The other nodes are not above `p` now either: what stands above it has not changed.
    refine ih (h.link hnd.1 hlid hp hid hi) hnd.2 (fun n hn => ?_) ?_ (fun n hn ha => ?_) ?_
    · rw [contains_link, hl n (List.mem_cons_of_mem _ hn)]
    · rw [contains_link, hp]
    · exact habove n (List.mem_cons_of_mem _ hn)
        (ha.of_reparent hid fun _ hm => parent_link hp hne hm i)
    · rw [children_link hp, if_pos rfl, List.length_insertIdx_of_le_length hi]
      omega

/-- A loose node dies, and what stood below it is loose. -/
theorem bury (h : t.Linked (id :: loose)) (hl : t.contains id = true) :
    (t.bury id).Linked ((t.children id).reverse ++ loose) := by
  have hself := core_bury_self hl
  have hparent (n : NodeId) : (t.bury id).parent n = if n = id then none else t.parent n := by
    split
    · rename_i he
      rw [he, parent_core, hself]
      rfl
    · rename_i hn
      exact parent_of_core (core_bury_of_ne hn)
  have hchildren (n : NodeId) : (t.bury id).children n = if n = id then [] else t.children n := by
    split
    · rename_i he
      rw [he, children_core, hself]
      rfl
    · rename_i hn
      exact children_of_core (core_bury_of_ne hn)
  have hlive (n : NodeId) (hn : n ≠ id) : (t.bury id).contains n = t.contains n :=
    contains_of_core (core_bury_of_ne hn)
  refine ⟨fun p n hn => ?_, fun n p hn => ?_, fun p => ?_, ?_, h.accounted.bury hl⟩
  · rw [hchildren] at hn
    split at hn
    · cases hn
    · rename_i hp
      obtain ⟨hup, hlp, hm⟩ := h.owned p n hn
      rw [List.mem_cons, not_or] at hm
      rw [hparent, if_neg hm.1, hlive p hp, List.mem_append, not_or, List.mem_reverse]
      refine ⟨hup, hlp, fun hc => hp ?_, hm.2⟩
      exact Option.some.inj (hup.symm.trans (h.owned id n hc).1)
  · rw [hparent] at hn
    split at hn
    · cases hn
    · rename_i hni
      obtain ⟨hln, hm⟩ := h.listed n p hn
      rw [hlive n hni, hchildren, List.mem_append, not_or, List.mem_reverse]
      refine ⟨hln, fun hnl => ?_⟩
      have hin := hm (by simp [hni, hnl.2])
      rw [if_neg (by rintro rfl; exact hnl.1 hin)]
      exact hin
  · rw [hchildren]
    split
    · exact List.nodup_nil
    · exact h.nodup p
  · refine grounded_of_imp h.grounded fun n p hn => ?_
    rw [hparent] at hn
    split at hn
    · cases hn
    · exact hn

/-- A node on its own names a parent without being listed there. -/
theorem adopt (h : t.Linked loose) (hl : t.contains id = true) (habove : ¬ t.Above id p)
    (hnone : t.parent id = none) (i : Nat) :
    (t.modify id fun n => { n with parent := some p, hint := i }).Linked (id :: loose) := by
  obtain ⟨u, hu⟩ : ∃ u, u = t.modify id fun n => { n with parent := some p, hint := i } := ⟨_, rfl⟩
  have hself : u.parent id = some p := by rw [hu, parent_modify t hl, if_pos rfl]
  have hother (n : NodeId) (hn : n ≠ id) : u.parent n = t.parent n := by
    rw [hu, parent_modify t hl, if_neg hn]
  have hchildren (n : NodeId) : u.children n = t.children n :=
    hu ▸ children_modify_of t id n fun _ => rfl
  have hlive (n : NodeId) : u.contains n = t.contains n :=
    hu ▸ contains_modify t id n fun _ => rfl
  rw [← hu]
  refine ⟨fun q n hn => ?_, fun n q hn => ?_, fun q => ?_, ?_, hu ▸ h.accounted.modify id fun _ => rfl⟩
  · rw [hchildren] at hn
    obtain ⟨hup, hlq, hm⟩ := h.owned q n hn
    have hne : n ≠ id := by
      rintro rfl
      simp [hnone] at hup
    rw [hother n hne, hlive, List.mem_cons, not_or]
    exact ⟨hup, hlq, hne, hm⟩
  · rw [hlive, hchildren, List.mem_cons, not_or]
    by_cases hni : n = id
    · exact ⟨hni ▸ hl, fun hm => absurd hni hm.1⟩
    · rw [hother n hni] at hn
      exact ⟨(h.listed n q hn).1, fun hm => (h.listed n q hn).2 hm.2⟩
  · rw [hchildren]
    exact h.nodup q
  · exact grounded_of_reparent h.grounded habove hself hother

/-- A node without children lists the loose nodes that name it. -/
theorem collect {ids : List NodeId} (h : t.Linked (ids ++ loose)) (hnd : (ids ++ loose).Nodup)
    (hp : t.contains p = true) (hnone : t.children p = [])
    (hids : ∀ n ∈ ids, t.parent n = some p) :
    (t.modify p fun n => { n with children := ids }).Linked loose := by
  obtain ⟨u, hu⟩ : ∃ u, u = t.modify p fun n => { n with children := ids } := ⟨_, rfl⟩
  have hchildren (n : NodeId) : u.children n = if n = p then ids else t.children n := by
    rw [hu, children_modify t hp]
  have hparent (n : NodeId) : u.parent n = t.parent n :=
    hu ▸ parent_modify_of t p n fun _ => rfl
  have hlive (n : NodeId) : u.contains n = t.contains n :=
    hu ▸ contains_modify t p n fun _ => rfl
  obtain ⟨hnids, -, hdis⟩ := List.nodup_append.1 hnd
  rw [← hu]
  refine ⟨fun q n hn => ?_, fun n q hn => ?_, fun q => ?_, ?_, hu ▸ h.accounted.modify p fun _ => rfl⟩
  · rw [hchildren] at hn
    rw [hparent, hlive]
    split at hn
    · rename_i he
      subst he
      exact ⟨hids n hn, hp, fun hm => hdis n hn n hm rfl⟩
    · obtain ⟨hup, hlq, hm⟩ := h.owned q n hn
      exact ⟨hup, hlq, fun hl => hm (List.mem_append_right _ hl)⟩
  · rw [hparent] at hn
    rw [hlive, hchildren]
    obtain ⟨hln, hm⟩ := h.listed n q hn
    refine ⟨hln, fun hnl => ?_⟩
    by_cases hni : n ∈ ids
    · rw [hids n hni, Option.some.injEq] at hn
      rw [if_pos hn.symm]
      exact hni
    · have hin := hm (by simp [hni, hnl])
      rw [if_neg (by rintro rfl; simp [hnone] at hin)]
      exact hin
  · rw [hchildren]
    split
    · exact hnids
    · exact h.nodup q
  · exact grounded_of_imp h.grounded fun n q hn => hparent n ▸ hn

end Linked

end LiveMarkup.Tree
