import LiveMarkup.Proofs.Tree.Siblings
import LiveMarkup.Tree.Branch

set_option autoImplicit false

/-!
An arena holds a branch if the links of the branch are those of its nodes. What an arena holds only
depends on the records of the branch's own nodes, so a change elsewhere keeps it.
-/

namespace LiveMarkup

namespace Branch

variable {α : Type}

theorem labels_eq (b : Branch α) : b.labels = b.label :: labelsOfAll b.branches := by
  cases b
  rfl

theorem label_mem_labels (b : Branch α) : b.label ∈ b.labels := by
  rw [labels_eq]
  exact List.mem_cons_self

@[simp] theorem labelsOfAll_nil : labelsOfAll ([] : List (Branch α)) = [] := rfl

@[simp] theorem labelsOfAll_cons (b : Branch α) (bs : List (Branch α)) :
    labelsOfAll (b :: bs) = b.labels ++ labelsOfAll bs := rfl

@[simp] theorem labels_node (a : α) (bs : List (Branch α)) :
    (Branch.node a bs).labels = a :: labelsOfAll bs := rfl

@[simp] theorem labelsOfAll_append (bs cs : List (Branch α)) :
    labelsOfAll (bs ++ cs) = labelsOfAll bs ++ labelsOfAll cs := by
  induction bs with
  | nil => rfl
  | cons b bs ih => simp [ih]

theorem roots_sublist (bs : List (Branch α)) : (bs.map label).Sublist (labelsOfAll bs) := by
  induction bs with
  | nil => exact .slnil
  | cons b bs ih =>
    rw [List.map_cons, labelsOfAll_cons, labels_eq, List.cons_append]
    exact (ih.trans (List.sublist_append_right _ _)).cons_cons _

theorem mem_labelsOfAll {bs : List (Branch α)} {n : α} :
    n ∈ labelsOfAll bs ↔ ∃ b ∈ bs, n ∈ b.labels := by
  induction bs with
  | nil => simp
  | cons b bs ih => simp [ih]

end Branch

open Branch (labelsOfAll)

namespace Tree

mutual

/-- The arena has the nodes of a branch, linked as in the branch, its root under `up`. -/
def Holds (t : Tree) (up : Option NodeId) : Branch NodeId → Prop
  | .node id bs =>
    t.contains id = true ∧ t.parent id = up ∧ t.children id = bs.map Branch.label ∧
      t.HoldsAll (some id) bs

def HoldsAll (t : Tree) (up : Option NodeId) : List (Branch NodeId) → Prop
  | [] => True
  | b :: bs => t.Holds up b ∧ t.HoldsAll up bs

end

variable {t t' : Tree} {up : Option NodeId}

@[simp] theorem holdsAll_nil : t.HoldsAll up [] := trivial

@[simp] theorem holdsAll_cons {b : Branch NodeId} {bs : List (Branch NodeId)} :
    t.HoldsAll up (b :: bs) ↔ t.Holds up b ∧ t.HoldsAll up bs := Iff.rfl

@[simp] theorem holds_node {id : NodeId} {bs : List (Branch NodeId)} :
    t.Holds up (.node id bs) ↔ t.contains id = true ∧ t.parent id = up ∧
      t.children id = bs.map Branch.label ∧ t.HoldsAll (some id) bs := Iff.rfl

@[simp] theorem holdsAll_append {bs cs : List (Branch NodeId)} :
    t.HoldsAll up (bs ++ cs) ↔ t.HoldsAll up bs ∧ t.HoldsAll up cs := by
  induction bs with
  | nil => simp
  | cons b bs ih => simp [ih, and_assoc]

theorem holdsAll_iff {bs : List (Branch NodeId)} : t.HoldsAll up bs ↔ ∀ b ∈ bs, t.Holds up b := by
  induction bs with
  | nil => simp
  | cons b bs ih => simp [ih]

/-- Two arenas link a node in the same way. -/
def SameLinks (t t' : Tree) (n : NodeId) : Prop :=
  t'.contains n = t.contains n ∧ t'.parent n = t.parent n ∧ t'.children n = t.children n

mutual

theorem Holds.of_links {up : Option NodeId} {b : Branch NodeId} (h : t.Holds up b)
    (hc : ∀ n ∈ b.labels, SameLinks t t' n) : t'.Holds up b := by
  match b with
  | .node id bs =>
    obtain ⟨hl, hp, hch, hb⟩ := h
    obtain ⟨hl', hp', hch'⟩ := hc id List.mem_cons_self
    exact ⟨hl'.trans hl, hp'.trans hp, hch'.trans hch,
      hb.of_links fun n hn => hc n (List.mem_cons_of_mem _ hn)⟩

theorem HoldsAll.of_links {up : Option NodeId} {bs : List (Branch NodeId)} (h : t.HoldsAll up bs)
    (hc : ∀ n ∈ labelsOfAll bs, SameLinks t t' n) : t'.HoldsAll up bs := by
  match bs with
  | [] => trivial
  | b :: bs =>
    exact ⟨h.1.of_links fun n hn => hc n (List.mem_append_left _ hn),
      h.2.of_links fun n hn => hc n (List.mem_append_right _ hn)⟩

end

theorem sameLinks_of_core {n : NodeId} (h : t'.core n = t.core n) : SameLinks t t' n :=
  ⟨contains_of_core h, parent_of_core h, children_of_core h⟩

theorem Holds.of_core {b : Branch NodeId} (h : t.Holds up b)
    (hc : ∀ n ∈ b.labels, t'.core n = t.core n) : t'.Holds up b :=
  h.of_links fun n hn => sameLinks_of_core (hc n hn)

theorem HoldsAll.of_core {bs : List (Branch NodeId)} (h : t.HoldsAll up bs)
    (hc : ∀ n ∈ labelsOfAll bs, t'.core n = t.core n) : t'.HoldsAll up bs :=
  h.of_links fun n hn => sameLinks_of_core (hc n hn)

mutual

theorem Holds.contains {up : Option NodeId} {b : Branch NodeId} (h : t.Holds up b) {n : NodeId}
    (hn : n ∈ b.labels) : t.contains n = true := by
  match b with
  | .node id bs =>
    rcases List.mem_cons.1 hn with rfl | hn
    · exact h.1
    · exact h.2.2.2.contains hn

theorem HoldsAll.contains {up : Option NodeId} {bs : List (Branch NodeId)} (h : t.HoldsAll up bs)
    {n : NodeId} (hn : n ∈ labelsOfAll bs) : t.contains n = true := by
  match bs with
  | b :: bs =>
    rcases List.mem_append.1 hn with hn | hn
    · exact h.1.contains hn
    · exact h.2.contains hn

end

mutual

theorem Holds.exists_parent {up : NodeId} {b : Branch NodeId} (h : t.Holds (some up) b)
    {n : NodeId} (hn : n ∈ b.labels) : ∃ p, t.parent n = some p := by
  match b with
  | .node id bs =>
    rcases List.mem_cons.1 hn with rfl | hn
    · exact ⟨up, h.2.1⟩
    · exact HoldsAll.exists_parent h.2.2.2 hn

theorem HoldsAll.exists_parent {up : NodeId} {bs : List (Branch NodeId)}
    (h : t.HoldsAll (some up) bs) {n : NodeId} (hn : n ∈ labelsOfAll bs) :
    ∃ p, t.parent n = some p := by
  match bs with
  | b :: bs =>
    rcases List.mem_append.1 hn with hn | hn
    · exact h.1.exists_parent hn
    · exact h.2.exists_parent hn

end

theorem Holds.parent_label {b : Branch NodeId} (h : t.Holds up b) : t.parent b.label = up := by
  cases b
  exact h.2.1

theorem Holds.contains_label {b : Branch NodeId} (h : t.Holds up b) :
    t.contains b.label = true :=
  h.contains b.label_mem_labels

theorem HoldsAll.parent_root {bs : List (Branch NodeId)} (h : t.HoldsAll up bs) {n : NodeId}
    (hn : n ∈ bs.map Branch.label) : t.parent n = up := by
  obtain ⟨b, hb, rfl⟩ := List.mem_map.1 hn
  exact (holdsAll_iff.1 h b hb).parent_label

/-- A branch that is put under another node, everything below its root being kept. -/
theorem Holds.move {b : Branch NodeId} {up' : Option NodeId} (h : t.Holds up b)
    (hnd : b.labels.Nodup) (hr : t'.core b.label = { t.core b.label with parent := up' })
    (hc : ∀ n ∈ b.labels, n ≠ b.label → t'.core n = t.core n) : t'.Holds up' b := by
  cases b with
  | node id bs =>
    obtain ⟨hl, -, hch, hb⟩ := h
    have hr' : t'.core id = { t.core id with parent := up' } := hr
    refine ⟨?_, ?_, ?_, ?_⟩
    · rw [contains_core, hr']
      exact hl
    · rw [parent_core, hr']
    · rw [children_core, hr']
      exact hch
    · refine hb.of_core fun n hn => hc n (List.mem_cons_of_mem _ hn) ?_
      rintro rfl
      exact (List.nodup_cons.1 hnd).1 hn

theorem HoldsAll.move {bs : List (Branch NodeId)} {up' : Option NodeId} (h : t.HoldsAll up bs)
    (hnd : (labelsOfAll bs).Nodup)
    (hr : ∀ n ∈ bs.map Branch.label, t'.core n = { t.core n with parent := up' })
    (hc : ∀ n ∈ labelsOfAll bs, n ∉ bs.map Branch.label → t'.core n = t.core n) :
    t'.HoldsAll up' bs := by
  induction bs with
  | nil => trivial
  | cons b bs ih =>
    obtain ⟨hb, hbs, hdis⟩ := List.nodup_append.1 hnd
    refine ⟨h.1.move hb (hr _ List.mem_cons_self) ?_, ih h.2 hbs ?_ ?_⟩
    · intro n hn hne
      refine hc n (List.mem_append_left _ hn) ?_
      rw [List.map_cons, List.mem_cons, not_or]
      exact ⟨hne, fun hm => hdis n hn n ((Branch.roots_sublist bs).mem hm) rfl⟩
    · exact fun n hn => hr n (List.mem_cons_of_mem _ hn)
    · intro n hn hm
      refine hc n (List.mem_append_right _ hn) ?_
      rw [List.map_cons, List.mem_cons, not_or]
      exact ⟨fun he => hdis b.label b.label_mem_labels n hn he.symm, hm⟩

end Tree

end LiveMarkup
