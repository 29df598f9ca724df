import LiveMarkup.Proofs.Tree.Copying

set_option autoImplicit false

/-!
Plantings. The nodes of a pattern have numbers; a planting puts a label in place of every number and
lets other branches follow some of the nodes, as the content of a region follows its anchor. Where
such a node is the last of its siblings, a closing label comes after the region. The region behind
one node is a place of the planting, between that node and what comes after its region.
-/

namespace LiveMarkup

open Branch (labelsOfAll)

namespace Branch

mutual

/-- The number of the node that comes right behind node `i` among its siblings. -/
def nextOf (i : Nat) : Branch Nat → Option Nat
  | .node _ bs => nextOfAll i bs

def nextOfAll (i : Nat) : List (Branch Nat) → Option Nat
  | [] => none
  | b :: bs =>
    if b.label = i then bs.head?.map label else (nextOf i b).or (nextOfAll i bs)

end

end Branch

structure Planting (α : Type) where
  label : Nat → α
  /-- The branches behind a node. -/
  region : Nat → Option (List (Branch α))
  closing : Nat → α

namespace Planting

variable {α β : Type}

/-- What comes between a node and the next one of the pattern. -/
def behind (π : Planting α) (i : Nat) (last : Bool) : List (Branch α) :=
  match π.region i with
  | none => []
  | some g => g ++ if last then [.node (π.closing i) []] else []

mutual

def branch (π : Planting α) : Branch Nat → Branch α
  | .node i bs => .node (π.label i) (π.forest bs)

def forest (π : Planting α) : List (Branch Nat) → List (Branch α)
  | [] => []
  | b :: bs => π.branch b :: (π.behind b.label bs.isEmpty ++ π.forest bs)

end

/-- The label after the region behind node `i`. -/
def stop (π : Planting α) (bs : List (Branch Nat)) (i : Nat) : α :=
  match Branch.nextOfAll i bs with
  | some j => π.label j
  | none => π.closing i

/-- Puts other branches behind node `i`. -/
def set (π : Planting α) (i : Nat) (g : List (Branch α)) : Planting α :=
  { π with region := fun j => if j = i then some g else π.region j }

def map (f : α → β) (π : Planting α) : Planting β where
  label i := f (π.label i)
  region i := (π.region i).map (Branch.mapAll f)
  closing i := f (π.closing i)

/-- Two plantings do the same at node `i`. -/
def Agree (π ρ : Planting α) (i : Nat) : Prop :=
  π.label i = ρ.label i ∧ π.region i = ρ.region i ∧ (π.region i ≠ none → π.closing i = ρ.closing i)

variable {π ρ : Planting α} {i : Nat} {g : List (Branch α)}

@[simp] theorem forest_nil : π.forest [] = [] := by rw [forest]

@[simp] theorem forest_cons (b : Branch Nat) (bs : List (Branch Nat)) :
    π.forest (b :: bs) = π.branch b :: (π.behind b.label bs.isEmpty ++ π.forest bs) := by rw [forest]

@[simp] theorem branch_node (bs : List (Branch Nat)) :
    π.branch (.node i bs) = .node (π.label i) (π.forest bs) := by rw [branch]

@[simp] theorem label_set (j : Nat) : (π.set i g).label j = π.label j := rfl

@[simp] theorem closing_set (j : Nat) : (π.set i g).closing j = π.closing j := rfl

@[simp] theorem region_set_self : (π.set i g).region i = some g := if_pos rfl

theorem region_set_of_ne {j : Nat} (h : j ≠ i) : (π.set i g).region j = π.region j := if_neg h

@[simp] theorem stop_set (bs : List (Branch Nat)) (j : Nat) :
    (π.set i g).stop bs j = π.stop bs j := rfl

theorem behind_congr (h : Agree π ρ i) (last : Bool) : π.behind i last = ρ.behind i last := by
  obtain ⟨-, hr, hc⟩ := h
  unfold behind
  rw [← hr]
  split
  · rfl
  · rename_i g hg
    rw [hc (by simp [hg])]

mutual

theorem branch_congr {b : Branch Nat} (h : ∀ i ∈ b.labels, Agree π ρ i) :
    π.branch b = ρ.branch b := by
  match b with
  | .node i bs =>
    rw [branch_node, branch_node, (h i List.mem_cons_self).1,
      forest_congr fun j hj => h j (List.mem_cons_of_mem _ hj)]

theorem forest_congr {bs : List (Branch Nat)} (h : ∀ i ∈ labelsOfAll bs, Agree π ρ i) :
    π.forest bs = ρ.forest bs := by
  match bs with
  | [] => simp
  | b :: bs =>
    rw [forest_cons, forest_cons, branch_congr fun j hj => h j (List.mem_append_left _ hj),
      forest_congr fun j hj => h j (List.mem_append_right _ hj),
      behind_congr (h _ (List.mem_append_left _ b.label_mem_labels))]

end

theorem agree_set {j : Nat} (h : j ≠ i) : Agree (π.set i g) π j :=
  ⟨rfl, region_set_of_ne h, fun _ => rfl⟩

theorem behind_map (f : α → β) (i : Nat) (last : Bool) :
    (π.map f).behind i last = Branch.mapAll f (π.behind i last) := by
  cases hr : π.region i <;> cases last <;> simp [behind, map, hr]

mutual

theorem branch_map (f : α → β) (b : Branch Nat) : (π.map f).branch b = (π.branch b).map f := by
  match b with
  | .node i bs => rw [branch_node, branch_node, Branch.map_node, forest_map f bs]; rfl

theorem forest_map (f : α → β) (bs : List (Branch Nat)) :
    (π.map f).forest bs = Branch.mapAll f (π.forest bs) := by
  match bs with
  | [] => simp
  | b :: bs =>
    rw [forest_cons, forest_cons, branch_map f b, forest_map f bs, behind_map]
    simp

end

mutual

theorem branch_of_closed {b : Branch Nat} (h : ∀ i ∈ b.labels, π.region i = none) :
    π.branch b = b.map π.label := by
  match b with
  | .node i bs =>
    rw [branch_node, Branch.map_node, forest_of_closed fun j hj => h j (List.mem_cons_of_mem _ hj)]

/-- Where no region is open, there is one label for every node. -/
theorem forest_of_closed {bs : List (Branch Nat)} (h : ∀ i ∈ labelsOfAll bs, π.region i = none) :
    π.forest bs = Branch.mapAll π.label bs := by
  match bs with
  | [] => simp
  | b :: bs =>
    obtain ⟨hb, hbs⟩ := List.forall_mem_append.1 h
    rw [forest_cons, behind, hb _ b.label_mem_labels, branch_of_closed hb, forest_of_closed hbs]
    simp

end

mutual

theorem label_mem_branch {b : Branch Nat} (hi : i ∈ b.labels) : π.label i ∈ (π.branch b).labels := by
  match b with
  | .node j bs =>
    rw [branch_node, Branch.labels_node, List.mem_cons]
    rcases List.mem_cons.1 hi with rfl | hi
    · exact .inl rfl
    · exact .inr (label_mem_forest hi)

theorem label_mem_forest {bs : List (Branch Nat)} (hi : i ∈ labelsOfAll bs) :
    π.label i ∈ labelsOfAll (π.forest bs) := by
  match bs with
  | b :: bs =>
    rw [forest_cons, Branch.labelsOfAll_cons, Branch.labelsOfAll_append, List.mem_append,
      List.mem_append]
    rcases List.mem_append.1 hi with hi | hi
    · exact .inl (label_mem_branch hi)
    · exact .inr (.inr (label_mem_forest hi))

end

mutual

theorem labels_sublist_branch (π : Planting α) (b : Branch Nat) :
    (b.labels.map π.label).Sublist (π.branch b).labels := by
  match b with
  | .node i bs =>
    rw [branch_node, Branch.labels_node, Branch.labels_node, List.map_cons]
    exact (labels_sublist π bs).cons_cons _

/-- The labels of the pattern's own nodes are among those of the planting, in their order. -/
theorem labels_sublist (π : Planting α) (bs : List (Branch Nat)) :
    ((labelsOfAll bs).map π.label).Sublist (labelsOfAll (π.forest bs)) := by
  match bs with
  | [] => simp
  | b :: bs =>
    rw [forest_cons, Branch.labelsOfAll_cons, List.map_append, Branch.labelsOfAll_cons,
      Branch.labelsOfAll_append]
    exact (labels_sublist_branch π b).append
      ((labels_sublist π bs).trans (List.sublist_append_right _ _))

end

end Planting

namespace Place

variable {α : Type}

/-- A place lies right between two siblings, wherever the branches it is in stand. -/
def Between (place : Place α) (x y : α) : Prop :=
  (∀ outer, ∃ left, place.before outer = left ++ [x]) ∧
    ∀ outer, ∃ right, place.after outer = y :: right

/-- A place in branches, with more branches on both sides. -/
def beside (left right : List (Branch α)) : Place α → Place α
  | .here l r => .here (left ++ l) (r ++ right)
  | .inside l a inner r => .inside (left ++ l) a inner (r ++ right)

theorem fill_beside (left right f : List (Branch α)) (place : Place α) :
    (place.beside left right).fill f = left ++ place.fill f ++ right := by
  cases place <;> simp [beside, fill]

theorem exists_before_beside {place : Place α} {x : α}
    (h : ∀ outer, ∃ left, place.before outer = left ++ [x]) (left right : List (Branch α))
    (outer : List α) : ∃ left', (place.beside left right).before outer = left' ++ [x] := by
  cases place with
  | here l r => simpa [beside, before] using h (outer ++ left.map Branch.label)
  | inside l a inner r => exact h outer

theorem after_beside_nil (place : Place α) (left : List (Branch α)) (outer : List α) :
    (place.beside left []).after outer = place.after outer := by
  cases place <;> simp [beside, after]

/-- A place in front of more branches. -/
def behind (more : List (Branch α)) : Place α → Place α
  | .here left right => .here left (more ++ right)
  | .inside left a inner right => .inside left a (inner.behind more) right

theorem fill_behind (more f : List (Branch α)) (place : Place α) :
    (place.behind more).fill f = place.fill (f ++ more) := by
  induction place with
  | here left right => simp [behind, fill]
  | inside left a inner right ih => simp [behind, fill, ih]

theorem before_behind (more : List (Branch α)) (place : Place α) (outer : List α) :
    (place.behind more).before outer = place.before outer := by
  induction place generalizing outer with
  | here left right => rfl
  | inside left a inner right ih => exact ih []

theorem after_behind (more : List (Branch α)) (place : Place α) (outer : List α) :
    (place.behind more).after outer = more.map Branch.label ++ place.after outer := by
  induction place generalizing outer with
  | here left right => simp [behind, after]
  | inside left a inner right ih => exact ih []

theorem labels_fill (place : Place α) (f : List (Branch α)) :
    (labelsOfAll (place.fill f)).Perm (labelsOfAll (place.fill []) ++ labelsOfAll f) := by
  induction place with
  | here left right =>
    simp only [fill, Branch.labelsOfAll_append, List.append_nil, List.append_assoc]
    exact List.perm_append_comm.append_left _
  | inside left a inner right ih =>
    simp only [fill, Branch.labelsOfAll_append, Branch.labelsOfAll_cons, Branch.labels_node,
      List.append_assoc, List.cons_append]
    refine List.Perm.append_left _ (List.Perm.cons a ((ih.append_right _).trans ?_))
    rw [List.append_assoc]
    exact List.perm_append_comm.append_left _

end Place

namespace Planting

variable {α : Type} {π : Planting α} {i : Nat}

theorem forest_set_of_not_mem {g : List (Branch α)} {bs : List (Branch Nat)}
    (h : i ∉ labelsOfAll bs) : (π.set i g).forest bs = π.forest bs :=
  forest_congr fun _ hj => agree_set fun he => h (he ▸ hj)

theorem nextOfAll_eq_none {bs : List (Branch Nat)} (h : i ∉ labelsOfAll bs) :
    Branch.nextOfAll i bs = none := by
  match bs with
  | [] => rfl
  | .node j cs :: bs =>
    simp only [Branch.labelsOfAll_cons, Branch.labels_node, List.mem_append, List.mem_cons,
      not_or] at h
    rw [Branch.nextOfAll, Branch.label, if_neg (Ne.symm h.1.1), Branch.nextOf,
      nextOfAll_eq_none h.1.2, nextOfAll_eq_none h.2]
    rfl

/-- What comes behind the region of node `i`, before the next node. -/
def closer (π : Planting α) (bs : List (Branch Nat)) (i : Nat) : List (Branch α) :=
  match Branch.nextOfAll i bs with
  | some _ => []
  | none => [.node (π.closing i) []]

/-- Right behind a node, in front of its next sibling if it has one, is a place of the planting, open
or not. -/
theorem exists_anchor {bs : List (Branch Nat)} (hn : (labelsOfAll bs).Nodup)
    (hi : i ∈ labelsOfAll bs) :
    ∃ place : Place α, (∀ g, (π.set i g).forest bs = place.fill (g ++ π.closer bs i)) ∧
      (π.region i = none → π.forest bs = place.fill []) ∧
      (∀ outer, ∃ left, place.before outer = left ++ [π.label i]) ∧
      (∀ j, Branch.nextOfAll i bs = some j →
        ∀ outer, ∃ right, place.after outer = π.label j :: right) ∧
      (Branch.nextOfAll i bs = none → place.after [] = []) := by
  match bs with
  | .node j cs :: bs =>
    simp only [Branch.labelsOfAll_cons, Branch.labels_node, List.cons_append, List.nodup_cons,
      List.mem_append, not_or, List.nodup_append] at hn hi
    obtain ⟨⟨hjc, hjb⟩, hnc, hnb, hcb⟩ := hn
    by_cases hj : j = i
    · -- The node itself: its region comes right after it.
      subst hj
      have hother (g : List (Branch α)) : (π.set j g).forest bs = π.forest bs :=
        forest_set_of_not_mem hjb
      have hbelow (g : List (Branch α)) : (π.set j g).forest cs = π.forest cs :=
        forest_set_of_not_mem hjc
      have hnext : Branch.nextOfAll j (.node j cs :: bs) = bs.head?.map Branch.label := by
        simp [Branch.nextOfAll, Branch.label]
      refine ⟨.here [.node (π.label j) (π.forest cs)] (π.forest bs), fun g => ?_, fun hr => ?_,
        fun outer => ⟨outer, by simp [Place.before, Branch.label]⟩, fun k hk outer => ?_,
        fun hk => ?_⟩
      · cases bs <;>
          simp [closer, hnext, hother, hbelow, behind, Place.fill, Branch.label]
      · simp [behind, hr, Place.fill, Branch.label]
      · rw [hnext] at hk
        cases bs with
        | nil => cases hk
        | cons b bs =>
          cases b with
          | node k' ds =>
            obtain rfl : k' = k := Option.some.inj hk
            simp [Place.after, Branch.label]
      · rw [hnext] at hk
        cases bs with
        | nil => simp [Place.after]
        | cons b bs => cases hk
    · have hne (g : List (Branch α)) (last : Bool) :
          (π.set i g).behind j last = π.behind j last := behind_congr (agree_set hj) last
      rcases List.mem_cons.1 hi with he | hi
      · exact absurd he.symm hj
      · rcases List.mem_append.1 hi with hi | hi
        · have hib : i ∉ labelsOfAll bs := fun hm => hcb i hi i hm rfl
          obtain ⟨place, hfill, hclosed, hbefore, hsome, hnone⟩ := exists_anchor hnc hi
          have hnext : Branch.nextOfAll i (.node j cs :: bs) = Branch.nextOfAll i cs := by
            simp [Branch.nextOfAll, Branch.nextOf, Branch.label, hj, nextOfAll_eq_none hib]
          refine ⟨.inside [] (π.label j) place (π.behind j bs.isEmpty ++ π.forest bs), fun g => ?_,
            fun hr => ?_, fun _ => hbefore [], fun k hk _ => hsome k (hnext ▸ hk) [],
            fun hk => hnone (hnext ▸ hk)⟩
          · have hother : (π.set i g).forest bs = π.forest bs := forest_set_of_not_mem hib
            simp [closer, hnext, hother, hfill g, hne, Place.fill, Branch.label]
          · simp [hclosed hr, Place.fill, Branch.label]
        · have hic : i ∉ labelsOfAll cs := fun hm => hcb i hm i hi rfl
          obtain ⟨place, hfill, hclosed, hbefore, hsome, hnone⟩ := exists_anchor hnb hi
          have hnext : Branch.nextOfAll i (.node j cs :: bs) = Branch.nextOfAll i bs := by
            simp [Branch.nextOfAll, Branch.nextOf, Branch.label, hj, nextOfAll_eq_none hic]
          refine ⟨place.beside (.node (π.label j) (π.forest cs) :: π.behind j bs.isEmpty) [],
            fun g => ?_, fun hr => ?_, fun outer => ?_, fun k hk outer => ?_, fun hk => ?_⟩
          · have hother : (π.set i g).forest cs = π.forest cs := forest_set_of_not_mem hic
            simp [closer, hnext, hother, hfill g, hne, Place.fill_beside, Branch.label]
          · simp [hclosed hr, Place.fill_beside, Branch.label]
          · exact place.exists_before_beside hbefore _ _ outer
          · rw [Place.after_beside_nil]
            exact hsome k (hnext ▸ hk) outer
          · rw [Place.after_beside_nil]
            exact hnone (hnext ▸ hk)

/-- The region behind a node is a place of the planting. -/
theorem exists_place {bs : List (Branch Nat)} (hn : (labelsOfAll bs).Nodup)
    (hi : i ∈ labelsOfAll bs) :
    ∃ place : Place α, (∀ g, (π.set i g).forest bs = place.fill g) ∧
      place.Between (π.label i) (π.stop bs i) := by
  obtain ⟨place, hfill, -, hbefore, hsome, -⟩ := exists_anchor (π := π) hn hi
  refine ⟨place.behind (π.closer bs i), fun g => ?_, fun outer => ?_, fun outer => ?_⟩
  · rw [hfill, Place.fill_behind]
  · rw [Place.before_behind]
    exact hbefore outer
  · rw [Place.after_behind, closer, stop]
    cases hnext : Branch.nextOfAll i bs with
    | none => exact ⟨place.after outer, rfl⟩
    | some j => exact hsome j hnext outer

end Planting

end LiveMarkup
