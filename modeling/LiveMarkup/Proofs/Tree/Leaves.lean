import LiveMarkup.Proofs.Tree.Copying

set_option autoImplicit false

/-!
Texts have no children. Whatever exchanges branches for others that keep to this keeps the arena to
it.
-/

namespace LiveMarkup

open Branch (labelsOfAll mapAll)

namespace Branch

variable (q : NodeKind → Bool)

mutual

/-- Nodes of some kinds have nothing below them. -/
def Leaves : Branch NodeKind → Prop
  | .node kind bs => (q kind = true → bs = []) ∧ LeavesAll bs

def LeavesAll : List (Branch NodeKind) → Prop
  | [] => True
  | b :: bs => b.Leaves ∧ LeavesAll bs

end

variable {q}

@[simp] theorem leavesAll_nil : LeavesAll q [] := trivial

@[simp] theorem leavesAll_cons {b : Branch NodeKind} {bs : List (Branch NodeKind)} :
    LeavesAll q (b :: bs) ↔ b.Leaves q ∧ LeavesAll q bs := Iff.rfl

@[simp] theorem leaves_node {kind : NodeKind} {bs : List (Branch NodeKind)} :
    Leaves q (.node kind bs) ↔ (q kind = true → bs = []) ∧ LeavesAll q bs := Iff.rfl

theorem leavesAll_iff {bs : List (Branch NodeKind)} : LeavesAll q bs ↔ ∀ b ∈ bs, b.Leaves q := by
  induction bs with
  | nil => simp
  | cons b bs ih => simp [ih]

theorem leaves_of_label {b : Branch NodeKind} (h : q b.label = false) (hb : LeavesAll q b.branches) :
    b.Leaves q := by
  cases b with
  | node kind bs => exact ⟨fun hk => absurd (hk.symm.trans h) (by simp), hb⟩

@[simp] theorem leavesAll_append {bs cs : List (Branch NodeKind)} :
    LeavesAll q (bs ++ cs) ↔ LeavesAll q bs ∧ LeavesAll q cs := by
  induction bs with
  | nil => simp
  | cons b bs ih => simp [ih, and_assoc]

end Branch

namespace Tree

variable {t t' : Tree} {p : NodeId} {before after old : List NodeId} {g : List (Branch NodeId)}
  {q : NodeKind → Bool} {kind : NodeId → NodeKind}

mutual

theorem Holds.leaves_iff {up : Option NodeId} {b : Branch NodeId} (h : t.Holds up b) :
    (b.map kind).Leaves q ↔ ∀ n ∈ b.labels, q (kind n) = true → t.children n = [] := by
  match b with
  | .node id bs =>
    obtain ⟨-, -, hc, hbs⟩ := h
    have hnil : mapAll kind bs = [] ↔ t.children id = [] := by
      rw [hc, Branch.mapAll_eq_map, List.map_eq_nil_iff, List.map_eq_nil_iff]
    rw [Branch.map_node, Branch.leaves_node, hnil, hbs.leaves_iff, Branch.labels_node,
      List.forall_mem_cons]

theorem HoldsAll.leaves_iff {up : Option NodeId} {bs : List (Branch NodeId)}
    (h : t.HoldsAll up bs) :
    Branch.LeavesAll q (mapAll kind bs) ↔
      ∀ n ∈ labelsOfAll bs, q (kind n) = true → t.children n = [] := by
  match bs with
  | [] => simp
  | b :: bs =>
    rw [Branch.mapAll_cons, Branch.leavesAll_cons, h.1.leaves_iff, h.2.leaves_iff,
      Branch.labelsOfAll_cons, List.forall_mem_append]

end

/-- Texts have no children. -/
def TextLeaves (t : Tree) : Prop :=
  ∀ n, t.contains n = true → (t.kind n).isText = true → t.children n = []

/-- A node with children is no text. -/
theorem TextLeaves.not_text (h : t.TextLeaves) (hl : t.contains p = true) (hc : t.children p ≠ []) :
    (t.kind p).isText = false :=
  Bool.eq_false_iff.2 fun hk => hc (h p hl hk)

theorem TextLeaves.exchange (h : t.TextLeaves) (hx : Exchange t t' p old (labelsOfAll g))
    (hs : Stretch t' p before g after) (hp : (t.kind p).isText = false)
    (hg : Branch.LeavesAll NodeKind.isText (mapAll t'.kind g)) : t'.TextLeaves := by
  intro n hl hk
  by_cases hn : n ∈ labelsOfAll g
  · exact hs.holds.leaves_iff.1 hg n hn hk
  obtain ⟨hlive, hold⟩ := (hx.live n hl).resolve_left hn
  by_cases hnp : n = p
  · rw [hnp, hx.kind_owner, hp] at hk
    cases hk
  · have hcore := hx.core_other n hlive hold hnp
    rw [children_of_core hcore]
    rw [kind_of_core hcore] at hk
    exact h n hlive hk

theorem TextLeaves.grows {b : Branch NodeId} (h : t.TextLeaves) (hg : Grows t t' b)
    (hb : (b.map t'.kind).Leaves NodeKind.isText) : t'.TextLeaves := by
  intro n hl hk
  rcases hg.live n hl with hn | hold
  · exact hg.holds.leaves_iff.1 hb n hn hk
  · rw [kind_of_core (hg.core n hold)] at hk
    rw [children_of_core (hg.core n hold)]
    exact h n hold hk

theorem TextLeaves.edit {id : NodeId} {kind : NodeKind} (h : t.TextLeaves) (he : Edits t t' id kind)
    (hk : kind.isText = true → (t.kind id).isText = true) : t'.TextLeaves := by
  intro n hl htext
  rw [(he.sameLinks n).2.2]
  refine h n ((he.sameLinks n).1 ▸ hl) ?_
  by_cases hn : n = id
  · subst hn
    rw [he.kind_self] at htext
    exact hk htext
  · rwa [he.kind_other hn] at htext

/-- In a stretch between two nodes the owner is no text. -/
theorem Stretch.owner_not_text {start stop : NodeId} {f : List (Branch NodeId)}
    (h : Stretch t p (before ++ [start]) f (stop :: after)) (hl : t.TextLeaves) :
    (t.kind p).isText = false :=
  hl.not_text h.live (by simp [h.children])

end Tree

end LiveMarkup
