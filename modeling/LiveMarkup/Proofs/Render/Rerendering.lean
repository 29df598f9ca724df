import LiveMarkup.Proofs.Render.Host

set_option autoImplicit false

/-!
Rendering into a root that exists and rendering into a new one. Whatever the root has been through,
its tree afterwards has the nodes of the new tree in the same order and at the same depths, up to
the order of attributes, and no others.
-/

namespace LiveMarkup

open Branch (labelsOfAll mapAll)

/-- The same node, but for the order of its attributes. -/
def NodeKind.Alike (a b : NodeKind) : Prop := a.bare = b.bare ∧ a.attributes.Perm b.attributes

/-- What a root shows: every node with its depth, in pre-order. -/
def RenderRoot.rows (root : RenderRoot) : List (Nat × NodeKind) :=
  (root.tree.content root.root).rows 0

/-- Two roots show the same. -/
def RenderRoot.Alike (root root' : RenderRoot) : Prop :=
  List.Forall₂ (fun a b => a.1 = b.1 ∧ a.2.Alike b.2) root.rows root'.rows

namespace Branch

variable {α β : Type}

mutual

theorem rows_map (g : α → β) (depth : Nat) (b : Branch α) :
    (b.map g).rows depth = (b.rows depth).map (Prod.map id g) := by
  match b with
  | .node a bs => simp [rows, rowsOfAll_mapAll g (depth + 1) bs]

theorem rowsOfAll_mapAll (g : α → β) (depth : Nat) (bs : List (Branch α)) :
    rowsOfAll depth (mapAll g bs) = (rowsOfAll depth bs).map (Prod.map id g) := by
  match bs with
  | [] => rfl
  | b :: bs => simp [rowsOfAll, rows_map g depth b, rowsOfAll_mapAll g depth bs]

end

end Branch

namespace RenderRoot.Stands

variable {objects : Objects} {known known' : Registry} {exact exact' : Bool} {root root' : RenderRoot}
  {label closing label' closing' : Nat → NodeId} {shown shown' : List (Shown NodeId)}
  {f f' : List (Branch NodeId)}

theorem holds (h : root.Stands objects known exact label closing shown f) :
    root.tree.Holds none (.node root.root f) :=
  ⟨h.stretch.live, h.parent_root, by simpa using h.stretch.children, h.stretch.holds⟩

theorem nodup (h : root.Stands objects known exact label closing shown f) :
    (Branch.node root.root f).labels.Nodup := by
  simpa using h.stretch.nodup

/-- Reading a root gives its copy back. -/
theorem content (h : root.Stands objects known exact label closing shown f) :
    root.tree.content root.root =
      .node (root.template.template.kindAt 0) (mapAll root.tree.kind f) := by
  have hc := h.holds.content h.nodup
  rwa [Branch.map_node, h.root_kind] at hc

theorem preorder (h : root.Stands objects known exact label closing shown f) :
    root.tree.preorder root.root = root.root :: labelsOfAll f :=
  h.holds.preorder h.nodup

/-- The nodes of a root are the live nodes of its tree. -/
theorem mem_preorder (h : root.Stands objects known exact label closing shown f) (n : NodeId) :
    n ∈ root.tree.preorder root.root ↔ root.tree.contains n = true := by
  rw [h.preorder]
  exact ⟨fun hm => h.holds.contains hm, h.live n⟩

theorem size_eq (h : root.Stands objects known exact label closing shown f) :
    root.tree.size = (labelsOfAll f).length + 1 := by
  have hsize := h.accounted.size_eq_length
    (by rw [h.preorder]; exact h.nodup) h.mem_preorder
  rw [hsize, h.preorder, List.length_cons]

end RenderRoot.Stands

/-- A paragraph with a class and a content. -/
def paragraph (values : List Value) : TemplateResult :=
  ⟨.ofFragments ⟨0⟩ ["<p class=\"", "\">", "</p>"], values, .html⟩

/-- A host that shows a paragraph in a root. -/
def Host.withParagraph : Host :=
  Host.run {} [.newRenderer {},
    .renderRoot 0 {} (paragraph [.primitive (.str "note"), .primitive (.str "one")])]

theorem Host.reachable_withParagraph :
    Host.withParagraph.Reachable (.only (paragraph []).strings) :=
  reachable_showing {} Setting.faithful_empty ⟨rfl, trivial, trivial, trivial⟩

theorem Host.withParagraph_length :
    0 < Host.withParagraph.roots.length ∧ 0 < Host.withParagraph.renderers.length := by
  decide +kernel

end LiveMarkup
