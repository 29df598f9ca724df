import LiveMarkup.Proofs.Part.Bind
import LiveMarkup.Proofs.Template.Joining
import LiveMarkup.Proofs.Tree.Editing

set_option autoImplicit false

/-!
What the parts of a copy are bound to. Copying a compiled template cannot fail, whatever the tree:
the parts come out one for one and in order, each at the node that stands at its place in the copy,
and the node is what the part asks for.
-/

namespace LiveMarkup

open Branch (labelsOfAll)

/-- A part is what the template says, at a node that can hold it: an anchor that has siblings, or an
element. -/
def Part.BoundTo (tree : Tree) (c : TemplatePart) (node : NodeId) : Part → Prop
  | .node part => c.kind = .node ∧ part.start = node ∧ tree.kind node = .text "" ∧
    ∃ p, tree.parent node = some p
  | .attribute part => c.kind = .attribute part.name part.strings ∧ part.element = node ∧
    (tree.kind node).isElement = true

variable {objects : Objects} {known : Registry} {kind : NodeId → NodeKind} {exact : Bool}

theorem Part.FitsAll.forall₂ {label stop : Nat → NodeId} {parts : List Part}
    {cs : List TemplatePart} {shown : List (Shown NodeId)} {R : TemplatePart → Part → Prop}
    (h : Part.FitsAll objects known kind exact label stop parts cs shown)
    (hR : ∀ c ∈ cs, ∀ part s, part.Fits objects known kind exact label stop c s → R c part) :
    List.Forall₂ R cs parts := by
  induction parts generalizing cs shown with
  | nil =>
    obtain ⟨rfl, -⟩ := h
    exact .nil
  | cons part parts ih =>
    obtain ⟨c, cs, s, shown, rfl, rfl, hfits, hall⟩ := h
    rw [List.forall_mem_cons] at hR
    exact .cons (hR.1 part s hfits) (ih hall hR.2)

namespace Template

variable {t : Template}

/-- The parts of a new copy stand at nodes of it that are what they ask for. -/
theorem Copies.boundTo {before tree : Tree} {copy : Copied} {label closing : Nat → NodeId}
    {f : List (Branch NodeId)} (h : t.Copies objects known true before tree copy label closing f)
    (hs : t.Sound) :
    List.Forall₂ (fun c part =>
      label c.index ∈ tree.preorder copy.root ∧ part.BoundTo tree c (label c.index))
      t.parts copy.parts := by
  have hstretch := h.stretch
  have hheld : tree.Holds none (.node copy.root f) :=
    ⟨hstretch.live, h.parent_root, by simpa using hstretch.children, hstretch.holds⟩
  have horder : tree.preorder copy.root = copy.root :: labelsOfAll f :=
    hheld.preorder (by simpa using hstretch.nodup)
  refine h.fits.forall₂ fun c hc part s hfits => ?_
  have hm : label c.index ∈ labelsOfAll f := by
    rw [h.copied.forest]
    exact Planting.label_mem_forest (hs.index_mem hc)
  -- The copy has no values yet, so its nodes are what those of the prototype are.
  have hkind : tree.kind (label c.index) = t.kindAt c.index := by
    have hview := h.copied.kinds _ (hs.index_mem hc)
    rwa [attributesAt_blank, extended_nil, NodeKind.view_true] at hview
  refine ⟨by simp [horder, hm], ?_⟩
  cases part with
  | node part =>
    obtain ⟨_, _, hk, hstart, _⟩ := hfits
    exact ⟨hk, hstart, hkind.trans (hs.node_part hc hk).1, hstretch.holds.exists_parent hm⟩
  | «attribute» part =>
    obtain ⟨_, hk, helement, _⟩ := hfits
    obtain ⟨tag, attributes, hattr, _⟩ := hs.attribute_part hc hk
    exact ⟨hk, helement, by rw [hkind, hattr]; rfl⟩

/-- A compiled template can be copied into every tree, and each of its parts is bound to the node
that stands at its place in the copy. -/
theorem copyInto_bound {strings : TemplateStrings} {kind : TemplateKind} {detectDocuments : Bool}
    (h : (compile strings kind detectDocuments).outcome = .ok t) {tree : Tree}
    (ha : tree.Accounted) :
    (t.order tree).map (t.imported tree).1.kind = t.kinds ∧
    ∃ tree' copy, t.copyInto tree = (tree', .ok copy) ∧ copy.root = (t.imported tree).2 ∧
      List.Forall₂ (fun c part => ∃ node, (t.order tree)[c.index]? = some node ∧
        node ∈ tree'.preorder copy.root ∧ part.BoundTo tree' c node) t.parts copy.parts := by
  have hs := sound_compile h
  obtain ⟨_, hkinds, _⟩ := hs.opens_imported ha
  -- No value is shown yet, so it does not matter which objects and templates are known.
  obtain ⟨tree', copy, label, closing, f, hcopy, hc⟩ :=
    hs.copyInto ha (Objects.twins []) Registry.empty true
  refine ⟨hkinds, tree', copy, hcopy, hc.root_eq, ?_⟩
  refine List.Forall₂.imp ?_ ((List.forall₂_and_left _ _).2 ⟨hc.places, hc.boundTo hs⟩)
  rintro c part ⟨hplace, hm, hb⟩
  exact ⟨label c.index, hplace, hm, hb⟩

/-- A paragraph with a computed class and text, and a hole behind it. -/
def greeting : TemplateStrings := ⟨⟨0⟩, "<p class=\"", ["\">Hello ", "</p>", ""]⟩

/-- A text that something was put under, with a dead slot. -/
def odd : List Tree.Edit :=
  [.create (.text "a"), .create (.comment "b"), .append ⟨0⟩ ⟨1⟩, .create .fragment, .remove ⟨2⟩]

theorem greeting_copyInto_bound : ∃ t, (compile greeting .html true).outcome = .ok t ∧
    (({} : Tree).edit odd).Accounted ∧
    (t.order (({} : Tree).edit odd)).map (t.imported (({} : Tree).edit odd)).1.kind = t.kinds ∧
    ∃ tree' copy, t.copyInto (({} : Tree).edit odd) = (tree', .ok copy) ∧
      copy.root = (t.imported (({} : Tree).edit odd)).2 ∧
      List.Forall₂ (fun c part => ∃ node, (t.order (({} : Tree).edit odd))[c.index]? = some node ∧
        node ∈ tree'.preorder copy.root ∧ part.BoundTo tree' c node) t.parts copy.parts := by
  have hok : (compile greeting .html true).outcome.isOk = true := by decide +kernel
  cases h : (compile greeting .html true).outcome with
  | error errors =>
    rw [h] at hok
    cases hok
  | ok t =>
    have ha := Tree.accounted_edit odd
    exact ⟨t, rfl, ha, copyInto_bound h ha⟩

end Template

end LiveMarkup
