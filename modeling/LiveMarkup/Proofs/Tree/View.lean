import LiveMarkup.Tree.Node
import Mathlib.Data.Multiset.Defs

set_option autoImplicit false

/-!
What is compared of a node: all of it, or all but the order of its attributes.
-/

namespace LiveMarkup.NodeKind

/-- A node without its attributes. -/
def bare : NodeKind → NodeKind
  | .element name _ => .element name []
  | kind => kind

/-- The node itself, or the node with its attributes in no order. -/
def view (exact : Bool) (kind : NodeKind) : NodeKind × Multiset Attribute :=
  if exact then (kind, ([] : List Attribute)) else (kind.bare, (kind.attributes : Multiset Attribute))

variable {exact : Bool} {kind kind' : NodeKind}

theorem view_true : kind.view true = kind'.view true ↔ kind = kind' := by
  simp [view]

theorem view_false : kind.view false = kind'.view false ↔
    kind.bare = kind'.bare ∧ kind.attributes.Perm kind'.attributes := by
  simp [view]

theorem view_false_of_view (h : kind.view exact = kind'.view exact) :
    kind.view false = kind'.view false := by
  cases exact with
  | false => exact h
  | true => rw [view_true.1 h]

theorem view_element {name : String} {attributes : List Attribute} :
    kind.view exact = (NodeKind.element name attributes).view exact ↔
      ∃ own, kind = .element name own ∧ own.Perm attributes ∧ (exact = true → own = attributes) := by
  cases exact with
  | true =>
    rw [view_true]
    constructor
    · rintro rfl
      exact ⟨attributes, rfl, .refl _, fun _ => rfl⟩
    · rintro ⟨own, rfl, -, he⟩
      rw [he rfl]
  | false =>
    rw [view_false]
    constructor
    · rintro ⟨hb, hp⟩
      cases kind with
      | element name' own =>
        obtain ⟨rfl, -⟩ := NodeKind.element.inj hb
        exact ⟨own, rfl, hp, fun he => absurd he (by decide)⟩
      | _ => cases hb
    · rintro ⟨own, rfl, hp, -⟩
      exact ⟨rfl, hp⟩

end LiveMarkup.NodeKind
