import LiveMarkup.Proofs.Tree.Leaves
import LiveMarkup.Value.Basic

set_option autoImplicit false

/-!
Objects with an identity. A host gives every object it makes an identity of its own, so the identity
says what the object is; values made of such objects are faithful. Faithful values that count as the
same show the same.
-/

namespace LiveMarkup

/-- What stands behind the identities that a host has given out. The texts of prebuilt nodes have
nothing below them. -/
structure Objects where
  strings : StringsId → TemplateStrings
  fragments : Nat → Markup.Rooted
  displays : Nat → String
  leaves : ∀ identity, (fragments identity).content.Leaves NodeKind.isText

/-- A fragment that holds nothing. -/
theorem leaves_empty : (Markup.Rooted.content ⟨{}, ⟨0⟩⟩).Leaves NodeKind.isText :=
  ⟨fun _ => rfl, trivial⟩

namespace Value

mutual

/-- All objects in a value are those that their identities say. -/
def Faithful (objects : Objects) : Value → Prop
  | .template strings values _ =>
    objects.strings strings.identity = strings ∧ FaithfulAll objects values
  | .iterable items => FaithfulAll objects items
  | .node fragment => objects.fragments fragment.identity = fragment.nodes
  | .placeholder _ shown => Faithful objects shown
  | .display object => objects.displays object.identity = object.text
  | .primitive _ | .pending _ | .absent => True

def FaithfulAll (objects : Objects) : List Value → Prop
  | [] => True
  | v :: vs => v.Faithful objects ∧ FaithfulAll objects vs

end

variable {objects : Objects}

theorem faithfulAll_iff {values : List Value} :
    FaithfulAll objects values ↔ ∀ v ∈ values, v.Faithful objects := by
  induction values with
  | nil => simp [FaithfulAll]
  | cons v vs ih => simp [FaithfulAll, ih]

end Value

theorem Primitive.text_of_same {p q : Primitive} (h : p.same q = true) : p.text = q.text := by
  unfold Primitive.same at h
  split at h
  · rename_i x y
    simp only [Decimal.Binary64.sameNumber, Bool.and_eq_true, Bool.or_eq_true, Bool.not_eq_true',
      beq_iff_eq] at h
    obtain ⟨⟨hx, hy⟩, hb | ⟨hzx, hzy⟩⟩ := h
    · obtain ⟨x⟩ := x
      obtain ⟨y⟩ := y
      exact congrArg (fun b => Primitive.text (.number ⟨b⟩)) hb
    · -- Both zeros are written alike.
      have hzero {z : Decimal.Binary64} (hn : z.isNaN = false) (hz : z.isZero = true) :
          z.text = "0" := by
        have hi : z.isInfinite = false := by
          simp only [Decimal.Binary64.isZero, Decimal.Binary64.isInfinite, Bool.and_eq_true,
            beq_iff_eq] at hz ⊢
          simp [hz.1]
        simp [Decimal.Binary64.text, hn, hi, hz]
      rw [Primitive.text, Primitive.text, hzero hx hzx, hzero hy hzy]
  · rw [beq_iff_eq] at h
    rw [h]

namespace Value

variable {objects : Objects}

/-- A value in the place of one that counts as the same has the same text in attributes and is as
much absent. -/
theorem attributeText_of_same {v w : Value} (h : v.same w = true) (hv : v.Faithful objects)
    (hw : w.Faithful objects) : v.attributeText = w.attributeText := by
  match v, w with
  | .primitive p, .primitive q =>
    rw [attributeText, attributeText, Primitive.text_of_same h]
  | .node a, .node b => rfl
  | .pending a, .pending b => rfl
  | .placeholder a x, .placeholder b y =>
    rw [same, Bool.and_eq_true] at h
    rw [attributeText, attributeText, attributeText_of_same h.2 hv hw]
  | .absent, .absent => rfl
  | .display a, .display b =>
    have hid : a.identity = b.identity := beq_iff_eq.1 h
    rw [Faithful] at hv hw
    rw [attributeText, attributeText, ← hv, ← hw, hid]

theorem isAbsent_of_same {v w : Value} (h : v.same w = true) : v.isAbsent = w.isAbsent := by
  cases v <;> cases w <;> first | rfl | cases h

end Value

end LiveMarkup
