import LiveMarkup.Proofs.Part.Attribute
import LiveMarkup.Proofs.Value.Repeating

set_option autoImplicit false

/-!
Values made anew that say the same. Lists and results are never one object with those of the render
before, so an attribute is written again for them; but it is given the text that it has.
-/

namespace LiveMarkup

namespace Value

mutual

/-- A value says what another one says, wherever both stand: scalars are equal, which NaN is not to
itself, prebuilt nodes are the same object, lists say the same item by item, and results are of equal
fragments and one kind with values that say the same. -/
def Echoes : Value → Value → Prop
  | .primitive p, .primitive q => p.same q = true
  | .absent, .absent => True
  | .node a, .node b => a.identity = b.identity
  | .iterable vs, .iterable ws => EchoesAll vs ws
  | .template strings vs kind, .template strings' ws kind' =>
    strings.fragments = strings'.fragments ∧ kind = kind' ∧ EchoesAll vs ws
  | _, _ => False

def EchoesAll : List Value → List Value → Prop
  | [], [] => True
  | v :: vs, w :: ws => Echoes v w ∧ EchoesAll vs ws
  | _, _ => False

end

mutual

theorem attributeText_of_echoes {v w : Value} (h : v.Echoes w) :
    v.attributeText = w.attributeText := by
  match v, w with
  | .primitive p, .primitive q =>
    rw [attributeText, attributeText, Primitive.text_of_same h]
  | .absent, .absent | .node _, .node _ | .template _ _ _, .template _ _ _ => rfl
  | .iterable vs, .iterable ws =>
    rw [attributeText, attributeText, attributeTexts_of_echoes h]

theorem attributeTexts_of_echoes {vs ws : List Value} (h : EchoesAll vs ws) :
    attributeTexts vs = attributeTexts ws := by
  match vs, ws with
  | [], [] => rfl
  | v :: vs, w :: ws =>
    rw [attributeTexts, attributeTexts, attributeText_of_echoes h.1, attributeTexts_of_echoes h.2]

end

theorem isAbsent_of_echoes {v w : Value} (h : v.Echoes w) : v.isAbsent = w.isAbsent := by
  cases v <;> cases w <;> first | rfl | cases h

theorem echoes_null : null.Echoes null := rfl

theorem EchoesAll.get {vs ws : List Value} (h : EchoesAll vs ws) (i : Nat) :
    (vs[i]?.getD null).Echoes (ws[i]?.getD null) := by
  match vs, ws, i with
  | [], [], _ => exact echoes_null
  | v :: vs, w :: ws, 0 => exact h.1
  | v :: vs, w :: ws, i + 1 => exact h.2.get i

end Value

namespace AttributePart

theorem interleave_of_echoes {segments : List String} {values values' : List Value}
    (h : Value.EchoesAll values values') :
    interleave segments values = interleave segments values' := by
  match values, values' with
  | [], [] => rfl
  | v :: vs, w :: ws =>
    match segments with
    | [] => rfl
    | [last] => rfl
    | segment :: next :: segments =>
      simp only [interleave, Value.attributeText_of_echoes h.1, interleave_of_echoes h.2]

theorem text_of_echoes {strings : AttributeStrings} {values values' : List Value}
    (h : Value.EchoesAll values values') : text strings values = text strings values' := by
  cases strings with
  | interpolated segments => exact interleave_of_echoes h
  | whole =>
    match values, values' with
    | [], [] => rfl
    | .iterable vs :: _, .iterable ws :: _ =>
      rw [text, text, Value.attributeTexts_of_echoes h.1]
    | .primitive p :: _, .primitive q :: _ => exact Value.attributeText_of_echoes h.1
    | .absent :: _, .absent :: _ | .node _ :: _, .node _ :: _
    | .template _ _ _ :: _, .template _ _ _ :: _ => rfl
    | .pending _ :: _, _ :: _ | .placeholder _ _ :: _, _ :: _ | .display _ :: _, _ :: _ =>
      exact h.1.elim

theorem any_isAbsent_of_echoes {values values' : List Value} (h : Value.EchoesAll values values') :
    values.any Value.isAbsent = values'.any Value.isAbsent := by
  match values, values' with
  | [], [] => rfl
  | v :: vs, w :: ws =>
    rw [List.any_cons, List.any_cons, Value.isAbsent_of_echoes h.1, any_isAbsent_of_echoes h.2]

theorem shownBy_of_echoes (name : String) (strings : AttributeStrings)
    {values values' : List Value} (h : Value.EchoesAll values values') :
    shownBy name strings values = shownBy name strings values' := by
  rw [shownBy, shownBy, any_isAbsent_of_echoes h, text_of_echoes h]

end AttributePart

namespace Slots

/-- What is left of the values of a template says what is left of others. -/
def Echo (slots slots' : Slots) : Prop := ∀ i, (slots.take i).1.Echoes (slots'.take i).1

variable {slots slots' : Slots}

theorem echo_of_echoes {vs ws : List Value} (h : Value.EchoesAll vs ws) :
    Echo (vs.map some) (ws.map some) := by
  intro i
  rw [take_map_some, take_map_some]
  exact h.get i

theorem Echo.take (h : Echo slots slots') (i : Nat) : Echo (slots.take i).2 (slots'.take i).2 := by
  intro j
  rw [take_take, take_take]
  split
  · exact Value.echoes_null
  · exact h j

theorem Echo.takeMany (h : Echo slots slots') (i n : Nat) :
    Value.EchoesAll (slots.takeMany i n).1 (slots'.takeMany i n).1 ∧
      Echo (slots.takeMany i n).2 (slots'.takeMany i n).2 := by
  induction n generalizing slots slots' i with
  | zero => exact ⟨trivial, h⟩
  | succ n ih =>
    obtain ⟨hrest, hleft⟩ := ih (h.take i) (i + 1)
    exact ⟨⟨h i, hrest⟩, hleft⟩

end Slots

end LiveMarkup
