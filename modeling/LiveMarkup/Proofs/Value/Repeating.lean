import LiveMarkup.Part.Patch
import LiveMarkup.Proofs.Value.Denotation

set_option autoImplicit false

/-!
Values that say the same once more. Scalars repeat each other if they are equal, which NaN is not to
itself, prebuilt nodes if they are the same object, lists item by item; results of one template
repeat each other if the values between nodes do and the values in attributes count as the same.
-/

namespace LiveMarkup

/-- Whether a template shows its value `i` between nodes. -/
def Template.ShowsAt (t : Template) (i : Nat) : Prop :=
  ∃ c ∈ t.parts, c.size = none ∧ c.valueIndex = i

/-- Whether a template writes its value `i` into an attribute. -/
def Template.WritesAt (t : Template) (i : Nat) : Prop :=
  ∃ c ∈ t.parts, ∃ n ∈ c.size, c.valueIndex ≤ i ∧ i < c.valueIndex + n

instance (t : Template) (i : Nat) : Decidable (t.WritesAt i) :=
  inferInstanceAs (Decidable (∃ c ∈ t.parts, ∃ n ∈ c.size, c.valueIndex ≤ i ∧ i < c.valueIndex + n))

namespace Value

section

variable (look : Look)

mutual

/-- A value between nodes says what another one says, by the templates that are found. -/
def Repeats : Value → Value → Prop
  | .primitive p, .primitive q => p.same q = true
  | .absent, .absent => True
  | .node a, .node b => a.identity = b.identity
  | .iterable vs, .iterable ws => RepeatsAll vs ws
  | .template strings vs kind, .template strings' ws kind' => strings = strings' ∧ kind = kind' ∧
    ∀ found, look strings kind = some found → RepeatsFrom vs ws found.template 0
  | _, _ => False

def RepeatsAll : List Value → List Value → Prop
  | [], [] => True
  | v :: vs, w :: ws => Repeats v w ∧ RepeatsAll vs ws
  | _, _ => False

/-- The values of a template from the `i`-th on, each where the template has it. -/
def RepeatsFrom : List Value → List Value → Template → Nat → Prop
  | [], [], _, _ => True
  | v :: vs, w :: ws, t, i => (t.ShowsAt i → Repeats v w) ∧ (t.WritesAt i → v.same w = true) ∧
    RepeatsFrom vs ws t (i + 1)
  | _, _, _, _ => False

end

end

end Value

variable {look : Look}

theorem Decimal.Binary64.sameNumber_trans {x y z : Decimal.Binary64} (h : x.sameNumber y = true)
    (h' : y.sameNumber z = true) : x.sameNumber z = true := by
  simp only [sameNumber, Bool.and_eq_true, Bool.or_eq_true, Bool.not_eq_true', beq_iff_eq] at h h' ⊢
  obtain ⟨⟨hx, -⟩, hxy⟩ := h
  obtain ⟨⟨-, hz⟩, hyz⟩ := h'
  refine ⟨⟨hx, hz⟩, ?_⟩
  rcases hxy with hxy | ⟨hzero, hzero'⟩
  · obtain ⟨x⟩ := x
    obtain ⟨y⟩ := y
    obtain rfl : x = y := hxy
    exact hyz
  · rcases hyz with hyz | ⟨-, hzero''⟩
    · obtain ⟨y⟩ := y
      obtain ⟨z⟩ := z
      obtain rfl : y = z := hyz
      exact .inr ⟨hzero, hzero'⟩
    · exact .inr ⟨hzero, hzero''⟩

namespace Primitive

variable {p q r : Primitive}

/-- Scalars that count as the same are equal unless they are numbers. -/
theorem eq_or_number_of_same (h : p.same q = true) :
    p = q ∨ ∃ x y, p = .number x ∧ q = .number y ∧ x.sameNumber y = true := by
  unfold same at h
  split at h
  · exact .inr ⟨_, _, rfl, rfl, h⟩
  · exact .inl (beq_iff_eq.1 h)

theorem same_trans (h : p.same q = true) (h' : q.same r = true) : p.same r = true := by
  rcases eq_or_number_of_same h with rfl | ⟨x, y, rfl, rfl, hxy⟩
  · exact h'
  rcases eq_or_number_of_same h' with rfl | ⟨y', z, hy, rfl, hyz⟩
  · exact h
  · obtain rfl := Primitive.number.inj hy
    exact Decimal.Binary64.sameNumber_trans hxy hyz

end Primitive

namespace Value

theorem same_trans {u v w : Value} (h : u.same v = true) (h' : v.same w = true) :
    u.same w = true := by
  match u, v, w with
  | .primitive p, .primitive q, .primitive r => exact Primitive.same_trans h h'
  | .node a, .node b, .node c => exact beq_iff_eq.2 ((beq_iff_eq.1 h).trans (beq_iff_eq.1 h'))
  | .pending a, .pending b, .pending c =>
    exact beq_iff_eq.2 ((beq_iff_eq.1 h).trans (beq_iff_eq.1 h'))
  | .display a, .display b, .display c =>
    exact beq_iff_eq.2 ((beq_iff_eq.1 h).trans (beq_iff_eq.1 h'))
  | .absent, .absent, .absent => rfl
  | .placeholder a x, .placeholder b y, .placeholder c z =>
    rw [same, Bool.and_eq_true] at h h' ⊢
    exact ⟨beq_iff_eq.2 ((beq_iff_eq.1 h.1).trans (beq_iff_eq.1 h'.1)), same_trans h.2 h'.2⟩

theorem sameAll_trans {us vs ws : List Value} (h : sameAll us vs = true)
    (h' : sameAll vs ws = true) : sameAll us ws = true := by
  match us, vs, ws with
  | [], [], [] => rfl
  | u :: us, v :: vs, w :: ws =>
    rw [sameAll, Bool.and_eq_true] at h h' ⊢
    exact ⟨same_trans h.1 h'.1, sameAll_trans h.2 h'.2⟩

theorem repeats_null : null.Repeats look null := rfl

/-- Each value of a template is repeated where it is. -/
theorem RepeatsFrom.get {vs ws : List Value} {t : Template} {i : Nat}
    (h : RepeatsFrom look vs ws t i) (j : Nat) :
    (t.ShowsAt (i + j) → (vs[j]?.getD null).Repeats look (ws[j]?.getD null)) ∧
      (t.WritesAt (i + j) → (vs[j]?.getD null).same (ws[j]?.getD null) = true) := by
  match vs, ws, j with
  | [], [], j => exact ⟨fun _ => repeats_null, fun _ => rfl⟩
  | v :: vs, w :: ws, 0 => exact ⟨h.1, h.2.1⟩
  | v :: vs, w :: ws, j + 1 =>
    have hrest := h.2.2.get j
    rwa [Nat.add_assoc, Nat.add_comm 1 j] at hrest

theorem RepeatsFrom.length_eq {vs ws : List Value} {t : Template} {i : Nat}
    (h : RepeatsFrom look vs ws t i) : vs.length = ws.length := by
  match vs, ws with
  | [], [] => rfl
  | v :: vs, w :: ws => exact congrArg (· + 1) h.2.2.length_eq

end Value

namespace Slots

/-- What is left of the values of a template says what is left of others. -/
def Repeat (look : Look) (t : Template) (slots slots' : Slots) : Prop := ∀ i,
  (t.ShowsAt i → (slots.take i).1.Repeats look (slots'.take i).1) ∧
    (t.WritesAt i → (slots.take i).1.same (slots'.take i).1 = true)

variable {t : Template} {slots slots' : Slots}

theorem take_map_some (values : List Value) (i : Nat) :
    (Slots.take (values.map some) i).1 = values[i]?.getD .null := by
  rw [Slots.take, List.getElem?_map]
  cases values[i]? <;> rfl

theorem repeat_of_repeatsFrom {vs ws : List Value} (h : Value.RepeatsFrom look vs ws t 0) :
    Repeat look t (vs.map some) (ws.map some) := by
  intro i
  have hi := h.get i
  rw [Nat.zero_add] at hi
  rwa [take_map_some, take_map_some]

/-- What is taken under an index, after something was taken. -/
theorem take_take (slots : Slots) (i j : Nat) :
    ((slots.take i).2.take j).1 = if i = j then .null else (slots.take j).1 := by
  simp only [Slots.take, List.getElem?_set]
  by_cases hij : i = j
  · rw [if_pos hij, if_pos hij]
    split <;> rfl
  · rw [if_neg hij, if_neg hij]

theorem Repeat.take (h : Repeat look t slots slots') (i : Nat) :
    Repeat look t (slots.take i).2 (slots'.take i).2 := by
  intro j
  rw [take_take, take_take]
  split
  · exact ⟨fun _ => Value.repeats_null, fun _ => rfl⟩
  · exact h j

theorem Repeat.takeMany (h : Repeat look t slots slots') {i n : Nat}
    (hw : ∀ j, i ≤ j → j < i + n → t.WritesAt j) :
    Value.sameAll (slots.takeMany i n).1 (slots'.takeMany i n).1 = true ∧
      Repeat look t (slots.takeMany i n).2 (slots'.takeMany i n).2 := by
  induction n generalizing slots slots' i with
  | zero => exact ⟨rfl, h⟩
  | succ n ih =>
    obtain ⟨hsame, hrest⟩ := ih (h.take i) (i := i + 1) fun j hi hj => hw j (by omega) (by omega)
    refine ⟨?_, hrest⟩
    have hfirst := (h i).2 (hw i (Nat.le_refl i) (by omega))
    simp only [Slots.takeMany, Value.sameAll, hfirst, hsame, Bool.and_self]

end Slots

end LiveMarkup
