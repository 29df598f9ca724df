import LiveMarkup.Proofs.Part.Fits

set_option autoImplicit false

/-!
What a part has of the value that it was given last. A text is the value or counts as the same; a
copy is of the template that the value has and its parts carry the template's values; a list has a
part for each item. A value that a part carries is not applied again if it comes once more.
-/

namespace LiveMarkup

open Branch (labelsOfAll)

/-- The values that a part of a template takes, and what is left of them. -/
def TemplatePart.deal (c : TemplatePart) (slots : Slots) : List Value × Slots :=
  match c.kind with
  | .node => let (value, slots) := slots.take c.valueIndex; ([value], slots)
  | .attribute _ strings => slots.takeMany c.valueIndex strings.size

theorem TemplatePart.deal_node {c : TemplatePart} (h : c.kind = .node) (slots : Slots) :
    c.deal slots = ([(slots.take c.valueIndex).1], (slots.take c.valueIndex).2) := by
  rw [deal, h]

theorem TemplatePart.deal_attribute {c : TemplatePart} {name : String} {strings : AttributeStrings}
    (h : c.kind = .attribute name strings) (slots : Slots) :
    c.deal slots = slots.takeMany c.valueIndex strings.size := by
  rw [deal, h]

/-- The values that each of the parts of a template takes. -/
def Slots.dealt : List TemplatePart → Slots → List (List Value)
  | [], _ => []
  | c :: cs, slots => (c.deal slots).1 :: Slots.dealt cs (c.deal slots).2

/-- The items of a list, each between its beginning and the next. -/
def NodePart.PlacedAll (stop : NodeId) : List NodePart → Cells → Prop
  | [], cells => cells = []
  | part :: parts, cells => ∃ n f rest, cells = (n, f) :: rest ∧ part.start = n ∧
    part.stop = Cells.start stop rest ∧ NodePart.PlacedAll stop parts rest

section

variable (look : Look) (strict : Bool)

mutual

/-- A part with its region is as a value has left it. Of displays and of values that come later
nothing is said. -/
def NodePart.Carries : NodePart → List (Branch NodeId) → Value → Prop
  | _, _, .display _ | _, _, .pending _ | _, _, .placeholder _ _ => True
  | .mk _ _ (.text shown), _, .primitive q => shown = q ∨ shown.same q = true
  | .mk _ _ (.text shown), _, .absent => shown = .null
  | .mk _ _ (.node shown), _, .node fragment => shown.identity = fragment.identity
  | .mk _ _ .empty, f, .iterable values => values = [] ∧ f = []
  | .mk start stop (.items parts), f, .iterable values =>
    ∃ cells : Cells, cells.branches = .node start [] :: f ∧ NodePart.PlacedAll stop parts cells ∧
      NodePart.CarriesAll parts cells values
  | .mk _ _ (.nested shared parts), f, .template strings values kind =>
    look strings kind = some shared ∧ shared.template.Sound ∧
      (strict = true → shared.template.valueCount = values.length) ∧
      ∃ (label closing : Nat → NodeId) (shown : List (Shown NodeId)),
        f = (shared.template.planting label closing shown).forest shared.template.pattern ∧
          Part.CarriesAll label (shared.template.stopAt label closing) parts shared.template.parts
            shown (Slots.dealt shared.template.parts (values.map some))
  | _, _, _ => False

/-- The items of a list carry a value each. -/
def NodePart.CarriesAll : List NodePart → Cells → List Value → Prop
  | [], cells, values => cells = [] ∧ values = []
  | part :: parts, cells, values => ∃ n f rest value others, cells = (n, f) :: rest ∧
    values = value :: others ∧ part.Carries f value ∧ NodePart.CarriesAll parts rest others

/-- A part stands where its template has it and carries the values that it takes. -/
def Part.Carries (label stop : Nat → NodeId) :
    Part → TemplatePart → Shown NodeId → List Value → Prop
  | .node part, c, shown, values => ∃ f value, shown = .region f ∧ values = [value] ∧
    c.kind = .node ∧ part.start = label c.index ∧ part.stop = stop c.index ∧ part.Carries f value
  | .attribute part, c, _, values => c.kind = .attribute part.name part.strings ∧
    ∃ previous, part.previous = some previous ∧
      (previous = values ∨ Value.sameAll previous values = true)

def Part.CarriesAll (label stop : Nat → NodeId) :
    List Part → List TemplatePart → List (Shown NodeId) → List (List Value) → Prop
  | [], cs, shown, dealt => cs = [] ∧ shown = [] ∧ dealt = []
  | part :: parts, cs, shown, dealt => ∃ c cs' s shown' values dealt', cs = c :: cs' ∧
    shown = s :: shown' ∧ dealt = values :: dealt' ∧ part.Carries label stop c s values ∧
    Part.CarriesAll label stop parts cs' shown' dealt'

end

end

variable {look : Look} {strict : Bool}

/-- What an attribute was computed from last is what it was given or counts as the same. -/
theorem AttributePart.previous_setValues (part : AttributePart) (t : Tree) (values : List Value) :
    ∃ previous, (part.setValues t values).1.previous = some previous ∧
      (previous = values ∨ Value.sameAll previous values = true) := by
  rw [setValues]
  split
  · rename_i hunchanged
    unfold unchanged at hunchanged
    split at hunchanged
    · exact ⟨_, ‹_›, .inr hunchanged⟩
    · cases hunchanged
  · split <;> exact ⟨values, rfl, .inl rfl⟩

theorem Part.CarriesAll.snoc {label stop : Nat → NodeId} {ps : List Part} {part : Part}
    {cs : List TemplatePart} {c : TemplatePart} {ss : List (Shown NodeId)} {s : Shown NodeId}
    {dealt : List (List Value)} {values : List Value}
    (h : CarriesAll look strict label stop ps cs ss dealt)
    (hp : part.Carries look strict label stop c s values) :
    CarriesAll look strict label stop (ps ++ [part]) (cs ++ [c]) (ss ++ [s]) (dealt ++ [values]) := by
  induction ps generalizing cs ss dealt with
  | nil =>
    obtain ⟨rfl, rfl, rfl⟩ := h
    exact ⟨c, [], s, [], values, [], rfl, rfl, rfl, hp, rfl, rfl, rfl⟩
  | cons q ps ih =>
    obtain ⟨d, cs, b, ss, others, dealt, rfl, rfl, rfl, hq, h⟩ := h
    exact ⟨d, cs ++ [c], b, ss ++ [s], others, dealt ++ [values], rfl, rfl, rfl, hq, ih h⟩

namespace NodePart

variable {objects : Objects} {known : Registry} {kind : NodeId → NodeKind} {exact : Bool}
  {part : NodePart} {ps : List NodePart} {cells : Cells} {f : List (Branch NodeId)} {value : Value}
  {values : List Value}

theorem carries_display {object : Display} : part.Carries look strict f (.display object) := by
  obtain ⟨_, _, state⟩ := part
  cases state <;> trivial

theorem carries_pending {d : DeferredId} : part.Carries look strict f (.pending d) := by
  obtain ⟨_, _, state⟩ := part
  cases state <;> trivial

theorem carries_placeholder {d : DeferredId} : part.Carries look strict f (.placeholder d value) := by
  obtain ⟨_, _, state⟩ := part
  cases state <;> trivial

theorem FitsCells.placedAll {stop : NodeId}
    (h : FitsCells objects known kind exact stop ps cells) : PlacedAll stop ps cells := by
  induction ps generalizing cells with
  | nil => exact h
  | cons part ps ih =>
    obtain ⟨n, f, rest, rfl, hstart, hstop, -, h⟩ := h
    exact ⟨n, f, rest, rfl, hstart, hstop, ih h⟩

theorem PlacedAll.length_eq {stop : NodeId} (h : PlacedAll stop ps cells) :
    ps.length = cells.length := by
  induction ps generalizing cells with
  | nil =>
    obtain rfl : cells = [] := h
    rfl
  | cons part ps ih =>
    obtain ⟨n, f, rest, rfl, -, -, h⟩ := h
    exact congrArg (· + 1) (ih h)

/-- A list that is laid out in a region has items. -/
theorem PlacedAll.ne_nil {stop : NodeId} {b : Branch NodeId} (h : PlacedAll stop ps cells)
    (hlaid : cells.branches = b :: f) : ps ≠ [] := by
  rintro rfl
  obtain rfl : cells = [] := h
  cases hlaid

theorem PlacedAll.withLastStop {old : NodeId} (h : PlacedAll old ps cells) (stop : NodeId) :
    PlacedAll stop (NodePart.withLastStop old stop ps) cells := by
  induction ps generalizing cells with
  | nil =>
    rw [NodePart.withLastStop]
    exact h
  | cons part ps ih =>
    obtain ⟨n, f, rest, rfl, hstart, hstop, h⟩ := h
    cases ps with
    | nil =>
      obtain rfl : rest = [] := h
      have hold : part.stop = old := hstop
      rw [NodePart.withLastStop, if_pos hold]
      exact ⟨n, f, [], rfl, by rw [start_withStop, hstart], stop_withStop _ _, rfl⟩
    | cons q ps =>
      rw [NodePart.withLastStop]
      refine ⟨n, f, rest, rfl, hstart, ?_, ih h⟩
      obtain ⟨m, g, rest, rfl, -⟩ := h
      exact hstop

namespace CarriesAll

theorem snoc {n : NodeId} (h : CarriesAll look strict ps cells values)
    (hp : part.Carries look strict f value) :
    CarriesAll look strict (ps ++ [part]) (cells ++ [(n, f)]) (values ++ [value]) := by
  induction ps generalizing cells values with
  | nil =>
    obtain ⟨rfl, rfl⟩ := h
    exact ⟨n, f, [], value, [], rfl, rfl, hp, rfl, rfl⟩
  | cons q ps ih =>
    obtain ⟨m, g, rest, v, others, rfl, rfl, hq, h⟩ := h
    exact ⟨m, g, rest ++ [(n, f)], v, others ++ [value], rfl, rfl, hq, ih h⟩

theorem of_snoc (h : CarriesAll look strict (ps ++ [part]) cells values) :
    ∃ left n g vs v, cells = left ++ [(n, g)] ∧ values = vs ++ [v] ∧
      CarriesAll look strict ps left vs ∧ part.Carries look strict g v := by
  induction ps generalizing cells values with
  | nil =>
    obtain ⟨n, g, rest, v, others, rfl, rfl, hp, rfl, rfl⟩ := h
    exact ⟨[], n, g, [], v, rfl, rfl, ⟨rfl, rfl⟩, hp⟩
  | cons q ps ih =>
    obtain ⟨m, k, rest, u, others, rfl, rfl, hq, h⟩ := h
    obtain ⟨left, n, g, vs, v, rfl, rfl, hps, hp⟩ := ih h
    exact ⟨(m, k) :: left, n, g, u :: vs, v, rfl, rfl, ⟨m, k, left, u, vs, rfl, rfl, hq, hps⟩, hp⟩

end CarriesAll

mutual

/-- Where a region ends does not matter for what its part carries. -/
theorem Carries.withStop {part : NodePart} {f : List (Branch NodeId)} {value : Value}
    (h : part.Carries look strict f value) (stop : NodeId) :
    (part.withStop stop).Carries look strict f value := by
  match part with
  | .mk start old (.items parts) =>
    rw [NodePart.withStop]
    match value with
    | .iterable values =>
      obtain ⟨cells, hlaid, hplaced, hcells⟩ := h
      exact ⟨cells, hlaid, hplaced.withLastStop stop, hcells.withLastStop old stop⟩
    | .display _ | .pending _ | .placeholder _ _ => trivial
  | .mk _ _ .empty | .mk _ _ (.text _) | .mk _ _ (.nested _ _) | .mk _ _ (.node _)
  | .mk _ _ (.pending _) => cases value <;> exact h

theorem CarriesAll.withLastStop {parts : List NodePart} {cells : Cells} {values : List Value}
    (h : CarriesAll look strict parts cells values) (old stop : NodeId) :
    CarriesAll look strict (NodePart.withLastStop old stop parts) cells values := by
  match parts with
  | [] =>
    rw [NodePart.withLastStop]
    exact h
  | [part] =>
    obtain ⟨n, f, rest, value, others, rfl, rfl, hp, h⟩ := h
    rw [NodePart.withLastStop]
    refine ⟨n, f, rest, value, others, rfl, rfl, ?_, h⟩
    split
    · exact hp.withStop stop
    · exact hp
  | part :: q :: ps =>
    obtain ⟨n, f, rest, value, others, rfl, rfl, hp, h⟩ := h
    rw [NodePart.withLastStop]
    exact ⟨n, f, rest, value, others, rfl, rfl, hp, h.withLastStop old stop⟩

end

mutual

/-- Which templates are found does not matter for a value without results. -/
theorem Carries.of_strings_nil {look' : Look} {part : NodePart} {f : List (Branch NodeId)}
    {value : Value} (h : part.Carries look strict f value) (hv : value.strings = []) :
    part.Carries look' strict f value := by
  match value with
  | .iterable values =>
    match part with
    | .mk _ _ (.items parts) =>
      obtain ⟨cells, hlaid, hplaced, hcells⟩ := h
      exact ⟨cells, hlaid, hplaced, hcells.of_strings_nil hv⟩
    | .mk _ _ .empty => exact h
    | .mk _ _ (.text _) | .mk _ _ (.nested _ _) | .mk _ _ (.node _) | .mk _ _ (.pending _) =>
      exact h.elim
  | .template _ _ _ => cases hv
  | .display _ => exact carries_display
  | .pending _ => exact carries_pending
  | .placeholder _ _ => exact carries_placeholder
  | .primitive _ | .absent | .node _ =>
    obtain ⟨_, _, state⟩ := part
    cases state <;> exact h

theorem CarriesAll.of_strings_nil {look' : Look} {parts : List NodePart} {cells : Cells}
    {values : List Value} (h : CarriesAll look strict parts cells values)
    (hv : Value.stringsOfAll values = []) : CarriesAll look' strict parts cells values := by
  match parts with
  | [] => exact h
  | part :: parts =>
    obtain ⟨n, f, rest, value, others, rfl, rfl, hp, h⟩ := h
    obtain ⟨hvalue, hothers⟩ := List.append_eq_nil_iff.1 hv
    exact ⟨n, f, rest, value, others, rfl, rfl, hp.of_strings_nil hvalue, h.of_strings_nil hothers⟩

end

/-- The last item ends elsewhere. -/
theorem CarriesAll.withStop_last (h : CarriesAll look strict (ps ++ [part]) cells values)
    (stop : NodeId) : CarriesAll look strict (ps ++ [part.withStop stop]) cells values := by
  obtain ⟨left, n, g, vs, v, rfl, rfl, hps, hp⟩ := h.of_snoc
  exact hps.snoc (hp.withStop stop)

end NodePart

end LiveMarkup
