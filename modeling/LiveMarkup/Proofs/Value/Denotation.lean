import LiveMarkup.Part.Patch
import LiveMarkup.Proofs.Part.Attribute
import LiveMarkup.Proofs.Template.Pattern

set_option autoImplicit false

/-!
What a value shows, by recursion on the value. A template shows its prototype with the branches of
its values behind the anchors and the attributes that its values give; there is no denotation where
a template is missing or the number of values is wrong and counts. Values that come later show what
stands in for them.
-/

namespace LiveMarkup

/-- The branches that prebuilt nodes stand for. -/
def Fragment.branches (f : Fragment) : List (Branch NodeKind) :=
  match f.nodes.content with
  | .node .fragment bs | .node .document bs => bs
  | b => [b]

/-- A value with the branches that it shows, if it can be shown between nodes. -/
structure Meaning where
  value : Value
  branches : Option (List (Branch NodeKind))

/-- An empty text. -/
def Meaning.ofNull : Meaning := ⟨.null, some [.node (.text "") []]⟩

namespace Slots

variable {α β : Type}

/-- What is under an index, or `absent` if there is nothing or not any more, and what is left. -/
def takeFrom (absent : α) (slots : List (Option α)) (index : Nat) : α × List (Option α) :=
  ((slots[index]?.join).getD absent, slots.set index none)

def takeManyFrom (absent : α) (slots : List (Option α)) (index : Nat) :
    Nat → List α × List (Option α)
  | 0 => ([], slots)
  | n + 1 =>
    let (first, slots) := takeFrom absent slots index
    let (others, slots) := takeManyFrom absent slots (index + 1) n
    (first :: others, slots)

theorem take_eq (slots : Slots) (index : Nat) : slots.take index = takeFrom .null slots index := rfl

theorem takeMany_eq (slots : Slots) (index n : Nat) :
    slots.takeMany index n = takeManyFrom .null slots index n := by
  induction n generalizing slots index with
  | zero => rfl
  | succ n ih => simp only [takeMany, takeManyFrom, take_eq, ih]

theorem takeFrom_map (g : α → β) (absent : α) (slots : List (Option α)) (index : Nat) :
    takeFrom (g absent) (slots.map (Option.map g)) index =
      (g (takeFrom absent slots index).1, (takeFrom absent slots index).2.map (Option.map g)) := by
  have hget : ((slots.map (Option.map g))[index]?.join).getD (g absent) =
      g ((slots[index]?.join).getD absent) := by
    rw [List.getElem?_map]
    cases slots[index]? with
    | none => rfl
    | some slot => cases slot <;> rfl
  simp only [takeFrom, hget, List.map_set, Option.map_none]

theorem takeManyFrom_map (g : α → β) (absent : α) (slots : List (Option α)) (index n : Nat) :
    takeManyFrom (g absent) (slots.map (Option.map g)) index n =
      ((takeManyFrom absent slots index n).1.map g,
        (takeManyFrom absent slots index n).2.map (Option.map g)) := by
  induction n generalizing slots index with
  | zero => rfl
  | succ n ih => simp only [takeManyFrom, takeFrom_map, ih, List.map_cons]

end Slots

/-- Branches with an empty text between each two. -/
def Branch.separated : List (List (Branch NodeKind)) → List (Branch NodeKind)
  | [] => []
  | [bs] => bs
  | bs :: cs :: rest => bs ++ .node (.text "") [] :: Branch.separated (cs :: rest)

namespace Template

/-- What the parts of a template show, each given its values. -/
def shows : List TemplatePart → List (Option Meaning) → Option (List (Shown NodeKind))
  | [], _ => some []
  | c :: cs, slots =>
    match c.kind with
    | .node =>
      let (meaning, slots) := Slots.takeFrom .ofNull slots c.valueIndex
      meaning.branches.bind fun bs => (shows cs slots).map (.region bs :: ·)
    | .attribute name strings =>
      let (meanings, slots) := Slots.takeManyFrom .ofNull slots c.valueIndex strings.size
      (shows cs slots).map
        (.attribute (AttributePart.shownBy name strings (meanings.map Meaning.value)) :: ·)

/-- The prototype with what the parts show. -/
def filled (t : Template) (shown : List (Shown NodeKind)) : List (Branch NodeKind) :=
  (t.planting (fun i => (t.kindAt i).extended (Shown.attributesAt t.parts shown i))
    (fun _ => .text "") shown).forest t.pattern

def denote (t : Template) (strict : Bool) (meanings : List Meaning) :
    Option (List (Branch NodeKind)) :=
  if t.valueCount ≠ meanings.length ∧ strict then none
  else (shows t.parts (meanings.map some)).map t.filled

end Template

/-- How compiled templates are found. -/
abbrev Look := TemplateStrings → TemplateKind → Option SharedTemplate

namespace Value

mutual

/-- The branches that a value shows between nodes. -/
def denote (look : Look) (strict : Bool) : Value → Option (List (Branch NodeKind))
  | .primitive p => some [.node (.text p.text) []]
  | .template strings values kind =>
    (look strings kind).bind fun shared =>
      shared.template.denote strict (meanings look strict values)
  | .iterable items =>
    ((meanings look strict items).mapM Meaning.branches).map Branch.separated
  | .node fragment => some fragment.branches
  | .pending _ => some []
  | .placeholder _ shown => denote look strict shown
  | .absent => some [.node (.text "") []]
  | .display object => some [.node (.text object.text) []]

def meanings (look : Look) (strict : Bool) : List Value → List Meaning
  | [] => []
  | v :: vs => ⟨v, denote look strict v⟩ :: meanings look strict vs

end

theorem meanings_eq_map (look : Look) (strict : Bool) (values : List Value) :
    meanings look strict values = values.map fun v => ⟨v, v.denote look strict⟩ := by
  induction values with
  | nil => rfl
  | cons v vs ih => rw [meanings, ih, List.map_cons]

end Value

end LiveMarkup
