import LiveMarkup.Proofs.Value.Denotation
import LiveMarkup.Tree.Html

set_option autoImplicit false

/-!
Writing without a tree. A template is written by walking its prototype once: behind an anchor comes
what is written for the value there, in the mode of the element around it, and an element has the
attributes of its parts behind its own. What comes out is the denotation, written as HTML.
-/

namespace LiveMarkup

open Branch (labelsOfAll numberedAll)
open Markup (isVoid isRawText)
open Markup.CharacterReference (escapeText)

/-- A text, where texts are raw and where they are not. -/
def Html.writeText (raw : Bool) (content : String) : String :=
  if raw then content else escapeText content

/-- A value with what is written for it between nodes, by the mode of the element around. -/
structure Writing where
  value : Value
  text : Option (Bool → String)

def Writing.ofNull : Writing := ⟨.null, some fun _ => ""⟩

/-- What is written for a part: what follows its anchor, or its attribute unless that is left out. -/
inductive Written where
  | content (text : Bool → String)
  | attribute (a : Option Attribute)

namespace Written

def attributeOf (i : Nat) : TemplatePart × Written → Option Attribute
  | (c, .attribute a) => if c.index = i then a else none
  | (_, .content _) => none

def contentOf (i : Nat) : TemplatePart × Written → Option (Bool → String)
  | (c, .content text) => if c.index = i then some text else none
  | (_, .attribute _) => none

/-- The attributes of the parts at node `i`, in the order of the parts. -/
def attributesAt (parts : List TemplatePart) (written : List Written) (i : Nat) : List Attribute :=
  (parts.zip written).filterMap (attributeOf i)

/-- What follows node `i`. -/
def contentAt (parts : List TemplatePart) (written : List Written) (i : Nat) (raw : Bool) :
    String :=
  ((parts.zip written).findSome? (contentOf i)).elim "" (· raw)

end Written

section

variable (style : Html.Style) (parts : List TemplatePart) (written : List Written)

mutual

/-- Writes a branch of a prototype whose first node has the number `i`. -/
def Template.writeNode (raw : Bool) (i : Nat) : Branch NodeKind → String
  | .node .fragment bs | .node .document bs => Template.writeNodes false (i + 1) bs
  | .node (.doctype name) _ => "<!DOCTYPE " ++ name ++ ">"
  | .node (.comment content) _ => "<!--" ++ content ++ "-->"
  | .node (.text content) _ => Html.writeText raw content
  | .node (.element name attributes) bs =>
    let opening := Html.openTag name (attributes ++ Written.attributesAt parts written i)
    if isVoid name then opening ++ if style.selfCloseVoid then "/>" else ">"
    else
      opening ++ ">" ++ Template.writeNodes (isRawText name) (i + 1) bs ++ "</" ++ name ++ ">"

def Template.writeNodes (raw : Bool) (i : Nat) : List (Branch NodeKind) → String
  | [] => ""
  | b :: bs => Template.writeNode raw i b ++ Written.contentAt parts written i raw ++
    Template.writeNodes raw (i + b.labels.length) bs

end

end

namespace Template

/-- What is written for the parts, each given its values. -/
def writes : List TemplatePart → List (Option Writing) → Option (List Written)
  | [], _ => some []
  | c :: cs, slots =>
    match c.kind with
    | .node =>
      let (writing, slots) := Slots.takeFrom .ofNull slots c.valueIndex
      writing.text.bind fun text => (writes cs slots).map (.content text :: ·)
    | .attribute name strings =>
      let (writings, slots) := Slots.takeManyFrom .ofNull slots c.valueIndex strings.size
      (writes cs slots).map
        (.attribute (AttributePart.shownBy name strings (writings.map Writing.value)) :: ·)

/-- Writes a template with values. -/
def write (t : Template) (style : Html.Style) (strict : Bool) (writings : List Writing) :
    Option (Bool → String) :=
  if t.valueCount ≠ writings.length ∧ strict then none
  else (writes t.parts (writings.map some)).map fun written raw =>
    writeNodes style t.parts written raw 1 t.content.branches

end Template

namespace Value

mutual

/-- What is written for a value between nodes. -/
def write (look : Look) (style : Html.Style) (strict : Bool) : Value → Option (Bool → String)
  | .primitive p => some fun raw => Html.writeText raw p.text
  | .template strings values kind =>
    (look strings kind).bind fun shared =>
      shared.template.write style strict (writings look style strict values)
  | .iterable items =>
    ((writings look style strict items).mapM Writing.text).map fun texts raw =>
      String.join (texts.map (· raw))
  | .node fragment => some fun raw => Html.writeAll style raw fragment.branches
  | .pending _ => some fun _ => ""
  | .placeholder _ shown => write look style strict shown
  | .absent => some fun _ => ""
  | .display object => some fun raw => Html.writeText raw object.text

def writings (look : Look) (style : Html.Style) (strict : Bool) : List Value → List Writing
  | [] => []
  | v :: vs => ⟨v, write look style strict v⟩ :: writings look style strict vs

end

end Value

/-- Writes what a template result shows. -/
def TemplateResult.write (look : Look) (style : Html.Style) (strict : Bool) (t : TemplateResult) :
    Option String :=
  ((Value.ofResult t).write look style strict).map (· false)

namespace Html

variable {style : Style} {raw : Bool}

theorem writeAll_append (bs cs : List (Branch NodeKind)) :
    writeAll style raw (bs ++ cs) = writeAll style raw bs ++ writeAll style raw cs := by
  induction bs with
  | nil => simp [writeAll]
  | cons b bs ih => simp [writeAll, ih, String.append_assoc]

theorem writeAll_text (content : String) :
    writeAll style raw [.node (.text content) []] = writeText raw content := by
  simp [writeAll, write, writeText]

theorem writeText_empty : writeText raw "" = "" := by
  cases raw <;> decide

theorem writeAll_separated (bss : List (List (Branch NodeKind))) :
    writeAll style raw (Branch.separated bss) = String.join (bss.map (writeAll style raw)) := by
  match bss with
  | [] => simp [Branch.separated, writeAll]
  | [bs] => simp [Branch.separated]
  | bs :: cs :: rest =>
    have hrest := writeAll_separated (cs :: rest)
    have hempty : write style raw (.node (.text "") []) = "" := by
      have hnull : writeAll style raw [.node (.text "") []] = "" :=
        (writeAll_text "").trans writeText_empty
      simpa [writeAll] using hnull
    rw [Branch.separated, writeAll_append, writeAll, hempty, String.empty_append, hrest,
      List.map_cons, String.join_cons, List.map_cons, String.join_cons, List.map_cons,
      String.join_cons]

end Html

/-- What the writer needs of what a part shows. -/
def Shown.written (style : Html.Style) : Shown NodeKind → Written
  | .region bs => .content fun raw => Html.writeAll style raw bs
  | .attribute a => .attribute a

/-- What the writer needs of a value with its branches. -/
def Meaning.writing (style : Html.Style) (m : Meaning) : Writing :=
  ⟨m.value, m.branches.map fun bs raw => Html.writeAll style raw bs⟩

namespace Shown

variable {style : Html.Style}

theorem attributesAt_written (parts : List TemplatePart) (ss : List (Shown NodeKind)) (i : Nat) :
    Written.attributesAt parts (ss.map (Shown.written style)) i =
      Shown.attributesAt parts ss i := by
  rw [Written.attributesAt, Shown.attributesAt, List.zip_map_right, List.filterMap_map]
  congr 1
  funext cs
  obtain ⟨c, s⟩ := cs
  cases s <;> rfl

theorem contentAt_written (parts : List TemplatePart) (ss : List (Shown NodeKind)) (i : Nat)
    (raw : Bool) :
    Written.contentAt parts (ss.map (Shown.written style)) i raw =
      (Shown.regionAt parts ss i).elim "" (Html.writeAll style raw) := by
  have hof : Written.contentOf i ∘ Prod.map id (Shown.written style) =
      fun cs => (Shown.regionOf i cs).map fun bs raw => Html.writeAll style raw bs := by
    funext ⟨c, s⟩
    cases s with
    | region bs =>
      simp only [Function.comp, Prod.map, Shown.written, Written.contentOf, Shown.regionOf, id]
      split <;> rfl
    | «attribute» a => rfl
  rw [Written.contentAt, Shown.regionAt, List.zip_map_right, List.findSome?_map, hof]
  induction parts.zip ss with
  | nil => rfl
  | cons cs rest ih =>
    rw [List.findSome?_cons, List.findSome?_cons]
    cases Shown.regionOf i cs with
    | none => exact ih
    | some bs => rfl

end Shown

namespace Template

variable {style : Html.Style} {t : Template} {ss : List (Shown NodeKind)}

/-- What comes between two nodes of a copy is what was written for a part. -/
theorem writeAll_behind (label : Nat → NodeKind) (i : Nat) (last raw : Bool) :
    Html.writeAll style raw ((t.planting label (fun _ => .text "") ss).behind i last) =
      Written.contentAt t.parts (ss.map (Shown.written style)) i raw := by
  rw [Shown.contentAt_written]
  simp only [Planting.behind, planting]
  split
  · next hr => rw [hr]; rfl
  · next bs hr =>
    rw [hr, Option.elim_some]
    cases last with
    | false => simp
    | true => simp [Html.writeAll_append, Html.writeAll_text, Html.writeText_empty]

mutual

/-- Walking a branch of the prototype writes its copy. -/
theorem write_branch {i : Nat} {b : Branch NodeKind}
    (h : ∀ j kind, b.labels[j]? = some kind → t.kindAt (i + j) = kind) (raw : Bool) :
    Html.write style raw ((t.planting
        (fun i => (t.kindAt i).extended (Shown.attributesAt t.parts ss i)) (fun _ => .text "")
        ss).branch (b.numbered i)) =
      writeNode style t.parts (ss.map (Shown.written style)) raw i b := by
  match b with
  | .node kind bs =>
    have hkind : t.kindAt i = kind := h 0 kind rfl
    have hrest : ∀ j kind, (labelsOfAll bs)[j]? = some kind → t.kindAt (i + 1 + j) = kind :=
      fun j kind hj => by simpa [Nat.add_right_comm, Nat.add_assoc] using h (j + 1) kind hj
    have hbs (raw : Bool) := write_forest hrest raw
    have hlabel : (t.planting (fun i => (t.kindAt i).extended (Shown.attributesAt t.parts ss i))
        (fun _ => .text "") ss).label i = kind.extended (Shown.attributesAt t.parts ss i) :=
      congrArg (NodeKind.extended · (Shown.attributesAt t.parts ss i)) hkind
    rw [Branch.numbered, Planting.branch_node, hlabel]
    generalize Planting.forest _ _ = copy at hbs ⊢
    cases kind with
    | fragment => simpa [Html.write, writeNode, NodeKind.extended] using hbs false
    | document => simpa [Html.write, writeNode, NodeKind.extended] using hbs false
    | doctype name => simp [Html.write, writeNode, NodeKind.extended]
    | comment content => simp [Html.write, writeNode, NodeKind.extended]
    | text content => simp [Html.write, writeNode, NodeKind.extended, Html.writeText]
    | element name attributes =>
      simp only [Html.write, writeNode, NodeKind.extended, hbs, Shown.attributesAt_written]

theorem write_forest {i : Nat} {bs : List (Branch NodeKind)}
    (h : ∀ j kind, (labelsOfAll bs)[j]? = some kind → t.kindAt (i + j) = kind) (raw : Bool) :
    Html.writeAll style raw ((t.planting
        (fun i => (t.kindAt i).extended (Shown.attributesAt t.parts ss i)) (fun _ => .text "")
        ss).forest (numberedAll i bs)) =
      writeNodes style t.parts (ss.map (Shown.written style)) raw i bs := by
  match bs with
  | [] => rfl
  | b :: bs =>
    rw [Branch.labelsOfAll_cons] at h
    have hfirst : ∀ j kind, b.labels[j]? = some kind → t.kindAt (i + j) = kind := fun j kind hj => by
      refine h j kind ?_
      rw [List.getElem?_append_left (List.getElem?_eq_some_iff.1 hj).1, hj]
    have hrest : ∀ j kind, (labelsOfAll bs)[j]? = some kind →
        t.kindAt (i + b.labels.length + j) = kind := fun j kind hj => by
      rw [Nat.add_assoc]
      refine h (b.labels.length + j) kind ?_
      rw [List.getElem?_append_right (Nat.le_add_right _ _), Nat.add_sub_cancel_left, hj]
    have hb := write_branch hfirst raw
    have hbs := write_forest hrest raw
    have hlabel : (b.numbered i).label = i := by
      cases b
      rfl
    rw [numberedAll, Planting.forest_cons, Html.writeAll, Html.writeAll_append, writeNodes, hb,
      hlabel, writeAll_behind, hbs, String.append_assoc]

end

/-- The prototype with what its parts show is written by one walk. -/
theorem write_filled (t : Template) (ss : List (Shown NodeKind)) (raw : Bool) :
    Html.writeAll style raw (t.filled ss) =
      writeNodes style t.parts (ss.map (Shown.written style)) raw 1 t.content.branches := by
  refine write_forest (fun j kind hj => ?_) raw
  rw [kindAt, kinds_eq, Nat.add_comm, List.getElem?_cons_succ, hj, Option.getD_some]

theorem writes_meanings (cs : List TemplatePart) (slots : List (Option Meaning)) :
    writes cs (slots.map (Option.map (Meaning.writing style))) =
      (shows cs slots).map (List.map (Shown.written style)) := by
  induction cs generalizing slots with
  | nil => rfl
  | cons c cs ih =>
    have hnull : Writing.ofNull = Meaning.writing style .ofNull := by
      simp only [Writing.ofNull, Meaning.writing, Meaning.ofNull, Option.map_some,
        Html.writeAll_text, Html.writeText_empty]
    rw [writes, shows, hnull]
    cases c.kind with
    | node =>
      simp only [Slots.takeFrom_map, ih]
      rw [Meaning.writing]
      cases (Slots.takeFrom Meaning.ofNull slots c.valueIndex).1.branches with
      | none => rfl
      | some bs =>
        simp only [Option.map_some, Option.bind_some, Option.map_map]
        rfl
    | «attribute» name strings =>
      simp only [Slots.takeManyFrom_map, ih, List.map_map, Option.map_map]
      rfl

theorem write_meanings (t : Template) (strict : Bool) (meanings : List Meaning) :
    t.write style strict (meanings.map (Meaning.writing style)) =
      (t.denote strict meanings).map fun bs raw => Html.writeAll style raw bs := by
  have hslots : (meanings.map (Meaning.writing style)).map some =
      (meanings.map some).map (Option.map (Meaning.writing style)) := by
    rw [List.map_map, List.map_map]
    rfl
  rw [write, denote, List.length_map, hslots, writes_meanings]
  split
  · rfl
  · rw [Option.map_map, Option.map_map]
    congr 1
    funext ss raw
    exact (t.write_filled ss raw).symm

end Template

namespace Value

variable {look : Look} {style : Html.Style} {strict : Bool}

theorem mapM_writings (ms : List Meaning) :
    (ms.map (Meaning.writing style)).mapM Writing.text =
      (ms.mapM Meaning.branches).map (List.map fun bs raw => Html.writeAll style raw bs) := by
  induction ms with
  | nil => rfl
  | cons m ms ih =>
    rw [List.map_cons, List.mapM_cons, List.mapM_cons, ih, Meaning.writing]
    cases m.branches with
    | none => rfl
    | some bs => cases ms.mapM Meaning.branches <;> rfl

mutual

/-- What is written for a value is its denotation. -/
theorem write_eq_denote (v : Value) :
    v.write look style strict =
      (v.denote look strict).map fun bs raw => Html.writeAll style raw bs := by
  match v with
  | .primitive p => simp [write, denote, Html.writeAll_text]
  | .template strings values kind =>
    rw [write, denote, writings_eq values]
    cases look strings kind with
    | none => rfl
    | some shared => exact shared.template.write_meanings strict _
  | .iterable items =>
    rw [write, denote, writings_eq items, mapM_writings, Option.map_map, Option.map_map]
    congr 1
    funext bss raw
    simp [Html.writeAll_separated, Function.comp_def]
  | .node fragment => rfl
  | .pending d => simp [write, denote, Html.writeAll]
  | .placeholder d shown => rw [write, denote, write_eq_denote shown]
  | .absent => simp [write, denote, Html.writeAll_text, Html.writeText_empty]
  | .display object => simp [write, denote, Html.writeAll_text]

theorem writings_eq (values : List Value) :
    writings look style strict values =
      (meanings look strict values).map (Meaning.writing style) := by
  match values with
  | [] => rfl
  | v :: vs =>
    rw [writings, meanings, List.map_cons, write_eq_denote v, writings_eq vs]
    rfl

end

end Value

end LiveMarkup
