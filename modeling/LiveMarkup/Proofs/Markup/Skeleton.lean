import LiveMarkup.Proofs.Markup.Draft

set_option autoImplicit false

/-!
The skeleton of a tree: its elements with the names of their attributes, and its comments. Texts and
the values of attributes are left out. Where a token goes never depends on a text or on the value of
an attribute, so the skeleton of a tree under construction is built from what is left of the tokens.
-/

namespace LiveMarkup

/-- An attribute without its value. -/
def Attribute.erased (a : Attribute) : Attribute := ⟨a.name, ""⟩

/-- A node without the values of its attributes. -/
def NodeKind.erased : NodeKind → NodeKind
  | .element name attributes => .element name (attributes.map Attribute.erased)
  | kind => kind

theorem NodeKind.isText_erased (kind : NodeKind) : kind.erased.isText = kind.isText := by
  cases kind <;> rfl

namespace Branch

/-- A branch that is a text with nothing below it. -/
def IsText (b : Branch NodeKind) : Prop := ∃ content, b = .node (.text content) []

mutual

/-- The branch without texts and values of attributes: nothing if it is a text. -/
def skeleton : Branch NodeKind → List (Branch NodeKind)
  | .node kind bs => if kind.isText then [] else [.node kind.erased (skeletonAll bs)]

def skeletonAll : List (Branch NodeKind) → List (Branch NodeKind)
  | [] => []
  | b :: bs => b.skeleton ++ skeletonAll bs

end

variable {kind : NodeKind} {bs : List (Branch NodeKind)}

@[simp] theorem skeletonAll_nil : skeletonAll [] = [] := by rw [skeletonAll]

@[simp] theorem skeletonAll_cons (b : Branch NodeKind) (bs : List (Branch NodeKind)) :
    skeletonAll (b :: bs) = b.skeleton ++ skeletonAll bs := by rw [skeletonAll]

@[simp] theorem skeletonAll_append (bs cs : List (Branch NodeKind)) :
    skeletonAll (bs ++ cs) = skeletonAll bs ++ skeletonAll cs := by
  induction bs with
  | nil => rfl
  | cons b bs ih => rw [List.cons_append, skeletonAll_cons, ih, skeletonAll_cons, List.append_assoc]

@[simp] theorem skeleton_text (content : String) (bs : List (Branch NodeKind)) :
    (Branch.node (.text content) bs).skeleton = [] := by
  rw [skeleton]
  rfl

theorem skeletonAll_of_isText (h : ∀ b ∈ bs, b.IsText) : skeletonAll bs = [] := by
  induction bs with
  | nil => rfl
  | cons b bs ih =>
    obtain ⟨⟨content, rfl⟩, hbs⟩ := List.forall_mem_cons.1 h
    rw [skeletonAll_cons, skeleton_text, ih hbs, List.append_nil]

theorem skeleton_of_not_text (h : kind.isText = false) (bs : List (Branch NodeKind)) :
    (Branch.node kind bs).skeleton = [.node kind.erased (skeletonAll bs)] := by
  rw [skeleton, if_neg (by simp [h])]

/-- Branches inside one another have their skeletons inside one another. -/
theorem skeletonAll_enclose (inner : List (Branch NodeKind))
    {path : List (NodeKind × List (Branch NodeKind))} (h : ∀ step ∈ path, step.1.isText = false) :
    skeletonAll (enclose inner path) =
      enclose (skeletonAll inner) (path.map fun step => (step.1.erased, skeletonAll step.2)) := by
  induction path generalizing inner with
  | nil => rfl
  | cons step path ih =>
    obtain ⟨hkind, hpath⟩ := List.forall_mem_cons.1 h
    rw [enclose, ih _ hpath, List.map_cons, enclose, skeletonAll_append, skeletonAll_cons,
      skeleton_of_not_text hkind, skeletonAll_nil, List.append_nil]

end Branch

namespace Markup

open Branch (skeletonAll skeletonAll_enclose)

def StartTag.erased (tag : StartTag) : StartTag :=
  { tag with attributes := tag.attributes.map Attribute.erased }

/-- What a token brings to the skeleton. -/
def Token.erased? : Token → Option Token
  | .text _ | .rawText _ _ => none
  | .startTag tag => some (.startTag tag.erased)
  | .endTag name => some (.endTag name)
  | .comment content => some (.comment content)
  | .doctype name => some (.doctype name)

theorem distinct_erased (attributes : List Attribute) :
    Builder.distinct (attributes.map Attribute.erased) =
      (Builder.distinct attributes).map Attribute.erased := by
  have hall (seen : List Attribute) :
      (attributes.map Attribute.erased).foldl
          (fun seen a => if seen.any (·.name == a.name) then seen else seen ++ [a])
          (seen.map Attribute.erased) =
        (attributes.foldl (fun seen a => if seen.any (·.name == a.name) then seen else seen ++ [a])
          seen).map Attribute.erased := by
    induction attributes generalizing seen with
    | nil => rfl
    | cons a attributes ih =>
      have hany : (seen.map Attribute.erased).any (·.name == a.erased.name) =
          seen.any (·.name == a.name) := by
        rw [List.any_map]
        rfl
      rw [List.map_cons, List.foldl_cons, List.foldl_cons, hany, ← ih]
      split
      · rfl
      · rw [List.map_append]
        rfl
  exact hall []

theorem elementOf_erased (tag : StartTag) (foreign : Bool) :
    Builder.elementOf tag.erased foreign =
      ((Builder.elementOf tag foreign).1, (Builder.elementOf tag foreign).2.map Attribute.erased) := by
  have hnames :
      tag.erased.attributes.map (fun a => if foreign then a else { a with name := a.name.toLower }) =
        (tag.attributes.map fun a => if foreign then a else { a with name := a.name.toLower }).map
          Attribute.erased := by
    rw [StartTag.erased, List.map_map, List.map_map]
    refine List.map_congr_left fun a _ => ?_
    cases foreign <;> rfl
  rw [Builder.elementOf, hnames, distinct_erased]
  rfl

def Frame.skeleton (f : Frame) : Frame :=
  { f with attributes := f.attributes.map Attribute.erased, left := skeletonAll f.left }

namespace Draft

/-- The draft of the skeleton. -/
def skeleton (d : Draft) : Draft :=
  { d with inner := skeletonAll d.inner, frames := d.frames.map Frame.skeleton }

theorem foreign_skeleton (d : Draft) : d.skeleton.foreign = d.foreign := by
  rw [foreign, foreign, skeleton]
  cases d.frames <;> rfl

theorem skeleton_put {kind : NodeKind} (h : kind.isText = false) (d : Draft) :
    (d.put kind).skeleton = d.skeleton.put kind.erased := by
  simp [skeleton, put, Branch.skeleton_of_not_text h]

theorem skeleton_addText (d : Draft) (content : String) :
    (d.addText content).skeleton = d.skeleton := by
  rw [addText]
  split
  · rfl
  split
  · next before below hlast =>
    obtain ⟨front, hfront⟩ := List.getLast?_eq_some_iff.1 hlast
    simp [skeleton, hfront]
  · simp [skeleton, put]

theorem skeleton_startElement (d : Draft) (tag : StartTag) :
    (d.startElement tag).skeleton = d.skeleton.startElement tag.erased := by
  have hname : tag.erased.name = tag.name := rfl
  have hclosing : tag.erased.selfClosing = tag.selfClosing := rfl
  simp only [startElement, foreign_skeleton, elementOf_erased, hname, hclosing]
  split
  · split
    · exact skeleton_put rfl d
    · rfl
  · split
    · exact skeleton_put rfl d
    · rfl

theorem closeThrough_skeleton (name : String) (inner : List (Branch NodeKind))
    (frames : List Frame) :
    closeThrough name (skeletonAll inner) (frames.map Frame.skeleton) =
      (closeThrough name inner frames).map fun closed =>
        (skeletonAll closed.1, closed.2.map Frame.skeleton) := by
  induction frames generalizing inner with
  | nil => rfl
  | cons f frames ih =>
    have hclosed : f.skeleton.left ++ [.node f.skeleton.kind (skeletonAll inner)] =
        skeletonAll (f.left ++ [.node f.kind inner]) := by
      rw [Branch.skeletonAll_append, Branch.skeletonAll_cons, Branch.skeletonAll_nil,
        Branch.skeleton_of_not_text rfl]
      rfl
    have hname : f.skeleton.name = f.name := rfl
    rw [List.map_cons, closeThrough, closeThrough, hclosed, ih, hname]
    split <;> rfl

theorem skeleton_endElement (d : Draft) (name : String) :
    (d.endElement name).skeleton = d.skeleton.endElement name := by
  have hclose := closeThrough_skeleton name d.inner d.frames
  rw [endElement, endElement, skeleton, skeleton, hclose]
  cases closeThrough name d.inner d.frames <;> rfl

/-- A token brings to the skeleton what is left of it. -/
theorem skeleton_add (d : Draft) (token : Token) :
    (d.add token).skeleton = token.erased?.elim d.skeleton d.skeleton.add := by
  cases token with
  | text content | rawText element content => exact d.skeleton_addText content
  | comment content => exact skeleton_put rfl d
  | doctype name =>
    have hempty : d.skeleton.frames.isEmpty = d.frames.isEmpty := List.isEmpty_map
    rw [Token.erased?, Option.elim_some, add, add, hempty]
    simp only [show d.skeleton.root = d.root from rfl]
    split
    · exact skeleton_put rfl d
    · rfl
  | startTag tag => exact d.skeleton_startElement tag
  | endTag name => exact d.skeleton_endElement name

theorem skeleton_ofTokens (root : NodeKind) (tokens : List Token) :
    (ofTokens root tokens).skeleton = ofTokens root (tokens.filterMap Token.erased?) := by
  have hall (d : Draft) :
      (tokens.foldl add d).skeleton = (tokens.filterMap Token.erased?).foldl add d.skeleton := by
    induction tokens generalizing d with
    | nil => rfl
    | cons t tokens ih =>
      rw [List.foldl_cons, ih, skeleton_add, List.filterMap_cons]
      cases t.erased? <;> rfl
  exact hall { root }

theorem skeletonAll_branches (d : Draft) : skeletonAll d.branches = d.skeleton.branches := by
  have hpath : ∀ step ∈ d.frames.map fun f => (f.kind, f.left), step.1.isText = false := by
    intro step hstep
    obtain ⟨f, -, rfl⟩ := List.mem_map.1 hstep
    rfl
  rw [branches, skeletonAll_enclose _ hpath, branches, skeleton, List.map_map, List.map_map]
  rfl

/-- The skeleton of what tokens build is decided by what is left of the tokens. -/
theorem skeletonAll_ofTokens (root : NodeKind) (tokens : List Token) :
    skeletonAll (ofTokens root tokens).branches =
      (ofTokens root (tokens.filterMap Token.erased?)).branches := by
  rw [skeletonAll_branches, skeleton_ofTokens]

end Draft

end Markup

end LiveMarkup
