import LiveMarkup.Proofs.Markup.Draft
import LiveMarkup.Proofs.Markup.Letters
import LiveMarkup.Proofs.Markup.Spelling
import LiveMarkup.Tree.Html

set_option autoImplicit false

/-!
Branches that markup can be written for, and their tokens. What is not canonical is written as other
branches are: texts side by side are one text, a comment ends at its first `-->`, names lose their
capitals. The tokens of canonical branches build these branches.
-/

namespace LiveMarkup.Html

open Markup

/-- A name that is read as it is written: none of its characters ends it, and none is a capital. -/
structure IsName (name : String) : Prop where
  word : IsWord name.toList
  lower : ∀ c ∈ name.toList, c.isUpper = false

/-- The name and the attributes of an element outside foreign content. -/
structure IsTag (name : String) (attributes : List Attribute) : Prop where
  named : IsName name
  letter : Starts Char.isAlpha name.toList
  other : name ∉ ["svg", "math", "plaintext"]
  attributes_named : ∀ a ∈ attributes, IsName a.name
  distinct : (attributes.map Attribute.name).Nodup

/-- The end tag of an element, in front of other markup. -/
def ending (name : String) (rest : List Char) : List Char :=
  '<' :: '/' :: (name.toList ++ '>' :: rest)

/-- What an element has whose content is one text. In a text that is written as it stands, nothing
is read as the end tag of the element. -/
def IsContent (mode : TextMode) (name : String) : List (Branch NodeKind) → Prop
  | [] => True
  | [.node (.text content) []] => content ≠ "" ∧ (mode = .raw →
    breakAtEndTag name.toList (content.toList ++ ending name []) = (content.toList, ending name []))
  | _ => False

mutual

/-- A branch that is read back; `top` says that it stands directly in a document. -/
def Canonical (top : Bool) : Branch NodeKind → Prop
  | .node .fragment _ | .node .document _ => False
  | .node (.doctype name) bs =>
    top = true ∧ Text.trim name.toList = name.toList ∧ '>' ∉ name.toList ∧ bs = []
  | .node (.comment content) bs => ¬ ['-', '-', '>'] <:+: content.toList ∧ bs = []
  | .node (.text content) bs => content ≠ "" ∧ bs = []
  | .node (.element name attributes) bs =>
    IsTag name attributes ∧ (isVoid name = true → bs = []) ∧
      match textMode name with
      | some mode => IsContent mode name bs
      | none => CanonicalAll false bs

/-- Branches side by side, no two texts next to each other. -/
def CanonicalAll (top : Bool) : List (Branch NodeKind) → Prop
  | [] => True
  | b :: bs =>
    Canonical top b ∧
      (b.label.isText = true → ∀ next ∈ bs.head?, next.label.isText = false) ∧ CanonicalAll top bs

end

section Decisions

instance (cs : List Char) : Decidable (IsWord cs) :=
  decidable_of_iff (cs.isEmpty = false ∧ cs.all isWordChar = true) (by simp [IsWord])

instance (p : Char → Bool) (cs : List Char) : Decidable (Starts p cs) :=
  decidable_of_iff (cs.head?.any p = true) (by cases cs <;> simp [Starts])

instance (name : String) : Decidable (IsName name) :=
  decidable_of_iff (IsWord name.toList ∧ name.toList.all (!·.isUpper) = true)
    ⟨fun h => ⟨h.1, by simpa using h.2⟩, fun h => ⟨h.1, by simpa using h.2⟩⟩

instance (name : String) (attributes : List Attribute) : Decidable (IsTag name attributes) :=
  decidable_of_iff (IsName name ∧ Starts Char.isAlpha name.toList ∧
      name ∉ ["svg", "math", "plaintext"] ∧ (∀ a ∈ attributes, IsName a.name) ∧
      (attributes.map Attribute.name).Nodup)
    ⟨fun h => ⟨h.1, h.2.1, h.2.2.1, h.2.2.2.1, h.2.2.2.2⟩,
      fun h => ⟨h.1, h.2, h.3, h.4, h.5⟩⟩

instance (mode : TextMode) (name : String) (bs : List (Branch NodeKind)) :
    Decidable (IsContent mode name bs) :=
  match bs with
  | [] => isTrue trivial
  | [.node (.text _) []] => inferInstanceAs (Decidable (_ ≠ _ ∧ (_ → _ = _)))
  | [.node (.text _) (_ :: _)] | [.node .fragment _] | [.node .document _]
  | [.node (.doctype _) _] | [.node (.element _ _) _] | [.node (.comment _) _] => isFalse id
  | _ :: _ :: _ => isFalse (by simp [IsContent])

mutual

def Canonical.decide (top : Bool) : (b : Branch NodeKind) → Decidable (Canonical top b)
  | .node .fragment _ | .node .document _ => isFalse id
  | .node (.doctype _) _ => inferInstanceAs (Decidable (_ = _ ∧ _ = _ ∧ _ ∉ _ ∧ _ = _))
  | .node (.comment _) _ => inferInstanceAs (Decidable (¬ _ <:+: _ ∧ _ = _))
  | .node (.text _) _ => inferInstanceAs (Decidable (_ ≠ _ ∧ _ = _))
  | .node (.element name attributes) bs =>
    have : Decidable (match textMode name with
        | some mode => IsContent mode name bs
        | none => CanonicalAll false bs) :=
      match textMode name with
      | some mode => inferInstanceAs (Decidable (IsContent mode name bs))
      | none => CanonicalAll.decide false bs
    inferInstanceAs (Decidable (IsTag name attributes ∧ _ ∧ _))

def CanonicalAll.decide (top : Bool) :
    (bs : List (Branch NodeKind)) → Decidable (CanonicalAll top bs)
  | [] => isTrue trivial
  | b :: bs =>
    have := Canonical.decide top b
    have := CanonicalAll.decide top bs
    inferInstanceAs (Decidable
      (Canonical top b ∧ (_ → ∀ next ∈ bs.head?, _ = _) ∧ CanonicalAll top bs))

end

instance (top : Bool) (bs : List (Branch NodeKind)) : Decidable (CanonicalAll top bs) :=
  CanonicalAll.decide top bs

end Decisions

mutual

/-- The tokens of a branch; `within` is the name of the parent if its content is one text. -/
def tokens (style : Style) (within : Option String) : Branch NodeKind → List Token
  | .node .fragment bs | .node .document bs => tokensAll style none bs
  | .node (.doctype name) _ => [.doctype name]
  | .node (.comment content) _ => [.comment content]
  | .node (.text content) _ => [within.elim (.text content) (.rawText · content)]
  | .node (.element name attributes) bs =>
    if isVoid name then [.startTag ⟨name, attributes, style.selfCloseVoid⟩]
    else
      .startTag ⟨name, attributes, false⟩ ::
        (tokensAll style (if (textMode name).isSome then some name else none) bs ++ [.endTag name])

def tokensAll (style : Style) (within : Option String) : List (Branch NodeKind) → List Token
  | [] => []
  | b :: bs => tokens style within b ++ tokensAll style within bs

end

section Names

variable {name : String} {attributes : List Attribute}

theorem IsName.toLower (h : IsName name) : name.toLower = name := by
  have hchars : name.toList.map Char.toLower = name.toList := by
    refine (List.map_congr_left fun c hc => ?_).trans (List.map_id _)
    exact Text.toLower_of_not_isUpper (h.lower c hc)
  rw [← String.toList_inj, Text.toList_toLower, hchars]

theorem IsTag.isForeignRoot (h : IsTag name attributes) : isForeignRoot name = false := by
  have hother := h.other
  simp only [List.mem_cons, not_or] at hother
  rw [Markup.isForeignRoot, h.named.toLower, foreignRootNames]
  simp [hother.1, hother.2.1]

theorem IsTag.isRawText (h : IsTag name attributes) :
    isRawText name = (textMode name == some .raw) := by
  have hother : name ≠ "plaintext" := fun he => h.other (by simp [he])
  rw [Markup.isRawText, textMode, h.named.toLower, rawTextNames]
  grind

theorem textMode_of_isVoid (h : isVoid name = true) : textMode name = none := by
  have hmem : name.toLower ∈ voidNames := List.contains_iff_mem.1 h
  rw [textMode]
  generalize name.toLower = lower at hmem ⊢
  revert lower
  decide

theorem isForeignRoot_of_isVoid (h : isVoid name = true) : isForeignRoot name = false := by
  have hmem : name.toLower ∈ voidNames := List.contains_iff_mem.1 h
  rw [isForeignRoot]
  generalize name.toLower = lower at hmem ⊢
  revert lower
  decide

theorem distinct_of_nodup (h : (attributes.map Attribute.name).Nodup) :
    Builder.distinct attributes = attributes := by
  have hall (seen : List Attribute) (hseen : ((seen ++ attributes).map Attribute.name).Nodup) :
      attributes.foldl (fun seen a => if seen.any (·.name == a.name) then seen else seen ++ [a])
        seen = seen ++ attributes := by
    clear h
    induction attributes generalizing seen with
    | nil => simp
    | cons a attributes ih =>
      have hnew : seen.any (·.name == a.name) = false := by
        rw [List.any_eq_false]
        intro b hb he
        rw [List.map_append, List.map_cons] at hseen
        exact (List.nodup_append.1 hseen).2.2 _ (List.mem_map_of_mem hb) _ List.mem_cons_self
          (beq_iff_eq.1 he)
      rw [List.foldl_cons, hnew, if_neg (by simp), ih (seen ++ [a]) (by simpa using hseen)]
      simp
  exact hall [] h

theorem IsTag.elementOf (h : IsTag name attributes) (selfClosing : Bool) :
    Builder.elementOf ⟨name, attributes, selfClosing⟩ false = (name, attributes) := by
  have hlower : attributes.map (fun a => { a with name := a.name.toLower }) = attributes := by
    refine (List.map_congr_left fun a ha => ?_).trans (List.map_id _)
    rw [(h.attributes_named a ha).toLower]
    rfl
  simp [Builder.elementOf, h.named.toLower, hlower, distinct_of_nodup h.distinct]

end Names

theorem IsContent.canonicalAll {mode : TextMode} {name : String} {bs : List (Branch NodeKind)}
    (h : IsContent mode name bs) : CanonicalAll false bs := by
  match bs with
  | [] => exact trivial
  | [.node (.text content) []] => exact ⟨⟨h.1, rfl⟩, fun _ => nofun, trivial⟩

end LiveMarkup.Html

namespace LiveMarkup.Markup.Draft

open Html

/-- Where canonical branches are put: outside foreign content, and a doctype only in a document. -/
structure Receives (d : Draft) (top : Bool) : Prop where
  foreign : d.foreign = false
  top : top = true → d.frames = [] ∧ d.root = .document

theorem addText_eq_put {d : Draft} {content : String} (hne : content ≠ "")
    (hlast : ∀ last ∈ d.inner.getLast?, last.label.isText = false) :
    d.addText content = d.put (.text content) := by
  rw [addText, if_neg (by simpa using hne)]
  split
  · next hlast' =>
    cases hlast _ hlast'
  · rfl

theorem startElement_eq {d : Draft} {name : String} {attributes : List Attribute}
    (hd : d.foreign = false) (h : IsTag name attributes) (selfClosing : Bool) :
    d.startElement ⟨name, attributes, selfClosing⟩ =
      if isVoid name then d.put (.element name attributes)
      else { d with inner := [], frames := ⟨name, attributes, false, d.inner⟩ :: d.frames } := by
  simp [startElement, hd, h.isForeignRoot, h.elementOf]

theorem endElement_eq {d : Draft} {f : Frame} {fs : List Frame} (hd : d.frames = f :: fs) :
    d.endElement f.name = { d with inner := f.left ++ [.node f.kind d.inner], frames := fs } := by
  simp [endElement, hd, closeThrough, Text.sameName, Text.sameLetters]

mutual

/-- The tokens of a canonical branch put the branch where they are added. -/
theorem foldl_tokens {d : Draft} {top : Bool} (style : Style) (within : Option String)
    (b : Branch NodeKind) (h : Canonical top b) (hd : d.Receives top)
    (hlast : b.label.isText = true → ∀ last ∈ d.inner.getLast?, last.label.isText = false) :
    (tokens style within b).foldl add d = { d with inner := d.inner ++ [b] } := by
  cases b with
  | node kind bs =>
    cases kind with
    | fragment | document => exact h.elim
    | doctype name =>
      obtain ⟨htop, -, -, rfl⟩ := h
      obtain ⟨hframes, hroot⟩ := hd.top htop
      simp [tokens, add, hframes, hroot, NodeKind.isDocument, put]
    | comment content =>
      obtain ⟨-, rfl⟩ := h
      rfl
    | text content =>
      obtain ⟨hne, rfl⟩ := h
      have hput := addText_eq_put hne (hlast rfl)
      cases within with
      | none => exact hput
      | some name => exact hput
    | element name attributes =>
      obtain ⟨htag, hvoid, hcontent⟩ := h
      have hstart := startElement_eq hd.foreign htag
      rw [tokens]
      split
      · next hv =>
        obtain rfl := hvoid hv
        rw [List.foldl_cons, List.foldl_nil, add, hstart, if_pos hv]
        rfl
      · next hv =>
        have hall : CanonicalAll false bs := by
          split at hcontent
          · exact IsContent.canonicalAll hcontent
          · exact hcontent
        -- The children go into the open element, and its end tag puts it behind `d.inner`.
        let inside : Draft :=
          { d with inner := [], frames := ⟨name, attributes, false, d.inner⟩ :: d.frames }
        have hinside : inside.Receives false := ⟨rfl, nofun⟩
        rw [List.foldl_cons, List.foldl_append, add, hstart, if_neg hv,
          foldl_tokensAll style _ bs hall hinside fun _ _ _ _ hlast => nomatch hlast]
        exact endElement_eq (f := ⟨name, attributes, false, d.inner⟩) rfl

theorem foldl_tokensAll {d : Draft} {top : Bool} (style : Style) (within : Option String)
    (bs : List (Branch NodeKind)) (h : CanonicalAll top bs) (hd : d.Receives top)
    (hlast : ∀ b ∈ bs.head?, b.label.isText = true →
      ∀ last ∈ d.inner.getLast?, last.label.isText = false) :
    (tokensAll style within bs).foldl add d = { d with inner := d.inner ++ bs } := by
  cases bs with
  | nil => simp [tokensAll]
  | cons b bs =>
    obtain ⟨hb, hnext, hbs⟩ := h
    have hd' : ({ d with inner := d.inner ++ [b] } : Draft).Receives top := ⟨hd.foreign, hd.top⟩
    rw [tokensAll, List.foldl_append, foldl_tokens style within b hb hd (hlast b rfl),
      foldl_tokensAll style within bs hbs hd' ?_]
    · simp
    · intro next hmem htext last hlast'
      obtain rfl : b = last := by simpa using hlast'
      by_contra hb
      rw [hnext (by simpa using hb) next hmem] at htext
      cases htext

end

end LiveMarkup.Markup.Draft
