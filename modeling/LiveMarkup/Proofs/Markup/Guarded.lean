import LiveMarkup.Proofs.Markup.Legible
import LiveMarkup.Proofs.Markup.Roundtrip
import LiveMarkup.Proofs.Markup.Skeleton

set_option autoImplicit false

/-!
What written texts bring into a tree. Some elements have their texts written as they stand, and in
foreign content markup is read in these elements too. Where no text with a `<` stands in such a
place, the markup of branches is read as a tree whose skeleton is decided by the skeleton of the
branches: no text and no value of an attribute brings in an element, an attribute or a comment.
-/

namespace LiveMarkup.Markup

open Html

variable {foreign : Nat} {cs rest : List Char} {outline : List Token}

/-- Markup that is scanned without errors, whatever text stands in front of it, and what its tokens
bring to a skeleton. -/
def OutlinedAs (foreign : Nat) (cs : List Char) (outline : List Token) : Prop :=
  ∀ text, '<' ∉ text →
    ∃ tokens, ScannedAs foreign (text ++ cs) tokens ∧ tokens.filterMap Token.erased? = outline

namespace OutlinedAs

theorem scannedAs (h : OutlinedAs foreign cs outline) :
    ∃ tokens, ScannedAs foreign cs tokens ∧ tokens.filterMap Token.erased? = outline :=
  h [] List.not_mem_nil

/-- A text in front of markup that it does not run on into is a token of its own. -/
theorem of_scannedAs {tokens : List Token} (h : ScannedAs foreign cs tokens)
    (hcs : ¬ Starts (· != '<') cs) : OutlinedAs foreign cs (tokens.filterMap Token.erased?) := by
  intro text htext
  cases text with
  | nil => exact ⟨tokens, h, rfl⟩
  | cons c text => exact ⟨_, h.text (List.cons_ne_nil c text) htext hcs, rfl⟩

theorem nil (foreign : Nat) : OutlinedAs foreign [] [] :=
  of_scannedAs (.nil foreign) fun ⟨_, _, he, _⟩ => nomatch he

/-- A text brings nothing, wherever it stands. -/
theorem text {content : List Char} (h : OutlinedAs foreign rest outline) (hcontent : '<' ∉ content) :
    OutlinedAs foreign (content ++ rest) outline := by
  intro text htext
  rw [← List.append_assoc]
  exact h _ (List.not_mem_append htext hcontent)

theorem comment {content : String} (h : OutlinedAs foreign rest outline)
    (hcontent : ¬ ['-', '-', '>'] <:+: content.toList) :
    OutlinedAs foreign ('<' :: '!' :: '-' :: '-' :: (content.toList ++ ('-' :: '-' :: '>' :: rest)))
      (.comment content :: outline) := by
  obtain ⟨tokens, hs, rfl⟩ := h.scannedAs
  have hscanned := hs.comment hcontent
  rw [String.ofList_toList] at hscanned
  exact of_scannedAs hscanned (not_starts_cons rfl)

theorem startTag {tag : StartTag}
    (h : OutlinedAs ((Token.startTag tag).foreignAfter foreign) rest outline) (htag : tag.Legible)
    (hmode : Lexing.modeAfter foreign (.startTag tag) = none) :
    OutlinedAs foreign ('<' :: (tag.interior ++ '>' :: rest)) (.startTag tag.erased :: outline) := by
  obtain ⟨tokens, hs, rfl⟩ := h.scannedAs
  exact of_scannedAs (hs.startTag htag hmode) (not_starts_cons rfl)

theorem endTag {name : String} (h : OutlinedAs ((Token.endTag name).foreignAfter foreign) rest outline)
    (hname : IsWord name.toList) (hletter : Starts Char.isAlpha name.toList) :
    OutlinedAs foreign (ending name rest) (.endTag name :: outline) := by
  obtain ⟨tokens, hs, rfl⟩ := h.scannedAs
  rw [← String.ofList_toList (s := name)] at hs
  have hscanned := hs.endTag hname hletter
  rw [String.ofList_toList] at hscanned
  exact of_scannedAs hscanned (not_starts_cons rfl)

end OutlinedAs

section Elements

variable {name : String} (attributes : List Attribute)

/-- An element is in foreign content if it stands there or starts it. -/
theorem foreignAfter_startTag_bne (name : String) (foreign : Nat) :
    ((Token.startTag ⟨name, attributes, false⟩).foreignAfter foreign != 0) =
      (foreign != 0 || isForeignRoot name) := by
  rw [Token.foreignAfter]
  cases isForeignRoot name <;> simp

/-- The end tag of an element ends the foreign content that its start tag starts. -/
theorem foreignAfter_endTag_startTag (name : String) (foreign : Nat) :
    (Token.endTag name).foreignAfter ((Token.startTag ⟨name, attributes, false⟩).foreignAfter foreign) =
      foreign := by
  rw [Token.foreignAfter, Token.foreignAfter]
  cases isForeignRoot name <;> simp

theorem modeAfter_startTag (name : String) (foreign : Nat) :
    Lexing.modeAfter foreign (.startTag ⟨name, attributes, false⟩) =
      if foreign != 0 || isForeignRoot name then none else textMode name := by
  rw [Lexing.modeAfter, Lexing.modeOf, foreignAfter_startTag_bne, Bool.false_or]

theorem foreignAfter_void (h : isVoid name = true) (foreign : Nat) (selfClosing : Bool) :
    (Token.startTag ⟨name, attributes, selfClosing⟩).foreignAfter foreign = foreign := by
  rw [Token.foreignAfter, isForeignRoot_of_isVoid h]
  rfl

theorem modeAfter_void (h : isVoid name = true) (foreign : Nat) (selfClosing : Bool) :
    Lexing.modeAfter foreign (.startTag ⟨name, attributes, selfClosing⟩) = none := by
  rw [Lexing.modeAfter, Lexing.modeOf, textMode_of_isVoid h, ite_self]

end Elements

end LiveMarkup.Markup

namespace LiveMarkup.Html

open Markup
open Branch (skeletonAll)

mutual

/-- Whether a branch has no text with a `<`, and no place for a value, where texts are written as
they stand though markup is read, and nothing but one text in an element whose content is read as
text. An anchor, behind which a value goes, is an empty text; `foreign` says that the branch is in
foreign content, `raw` that texts are written as they stand. -/
def guarded (foreign raw : Bool) : Branch NodeKind → Bool
  | .node (.text content) _ => !raw || (content != "" && !content.toList.contains '<')
  | .node (.comment _) _ => true
  | .node (.element name _) bs =>
    isVoid name ||
      match if foreign || isForeignRoot name then none else textMode name with
      | some mode => decide (IsContent mode name bs)
      | none => guardedAll (foreign || isForeignRoot name) (isRawText name) bs
  | .node .fragment _ | .node .document _ | .node (.doctype _) _ => false

def guardedAll (foreign raw : Bool) : List (Branch NodeKind) → Bool
  | [] => true
  | b :: bs => guarded foreign raw b && guardedAll foreign raw bs

end

theorem guardedAll_append (foreign raw : Bool) (bs cs : List (Branch NodeKind)) :
    guardedAll foreign raw (bs ++ cs) = (guardedAll foreign raw bs && guardedAll foreign raw cs) := by
  induction bs with
  | nil => rfl
  | cons b bs ih => rw [List.cons_append, guardedAll, ih, guardedAll, Bool.and_assoc]

theorem guardedAll_of_isText (foreign : Bool) {bs : List (Branch NodeKind)} (h : ∀ b ∈ bs, b.IsText) :
    guardedAll foreign false bs = true := by
  induction bs with
  | nil => rfl
  | cons b bs ih =>
    obtain ⟨⟨content, rfl⟩, hbs⟩ := List.forall_mem_cons.1 h
    rw [guardedAll, guarded, ih hbs]
    rfl

theorem tokensAll_append (style : Style) (within : Option String) (bs cs : List (Branch NodeKind)) :
    tokensAll style within (bs ++ cs) = tokensAll style within bs ++ tokensAll style within cs := by
  induction bs with
  | nil => rfl
  | cons b bs ih => rw [List.cons_append, tokensAll, ih, tokensAll, List.append_assoc]

mutual

/-- The tokens of a branch bring the tokens of its skeleton. -/
theorem filterMap_tokens (style : Style) (within within' : Option String) (b : Branch NodeKind) :
    (tokens style within b).filterMap Token.erased? = tokensAll style within' b.skeleton := by
  cases b with
  | node kind bs =>
    have hall (within within' : Option String) := filterMap_tokensAll style within within' bs
    cases kind with
    | text content => cases within <;> simp [tokens, tokensAll, Token.erased?]
    | comment content | doctype name =>
      simp [tokens, tokensAll, Branch.skeleton, NodeKind.isText, NodeKind.erased, Token.erased?]
    | fragment | document =>
      simp [tokens, tokensAll, Branch.skeleton, NodeKind.isText, NodeKind.erased, hall none none]
    | element name attributes =>
      rw [Branch.skeleton_of_not_text rfl, NodeKind.erased, tokensAll, tokensAll, List.append_nil, tokens,
        tokens]
      split
      · rfl
      · rw [List.filterMap_cons, List.filterMap_append, hall]
        rfl

theorem filterMap_tokensAll (style : Style) (within within' : Option String)
    (bs : List (Branch NodeKind)) :
    (tokensAll style within bs).filterMap Token.erased? = tokensAll style within' (skeletonAll bs) := by
  cases bs with
  | nil => rfl
  | cons b bs =>
    rw [tokensAll, List.filterMap_append, filterMap_tokens style within within' b,
      filterMap_tokensAll style within within' bs, Branch.skeletonAll_cons, tokensAll_append]

end

/-- There is no text in a skeleton, so it does not matter how the text of its parent is read. -/
theorem tokensAll_skeletonAll (style : Style) (within within' : Option String)
    (bs : List (Branch NodeKind)) :
    tokensAll style within (skeletonAll bs) = tokensAll style within' (skeletonAll bs) :=
  (filterMap_tokensAll style none within bs).symm.trans (filterMap_tokensAll style none within' bs)

/-- An element whose content is one text brings itself only. -/
theorem IsContent.outlinedAs {name : String} {attributes : List Attribute} {foreign : Nat}
    {rest : List Char} {outline : List Token} {mode : TextMode} {bs : List (Branch NodeKind)}
    (style : Style) (h : IsContent mode name bs)
    (htag : StartTag.Legible ⟨name, attributes, false⟩)
    (hmode : Lexing.modeAfter foreign (.startTag ⟨name, attributes, false⟩) = some mode)
    (hend : OutlinedAs ((Token.startTag ⟨name, attributes, false⟩).foreignAfter foreign)
      (ending name rest) outline) :
    OutlinedAs foreign ('<' :: (StartTag.interior ⟨name, attributes, false⟩ ++
        '>' :: ((writeAll style (isRawText name) bs).toList ++ ending name rest)))
      (.startTag ⟨name, attributes.map Attribute.erased, false⟩ ::
        (tokensAll style (some name) (skeletonAll bs) ++ outline)) := by
  obtain ⟨ts, hs, rfl⟩ := hend.scannedAs
  rw [← filterMap_tokensAll style (some name), ← List.filterMap_append]
  exact OutlinedAs.of_scannedAs (h.scannedAs style htag hmode hs) (not_starts_cons rfl)

mutual

/-- A guarded branch is written so that it brings its skeleton, in front of any markup that is read
in the same way behind any text. -/
theorem outlinedAs_write {foreign : Nat} {raw : Bool} {rest : List Char} {outline : List Token}
    (style : Style) (b : Branch NodeKind) (hb : guarded (foreign != 0) raw b = true)
    (hlegible : b.Legible) (h : OutlinedAs foreign rest outline) :
    OutlinedAs foreign ((write style raw b).toList ++ rest)
      (tokensAll style none b.skeleton ++ outline) := by
  cases b with
  | node kind bs =>
    obtain ⟨hkind, hbelow⟩ := List.forall_mem_cons.1 hlegible
    cases kind with
    | fragment | document | doctype => cases hb
    | comment content =>
      rw [Branch.skeleton_of_not_text rfl]
      simpa [write, tokensAll, tokens, NodeKind.erased] using h.comment hkind
    | text content =>
      rw [Branch.skeleton_text, write]
      refine h.text ?_
      cases raw with
      | false => exact CharacterReference.lt_not_mem_escapeText content
      | true =>
        simp only [guarded, Bool.not_true, Bool.false_or, Bool.and_eq_true, Bool.not_eq_true'] at hb
        simpa using hb.2
    | element name attributes =>
      rw [Branch.skeleton_of_not_text rfl, NodeKind.erased, tokensAll, tokensAll, List.append_nil, tokens]
      cases hvoid : isVoid name with
      | true =>
        have htag : StartTag.Legible ⟨name, attributes, style.selfCloseVoid⟩ :=
          ⟨hkind.name, hkind.letter, hkind.attributes⟩
        rw [toList_write_void style hvoid]
        exact OutlinedAs.startTag ((foreignAfter_void attributes hvoid foreign _).symm ▸ h) htag
          (modeAfter_void attributes hvoid foreign _)
      | false =>
        have hend : OutlinedAs ((Token.startTag ⟨name, attributes, false⟩).foreignAfter foreign)
            (ending name rest) (.endTag name :: outline) :=
          OutlinedAs.endTag ((foreignAfter_endTag_startTag attributes name foreign).symm ▸ h)
            hkind.name hkind.letter
        rw [guarded, hvoid, Bool.false_or, ← modeAfter_startTag attributes,
          ← foreignAfter_startTag_bne attributes] at hb
        rw [toList_write_element style hvoid, if_neg Bool.false_ne_true, List.cons_append,
          List.append_assoc]
        cases hmode : Lexing.modeAfter foreign (.startTag ⟨name, attributes, false⟩) with
        | none =>
          rw [hmode] at hb
          rw [tokensAll_skeletonAll style _ none]
          exact (outlinedAs_writeAll style bs hb hbelow hend).startTag hkind hmode
        | some mode =>
          rw [hmode] at hb
          rw [tokensAll_skeletonAll style _ (some name)]
          exact IsContent.outlinedAs style (of_decide_eq_true hb) hkind hmode hend

theorem outlinedAs_writeAll {foreign : Nat} {raw : Bool} {rest : List Char} {outline : List Token}
    (style : Style) (bs : List (Branch NodeKind)) (hbs : guardedAll (foreign != 0) raw bs = true)
    (hlegible : ∀ kind ∈ Branch.labelsOfAll bs, kind.Legible) (h : OutlinedAs foreign rest outline) :
    OutlinedAs foreign ((writeAll style raw bs).toList ++ rest)
      (tokensAll style none (skeletonAll bs) ++ outline) := by
  cases bs with
  | nil => exact h
  | cons b bs =>
    rw [guardedAll, Bool.and_eq_true] at hbs
    obtain ⟨hfirst, hrest⟩ := List.forall_mem_append.1 hlegible
    rw [writeAll, String.toList_append, List.append_assoc, Branch.skeletonAll_cons, tokensAll_append,
      List.append_assoc]
    exact outlinedAs_write style b hbs.1 hfirst (outlinedAs_writeAll style bs hbs.2 hrest h)

end

/-- The markup of guarded branches is read as a tree, whose skeleton is built from theirs. -/
theorem skeleton_parseFragment_writeAll (style : Style) {bs : List (Branch NodeKind)}
    (hguarded : guardedAll false false bs = true)
    (hlegible : ∀ kind ∈ Branch.labelsOfAll bs, kind.Legible) :
    ∃ r, (parseFragment (writeAll style false bs)).outcome = .ok r ∧
      r.content.skeleton =
        [(Draft.ofTokens .fragment (tokensAll style none (skeletonAll bs))).content] := by
  have hwritten : OutlinedAs 0 ((writeAll style false bs).toList ++ [])
      (tokensAll style none (skeletonAll bs) ++ []) :=
    outlinedAs_writeAll style bs hguarded hlegible (.nil 0)
  rw [List.append_nil, List.append_nil] at hwritten
  obtain ⟨tokens, hscanned, houtline⟩ := hwritten.scannedAs
  obtain ⟨r, hr, hcontent⟩ := parseRooted_of_scannedAs .fragment hscanned
  refine ⟨r, hr, ?_⟩
  rw [hcontent, Draft.content, Draft.content, Draft.root_ofTokens, Draft.root_ofTokens,
    Branch.skeleton_of_not_text rfl, Draft.skeletonAll_ofTokens, houtline]
  rfl

end LiveMarkup.Html
