import LiveMarkup.Proofs.Markup.Building
import LiveMarkup.Proofs.Markup.Canonical
import LiveMarkup.Proofs.Markup.Scanning
import LiveMarkup.Proofs.Tree.Editing

set_option autoImplicit false

/-!
Parsing undoes writing. Canonical branches are written as the text of their tokens, in front of
anything that a text does not run on into; and what is scanned as the tokens of canonical branches
is built into these branches.
-/

namespace LiveMarkup.Html

open Markup

variable {name : String} {attributes : List Attribute} {foreign : Nat} {raw : Bool}
  {rest : List Char} {ts : List Token}

theorem IsTag.legible (h : IsTag name attributes) (selfClosing : Bool) :
    StartTag.Legible ⟨name, attributes, selfClosing⟩ :=
  ⟨h.named.word, h.letter, fun a ha => (h.attributes_named a ha).word⟩

theorem toList_openTag (name : String) (attributes : List Attribute) :
    (openTag name attributes).toList = '<' :: StartTag.interior ⟨name, attributes, false⟩ := by
  simp [openTag, StartTag.interior, StartTag.tail, String.toList_join, List.flatMap_map]

theorem IsTag.foreignAfter (h : IsTag name attributes) (selfClosing : Bool) :
    (Token.startTag ⟨name, attributes, selfClosing⟩).foreignAfter 0 = 0 := by
  simp [Token.foreignAfter, h.isForeignRoot]

theorem IsTag.modeAfter (h : IsTag name attributes) (selfClosing : Bool) :
    Lexing.modeAfter 0 (.startTag ⟨name, attributes, selfClosing⟩) =
      if selfClosing then none else textMode name := by
  rw [Lexing.modeAfter, h.foreignAfter]
  simp [Lexing.modeOf]

theorem ending_append (name : String) (rest : List Char) :
    ending name [] ++ rest = ending name rest := by
  simp [ending]

theorem toList_write_element (style : Style) (hvoid : isVoid name = false)
    (bs : List (Branch NodeKind)) (rest : List Char) :
    (write style raw (.node (.element name attributes) bs)).toList ++ rest =
      '<' :: (StartTag.interior ⟨name, attributes, false⟩ ++
        '>' :: ((writeAll style (isRawText name) bs).toList ++ ending name rest)) := by
  rw [write, hvoid]
  simp [toList_openTag, ending]

theorem toList_write_void (style : Style) (hvoid : isVoid name = true)
    (bs : List (Branch NodeKind)) (rest : List Char) :
    (write style raw (.node (.element name attributes) bs)).toList ++ rest =
      '<' :: (StartTag.interior ⟨name, attributes, style.selfCloseVoid⟩ ++ '>' :: rest) := by
  rw [write, hvoid]
  cases hclose : style.selfCloseVoid <;>
    simp [toList_openTag, StartTag.interior, StartTag.tail]

theorem not_starts_write {b : Branch NodeKind} {top : Bool} (style : Style) (h : Canonical top b)
    (hb : b.label.isText = false) (rest : List Char) :
    ¬ Starts (· != '<') ((write style false b).toList ++ rest) := by
  cases b with
  | node kind bs =>
    cases kind with
    | fragment | document => exact h.elim
    | text content => cases hb
    | doctype name | comment content =>
      rw [write, String.toList_append, String.toList_append]
      exact not_starts_cons rfl
    | element name attributes =>
      cases hvoid : isVoid name with
      | true =>
        rw [toList_write_void style hvoid]
        exact not_starts_cons rfl
      | false =>
        rw [toList_write_element style hvoid]
        exact not_starts_cons rfl

theorem isCloser_ending (name : String) (rest : List Char) :
    Hole.Scanner.IsCloser name.toList (ending name rest) :=
  ⟨_, rfl, Hole.Scanner.closesElement_of rfl (.inr ⟨'>', rest, rfl, by simp⟩)⟩

/-- An element whose content is one text, up to its end tag. -/
theorem IsContent.scannedAs {mode : TextMode} {bs : List (Branch NodeKind)} (style : Style)
    (h : IsContent mode name bs) (htag : StartTag.Legible ⟨name, attributes, false⟩)
    (hmode : Lexing.modeAfter foreign (.startTag ⟨name, attributes, false⟩) = some mode)
    (hs : ScannedAs ((Token.startTag ⟨name, attributes, false⟩).foreignAfter foreign)
      (ending name rest) ts) :
    ScannedAs foreign ('<' :: (StartTag.interior ⟨name, attributes, false⟩ ++
        '>' :: ((writeAll style (isRawText name) bs).toList ++ ending name rest)))
      (.startTag ⟨name, attributes, false⟩ :: (tokensAll style (some name) bs ++ ts)) := by
  have hread {content : List Char}
      (hbreak : breakAtEndTag name.toList (content ++ ending name rest) = (content, ending name rest)) :=
    hs.content htag hmode hbreak
  match bs with
  | [] => exact hread (breakAtEndTag_of_not_mem List.not_mem_nil (isCloser_ending name rest))
  | [.node (.text content) []] =>
    obtain ⟨hne, hraw⟩ := h
    rw [isRawText_of_textMode (Lexing.textMode_of_modeAfter hmode)]
    cases mode with
    | raw =>
      -- `IsContent` speaks of the end tag alone; here the rest of the markup stands behind it.
      have hbreak : breakAtEndTag name.toList (content.toList ++ ending name rest) =
          (content.toList, ending name rest) := by
        rw [← ending_append]
        exact breakAtEndTag_append (by simp [ending]) (hraw rfl) rest
      simpa [writeAll, write, tokensAll, tokens, Lexing.contentTokens, Lexing.contentOf, hne]
        using hread hbreak
    | escapable =>
      have hbreak := breakAtEndTag_of_not_mem (CharacterReference.lt_not_mem_escapeText content)
        (isCloser_ending name rest)
      have hne' := CharacterReference.escapeText_ne_empty hne
      simpa [writeAll, write, tokensAll, tokens, Lexing.contentTokens, Lexing.contentOf, hne',
        CharacterReference.decode_escapeText] using hread hbreak

mutual

/-- A canonical branch is scanned as its tokens, in front of what it does not run on into. -/
theorem scannedAs_write {top : Bool} {rest : List Char} {ts : List Token} (style : Style)
    (b : Branch NodeKind) (h : Canonical top b) (hs : ScannedAs 0 rest ts)
    (hrest : b.label.isText = true → ¬ Starts (· != '<') rest) :
    ScannedAs 0 ((write style false b).toList ++ rest) (tokens style none b ++ ts) := by
  cases b with
  | node kind bs =>
    cases kind with
    | fragment | document => exact h.elim
    | doctype name =>
      obtain ⟨-, htrim, hname, -⟩ := h
      simpa [write, tokens] using hs.doctype htrim hname
    | comment content => simpa [write, tokens] using hs.comment h.1
    | text content =>
      have htext := hs.text (CharacterReference.escapeText_ne_empty h.1)
        (CharacterReference.lt_not_mem_escapeText content) (hrest rfl)
      simpa [write, tokens, CharacterReference.decode_escapeText] using htext
    | element name attributes =>
      obtain ⟨htag, hvoid, hcontent⟩ := h
      rw [tokens]
      cases hv : isVoid name with
      | true =>
        have hmode : Lexing.modeAfter 0 (.startTag ⟨name, attributes, style.selfCloseVoid⟩) = none := by
          rw [htag.modeAfter, textMode_of_isVoid hv, ite_self]
        rw [toList_write_void style hv]
        exact ScannedAs.startTag ((htag.foreignAfter _).symm ▸ hs) (htag.legible _) hmode
      | false =>
        have hend := ScannedAs.endTag ((Token.foreignAfter_endTag_zero _).symm ▸ hs) htag.named.word
          htag.letter
        rw [String.ofList_toList, ← ending] at hend
        rw [toList_write_element style hv]
        cases hmode : textMode name with
        | none =>
          rw [hmode] at hcontent
          have hinner := scannedAs_writeAll style bs hcontent hend (not_starts_cons rfl)
          have htagged := ScannedAs.startTag ((htag.foreignAfter false).symm ▸ hinner)
            (htag.legible false) (by rw [htag.modeAfter, if_neg (by simp), hmode])
          rw [htag.isRawText, hmode]
          simpa using htagged
        | some mode =>
          rw [hmode] at hcontent
          have hafter : Lexing.modeAfter 0 (.startTag ⟨name, attributes, false⟩) = some mode := by
            rw [htag.modeAfter, if_neg (by simp), hmode]
          simpa using IsContent.scannedAs style hcontent (htag.legible false) hafter
            ((htag.foreignAfter false).symm ▸ hend)

theorem scannedAs_writeAll {top : Bool} {rest : List Char} {ts : List Token} (style : Style)
    (bs : List (Branch NodeKind)) (h : CanonicalAll top bs) (hs : ScannedAs 0 rest ts)
    (hrest : ¬ Starts (· != '<') rest) :
    ScannedAs 0 ((writeAll style false bs).toList ++ rest) (tokensAll style none bs ++ ts) := by
  cases bs with
  | nil => simpa [writeAll, tokensAll] using hs
  | cons b bs =>
    obtain ⟨hb, hnext, hbs⟩ := h
    rw [writeAll, tokensAll, String.toList_append, List.append_assoc, List.append_assoc]
    refine scannedAs_write style b hb (scannedAs_writeAll style bs hbs hs hrest) fun htext => ?_
    -- Behind a text there is no other text: the markup ends, or a `<` follows.
    cases bs with
    | nil => simpa [writeAll] using hrest
    | cons next bs =>
      rw [writeAll, String.toList_append, List.append_assoc]
      exact not_starts_write style hbs.1 (hnext htext next rfl) _

end

end LiveMarkup.Html

namespace LiveMarkup.Markup

open Html

/-- Markup without errors is parsed into the draft of its tokens. -/
theorem parseRooted_of_scannedAs (kind : NodeKind) {markup : String} {tokens : List Token}
    (h : ScannedAs 0 markup.toList tokens) :
    ∃ r, (parseRooted kind markup).outcome = .ok r ∧
      r.content = (Draft.ofTokens kind tokens).content := by
  obtain ⟨herrors, htokens⟩ := h 0
  obtain ⟨r, hr⟩ : ∃ r, (parseRooted kind markup).outcome = .ok r := by
    simp [parseRooted, parseInto, Lexing.ofMarkup, herrors, Except.map]
  obtain ⟨bs, -, hcontent⟩ := parseRooted_ok hr
  refine ⟨r, hr, ?_⟩
  rw [hcontent, Lexing.ofMarkup, htokens]

theorem parseRooted_writeAll {kind : NodeKind} {top : Bool} {bs : List (Branch NodeKind)}
    (style : Style) (h : CanonicalAll top bs) (hkind : top = true → kind = .document) :
    ∃ r, (parseRooted kind (writeAll style false bs)).outcome = .ok r ∧ r.content = .node kind bs := by
  have hend : ¬ Starts (· != '<') [] := fun ⟨_, _, he, _⟩ => nomatch he
  have hscanned := scannedAs_writeAll style bs h (ScannedAs.nil 0) hend
  rw [List.append_nil, List.append_nil] at hscanned
  obtain ⟨r, hr, hcontent⟩ := parseRooted_of_scannedAs kind hscanned
  refine ⟨r, hr, ?_⟩
  have hdraft := Draft.foldl_tokensAll (d := { root := kind }) style none bs h
    ⟨rfl, fun htop => ⟨rfl, hkind htop⟩⟩ fun _ _ _ _ hlast => nomatch hlast
  rw [hcontent, Draft.ofTokens, hdraft]
  rfl

end LiveMarkup.Markup

namespace LiveMarkup.Tree

open Html Markup

/-- Parsing undoes writing: a canonical tree is parsed back from its HTML, in either style. -/
theorem parse_toHtml (t : Tree) (root : NodeId) (style : Style) (bs : List (Branch NodeKind)) :
    (t.content root = .node .fragment bs → CanonicalAll false bs →
      ∃ r, (parseFragment (t.toHtml root style)).outcome = .ok r ∧ r.content = t.content root) ∧
    (t.content root = .node .document bs → CanonicalAll true bs →
      ∃ r, (parseDocument (t.toHtml root style)).outcome = .ok r ∧ r.content = t.content root) := by
  constructor
  · intro hcontent h
    rw [toHtml, hcontent, write]
    exact parseRooted_writeAll style h fun hdocument => by cases hdocument
  · intro hcontent h
    rw [toHtml, hcontent, write]
    exact parseRooted_writeAll style h fun _ => rfl

def page : Tree :=
  ({} : Tree).edit [.create .document, .create (.doctype "html"),
    .create (.element "p" [⟨"title", "\"a\" & b"⟩, ⟨"hidden", ""⟩]), .create (.text "x < y"),
    .create (.element "br" []), .create (.element "script" []), .create (.text "if (a </b) c"),
    .append ⟨0⟩ ⟨1⟩, .append ⟨0⟩ ⟨2⟩, .append ⟨2⟩ ⟨3⟩, .append ⟨2⟩ ⟨4⟩, .append ⟨0⟩ ⟨5⟩,
    .append ⟨5⟩ ⟨6⟩]

def remark : Tree :=
  ({} : Tree).edit [.create .fragment, .create (.comment "--"), .create (.element "title" []),
    .create (.text "</title>"), .append ⟨0⟩ ⟨1⟩, .append ⟨0⟩ ⟨2⟩, .append ⟨2⟩ ⟨3⟩]

theorem parse_toHtml_page :
    ∃ bs bs', page.content ⟨0⟩ = .node .document bs ∧ CanonicalAll true bs ∧
      remark.content ⟨0⟩ = .node .fragment bs' ∧ CanonicalAll false bs' ∧
      (∃ r, (parseDocument (page.toHtml ⟨0⟩ { selfCloseVoid := true })).outcome = .ok r ∧
        r.content = page.content ⟨0⟩) ∧
      ∃ r, (parseFragment (remark.toHtml ⟨0⟩ {})).outcome = .ok r ∧
        r.content = remark.content ⟨0⟩ := by
  let bs : List (Branch NodeKind) := [.node (.doctype "html") [],
    .node (.element "p" [⟨"title", "\"a\" & b"⟩, ⟨"hidden", ""⟩])
      [.node (.text "x < y") [], .node (.element "br" []) []],
    .node (.element "script" []) [.node (.text "if (a </b) c") []]]
  let bs' : List (Branch NodeKind) := [.node (.comment "--") [],
    .node (.element "title" []) [.node (.text "</title>") []]]
  have hpage : CanonicalAll true bs := by decide +kernel
  have hremark : CanonicalAll false bs' := by decide +kernel
  exact ⟨bs, bs', rfl, hpage, rfl, hremark,
    (parse_toHtml page ⟨0⟩ { selfCloseVoid := true } bs).2 rfl hpage,
    (parse_toHtml remark ⟨0⟩ {} bs').1 rfl hremark⟩

/-- A document whose doctype holds the bracket that ends it, and a fragment with a node below a
text. -/
def unwritable : Tree :=
  ({} : Tree).edit [.create .document, .create (.doctype "a>b"), .append ⟨0⟩ ⟨1⟩, .create .fragment,
    .create (.text "a"), .create (.comment "b"), .append ⟨2⟩ ⟨3⟩, .append ⟨3⟩ ⟨4⟩]

/-- A doctype is read up to the first bracket though its text is trimmed, and what stands below a
text is not written. -/
theorem parse_toHtml_unwritable :
    unwritable.content ⟨0⟩ = .node .document [.node (.doctype "a>b") []] ∧
      Text.trim "a>b".toList = "a>b".toList ∧
      (¬ ∃ r, (parseDocument (unwritable.toHtml ⟨0⟩ {})).outcome = .ok r ∧
        r.content.rows 0 = (unwritable.content ⟨0⟩).rows 0) ∧
      unwritable.content ⟨2⟩ = .node .fragment [.node (.text "a") [.node (.comment "b") []]] ∧
      ¬ ∃ r, (parseFragment (unwritable.toHtml ⟨2⟩ {})).outcome = .ok r ∧
        r.content.rows 0 = (unwritable.content ⟨2⟩).rows 0 := by
  have hdocument : (parseDocument (unwritable.toHtml ⟨0⟩ {})).outcome.toOption.map
      (·.content.rows 0) = some [(0, .document), (1, .doctype "a"), (1, .text "b>")] := by
    decide +kernel
  have hfragment : (parseFragment (unwritable.toHtml ⟨2⟩ {})).outcome.toOption.map
      (·.content.rows 0) = some [(0, .fragment), (1, .text "a")] := by
    decide +kernel
  refine ⟨rfl, by decide, ?_, rfl, ?_⟩
  · rintro ⟨r, hr, hrows⟩
    rw [hr] at hdocument
    exact absurd ((Option.some.inj hdocument).symm.trans hrows) (by decide +kernel)
  · rintro ⟨r, hr, hrows⟩
    rw [hr] at hfragment
    exact absurd ((Option.some.inj hfragment).symm.trans hrows) (by decide +kernel)

end LiveMarkup.Tree
