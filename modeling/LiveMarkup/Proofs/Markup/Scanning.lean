import LiveMarkup.Proofs.Markup.OpenTag
import LiveMarkup.Proofs.Template.RawContent

set_option autoImplicit false

/-!
How tokens are scanned that are written in front of other markup. Each token is read back from what
is written for it, if what follows does not continue it; text is continued by anything but `<`, and
the content of elements that hold no markup by anything but their end tag.
-/

namespace LiveMarkup.Markup

open LiveMarkup.Text
open Hole.Scanner (IsCloser breakAtEndTag_cons breakAtEndTag_closer closes_of_breakAtEndTag)

section Content

variable {name content tail : List Char}

theorem closesElement_append {cs : List Char} (h : name.length < cs.length) (rest : List Char) :
    closesElement name (cs ++ rest) = closesElement name cs := by
  rw [closesElement, closesElement, List.take_append_of_le_length h.le,
    List.drop_append_of_le_length h.le]
  cases hdrop : cs.drop name.length with
  | nil =>
    have hlength := congrArg List.length hdrop
    rw [List.length_drop, List.length_nil] at hlength
    omega
  | cons c cs => rfl

theorem isCloser_append_iff {cs : List Char} (h : name.length + 2 < cs.length) (rest : List Char) :
    IsCloser name (cs ++ rest) ↔ IsCloser name cs := by
  match cs with
  | [] | [_] => simp at h
  | c :: d :: cs =>
    have hlong : name.length < cs.length := by simpa using h
    constructor
    · rintro ⟨after, he, hname⟩
      simp only [List.cons_append, List.cons.injEq] at he
      obtain ⟨rfl, rfl, rfl⟩ := he
      exact ⟨cs, rfl, by rwa [closesElement_append hlong] at hname⟩
    · rintro ⟨after, he, hname⟩
      simp only [List.cons.injEq] at he
      obtain ⟨rfl, rfl, rfl⟩ := he
      exact ⟨cs ++ rest, rfl, by rwa [closesElement_append hlong]⟩

/-- Whether content ends is decided by as many characters as its end tag has. -/
theorem breakAtEndTag_append (hlong : name.length + 2 < tail.length)
    (h : breakAtEndTag name (content ++ tail) = (content, tail)) (rest : List Char) :
    breakAtEndTag name (content ++ (tail ++ rest)) = (content, tail ++ rest) := by
  induction content with
  | nil =>
    rcases closes_of_breakAtEndTag h with rfl | hcloser
    · simp at hlong
    · exact breakAtEndTag_closer ((isCloser_append_iff hlong rest).2 hcloser)
  | cons c content ih =>
    rw [List.cons_append] at h
    have hnot : ¬ IsCloser name (c :: (content ++ tail)) := by
      intro hcloser
      rw [breakAtEndTag_closer hcloser] at h
      cases (Prod.mk.inj h).1
    have hnot' : ¬ IsCloser name (c :: (content ++ (tail ++ rest))) := by
      rw [← isCloser_append_iff (by simp; omega) rest] at hnot
      simpa using hnot
    rw [breakAtEndTag_cons hnot] at h
    obtain ⟨hfirst, hrest⟩ := Prod.mk.inj h
    rw [List.cons_append, breakAtEndTag_cons hnot',
      ih (Prod.ext (List.cons.inj hfirst).2 hrest)]

theorem breakAtEndTag_of_not_mem (hcontent : '<' ∉ content) (htail : IsCloser name tail) :
    breakAtEndTag name (content ++ tail) = (content, tail) := by
  induction content with
  | nil => exact breakAtEndTag_closer htail
  | cons c content ih =>
    obtain ⟨hc, hcontent⟩ := not_or.1 (mt List.mem_cons.2 hcontent)
    have hnot : ¬ IsCloser name (c :: (content ++ tail)) := by
      rintro ⟨after, he, -⟩
      exact hc (List.cons.inj he).1.symm
    rw [List.cons_append, breakAtEndTag_cons hnot, ih hcontent]

end Content

/-- The token of a lexeme that is one by itself. -/
def Lexeme.token? : Lexeme → Option Token
  | .text content => some (.text (CharacterReference.decode (String.ofList content)))
  | .comment content => some (.comment (String.ofList content))
  | .doctype name => some (.doctype (String.ofList name))
  | .endTag name => some (.endTag (String.ofList name))
  | .startTag _ | .unterminated _ => none

/-- Outside foreign content an end tag closes none. -/
theorem Token.foreignAfter_endTag_zero (name : String) : (Token.endTag name).foreignAfter 0 = 0 := by
  simp only [Token.foreignAfter, Nat.zero_sub, ite_self]

namespace Lexing

section Steps

variable {start foreign : Nat} {c : Char} {cs rest : List Char}

theorem scan_token {lexeme : Lexeme} {t : Token} (hnext : Lexeme.next c cs = (lexeme, rest))
    (ht : lexeme.token? = some t) :
    scan start foreign (c :: cs) =
      (scan (start + (byteSize (c :: cs) - byteSize rest)) (t.foreignAfter foreign) rest).withToken t
        ⟨start, start + (byteSize (c :: cs) - byteSize rest)⟩ := by
  rw [scan, hnext]
  cases lexeme with
  | text content | comment content | doctype name | endTag name =>
    obtain rfl := Option.some.inj ht
    rfl
  | startTag interior | unterminated what => cases ht

theorem scan_unterminated {what : Construct}
    (hnext : Lexeme.next c cs = (.unterminated what, rest)) :
    scan start foreign (c :: cs) =
      (scan (start + (byteSize (c :: cs) - byteSize rest)) foreign rest).withErrors
        [⟨⟨start, start + (byteSize (c :: cs) - byteSize rest)⟩, .unterminated what⟩] := by
  rw [scan, hnext]

theorem scan_illegible {interior : List Char} {errors : List SyntaxError}
    (hnext : Lexeme.next c cs = (.startTag interior, rest))
    (hparse : StartTag.parse (String.ofList interior) = .error errors) :
    scan start foreign (c :: cs) =
      (scan (start + (byteSize (c :: cs) - byteSize rest)) foreign rest).withErrors
        (errors.map (·.later (start + 1))) := by
  rw [scan, hnext]
  simp only [StartTag.parseAt, hparse, Except.mapError]

/-- A start tag with content that is one text. -/
theorem scan_content {interior : List Char} {tag : StartTag} {mode : TextMode}
    (hnext : Lexeme.next c cs = (.startTag interior, rest))
    (hparse : StartTag.parseAt (start + 1) (String.ofList interior) = .ok tag)
    (hmode : modeAfter foreign (.startTag tag) = some mode) {content tail : List Char}
    (hbreak : breakAtEndTag tag.name.toList rest = (content, tail)) :
    let stop := start + (byteSize (c :: cs) - byteSize rest)
    let behind := scan (stop + byteSize content) ((Token.startTag tag).foreignAfter foreign) tail
    scan start foreign (c :: cs) =
      { behind with tokens := (.startTag tag, ⟨start, stop⟩) ::
          (contentTokens mode tag.name stop content ++ behind.tokens) } := by
  rw [modeAfter, Token.foreignAfter] at hmode
  rw [scan, hnext]
  simp only [hparse, hmode, hbreak, contentTokens]
  split <;> rfl

theorem textMode_of_modeAfter {tag : StartTag} {mode : TextMode}
    (h : modeAfter foreign (.startTag tag) = some mode) : textMode tag.name = some mode := by
  rw [modeAfter, modeOf] at h
  split at h
  · cases h
  · exact h

theorem scan_of_token? {lexeme : Lexeme} {t : Token} (hnext : Lexeme.next c cs = (lexeme, rest))
    (ht : lexeme.token? = some t) :
    scan start 0 (c :: cs) =
      (scan (start + (byteSize (c :: cs) - byteSize rest)) 0 rest).withToken t
        ⟨start, start + (byteSize (c :: cs) - byteSize rest)⟩ := by
  have hzero : t.foreignAfter 0 = 0 := by
    cases lexeme with
    | text content | comment content | doctype name =>
      obtain rfl := Option.some.inj ht
      rfl
    | endTag name =>
      obtain rfl := Option.some.inj ht
      exact Token.foreignAfter_endTag_zero _
    | startTag interior | unterminated what => cases ht
  rw [scan_token hnext ht, hzero]

end Steps

end Lexing

/-- Markup inside `foreign` open elements of foreign content that is scanned without errors,
wherever it stands, and the tokens that are found. -/
def ScannedAs (foreign : Nat) (cs : List Char) (tokens : List Token) : Prop :=
  ∀ start, (Lexing.scan start foreign cs).errors = [] ∧
    (Lexing.scan start foreign cs).tokens.map Prod.fst = tokens

namespace ScannedAs

variable {foreign : Nat} {cs rest : List Char} {tokens : List Token}

theorem nil (foreign : Nat) : ScannedAs foreign [] [] := by
  intro start
  rw [Lexing.scan]
  exact ⟨rfl, rfl⟩

theorem cons {c : Char} {lexeme : Lexeme} {t : Token}
    (h : ScannedAs (t.foreignAfter foreign) rest tokens)
    (hnext : Lexeme.next c cs = (lexeme, rest)) (ht : lexeme.token? = some t) :
    ScannedAs foreign (c :: cs) (t :: tokens) := by
  intro start
  obtain ⟨herrors, htokens⟩ := h (start + (byteSize (c :: cs) - byteSize rest))
  rw [Lexing.scan_token hnext ht]
  exact ⟨herrors, congrArg (t :: ·) htokens⟩

theorem text {content : List Char} (h : ScannedAs foreign rest tokens) (hne : content ≠ [])
    (hcontent : '<' ∉ content) (hrest : ¬ Starts (· != '<') rest) :
    ScannedAs foreign (content ++ rest)
      (.text (CharacterReference.decode (String.ofList content)) :: tokens) := by
  obtain ⟨c, content, rfl⟩ := List.exists_cons_of_ne_nil hne
  obtain ⟨hc, hcontent⟩ := not_or.1 (mt List.mem_cons.2 hcontent)
  have hplain : ∀ d ∈ content, (d != '<') = true := by
    intro d hd
    rw [bne_iff_ne]
    rintro rfl
    exact hcontent hd
  have hspan := span_of_not_starts hplain hrest
  have hnext : Lexeme.next c (content ++ rest) = (.text (c :: content), rest) := by
    rw [Lexeme.next, if_neg (Ne.symm hc), hspan.1, hspan.2]
  exact cons (t := .text _) h hnext rfl

theorem comment {content : List Char} (h : ScannedAs foreign rest tokens)
    (hcontent : ¬ ['-', '-', '>'] <:+: content) :
    ScannedAs foreign ('<' :: '!' :: '-' :: '-' :: (content ++ ('-' :: '-' :: '>' :: rest)))
      (.comment (String.ofList content) :: tokens) := by
  -- `-->` cannot begin inside itself, so dashes at the end of the content do not make it end early.
  have hunbordered : Unbordered ['-', '-', '>'] := by
    unfold Unbordered
    decide
  have hbreak : breakOn ['-', '-', '>'] (content ++ ('-' :: '-' :: '>' :: rest)) =
      some (content, rest) := breakOn_append (by simp) hunbordered hcontent
  have hnext : Lexeme.next '<' ('!' :: '-' :: '-' :: (content ++ ('-' :: '-' :: '>' :: rest))) =
      (.comment content, rest) := by
    rw [Lexeme.next, if_pos rfl, Lexeme.afterOpen, hbreak]
  exact cons (t := .comment _) h hnext rfl

theorem doctype {name : List Char} (h : ScannedAs foreign rest tokens) (htrim : trim name = name)
    (hname : '>' ∉ name) :
    ScannedAs foreign ('<' :: '!' :: ("DOCTYPE ".toList ++ (name ++ '>' :: rest)))
      (.doctype (String.ofList name) :: tokens) := by
  have hbreak : breakOn ['>'] ("DOCTYPE ".toList ++ name ++ '>' :: rest) =
      some ("DOCTYPE ".toList ++ name, rest) := by
    refine breakOn_singleton fun hmem => ?_
    rcases List.mem_append.1 hmem with hmem | hmem
    · revert hmem
      decide
    · exact hname hmem
  have hbody : Lexeme.ofDeclaration ("DOCTYPE ".toList ++ name) = .doctype name := by
    have hblank : trim (' ' :: name) = trim name := by
      rw [trim, trimStart, List.dropWhile_cons_of_pos (by decide)]
      rfl
    change Lexeme.doctype (trim (' ' :: name)) = .doctype name
    rw [hblank, htrim]
  have hnext : Lexeme.next '<' ('!' :: ("DOCTYPE ".toList ++ (name ++ '>' :: rest))) =
      (.doctype name, rest) := by
    rw [← List.append_assoc, Lexeme.next, if_pos rfl, Lexeme.afterOpen, hbreak]
    · exact congrArg (fun lexeme => (lexeme, rest)) hbody
    · intro s he
      cases (List.cons.inj he).1
  exact cons (t := .doctype _) h hnext rfl

theorem endTag {name : List Char}
    (h : ScannedAs ((Token.endTag (String.ofList name)).foreignAfter foreign) rest tokens)
    (hname : IsWord name) (hletter : Starts Char.isAlpha name) :
    ScannedAs foreign ('<' :: '/' :: (name ++ '>' :: rest))
      (.endTag (String.ofList name) :: tokens) := by
  obtain ⟨c, body, rfl, hc⟩ := hletter
  have hbody : ∀ d ∈ body, isWordChar d = true := fun d hd => hname.2 d (List.mem_cons_of_mem c hd)
  have hclose : '>' ∉ body := fun hmem => by cases hbody _ hmem
  have hend : endTagName c body = c :: body := by
    rw [endTagName, List.takeWhile_eq_self_iff.2]
    intro d hd
    have hd := hbody d hd
    simp only [isWordChar, Bool.not_eq_true', Bool.or_eq_false_iff] at hd
    simp_all
  have hnext : Lexeme.next '<' ('/' :: (c :: body ++ '>' :: rest)) = (.endTag (c :: body), rest) := by
    rw [Lexeme.next, if_pos rfl, List.cons_append, Lexeme.afterOpen, if_pos hc,
      breakOn_singleton hclose]
    exact congrArg (fun name => (Lexeme.endTag name, rest)) hend
  exact h.cons hnext rfl

theorem parseAt_interior {tag : StartTag} (htag : tag.Legible) (offset : Nat) :
    StartTag.parseAt offset (String.ofList tag.interior) = .ok tag := by
  rw [StartTag.parseAt, htag.parse_interior]
  rfl

theorem startTag {tag : StartTag}
    (h : ScannedAs ((Token.startTag tag).foreignAfter foreign) rest tokens) (htag : tag.Legible)
    (hmode : Lexing.modeAfter foreign (.startTag tag) = none) :
    ScannedAs foreign ('<' :: (tag.interior ++ '>' :: rest)) (.startTag tag :: tokens) := by
  intro start
  rw [Lexing.scan_startTag (htag.next_interior rest) (parseAt_interior htag _) hmode]
  obtain ⟨herrors, htokens⟩ := h _
  exact ⟨herrors, congrArg (Token.startTag tag :: ·) htokens⟩

theorem content {tag : StartTag} {content : List Char} {mode : TextMode}
    (h : ScannedAs ((Token.startTag tag).foreignAfter foreign) rest tokens) (htag : tag.Legible)
    (hmode : Lexing.modeAfter foreign (.startTag tag) = some mode)
    (hbreak : breakAtEndTag tag.name.toList (content ++ rest) = (content, rest)) :
    ScannedAs foreign ('<' :: (tag.interior ++ '>' :: (content ++ rest)))
      (.startTag tag :: ((Lexing.contentTokens mode tag.name 0 content).map Prod.fst ++ tokens)) := by
  intro start
  rw [Lexing.modeAfter, Token.foreignAfter] at hmode
  rw [Token.foreignAfter] at h
  rw [Lexing.scan, htag.next_interior]
  simp only [parseAt_interior htag, hmode, hbreak]
  -- Where the content begins does not matter, for the rest is scanned alike wherever it stands.
  generalize start + (byteSize _ - byteSize (content ++ rest)) = inside
  obtain ⟨herrors, htokens⟩ := h (inside + byteSize content)
  rw [← htokens, Lexing.contentTokens]
  split
  · exact ⟨herrors, rfl⟩
  · exact ⟨herrors, rfl⟩

end ScannedAs

end LiveMarkup.Markup
