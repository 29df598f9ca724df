import LiveMarkup.Markup.Parse
import LiveMarkup.Proofs.Markup.Places

set_option autoImplicit false

/-!
How markup without errors is cut into tokens, as a relation: what is written for each token, one
token after the other, with the number of open elements of foreign content.
-/

namespace LiveMarkup.Markup

open LiveMarkup.Text

/-- What a `<` stands in front of if it is no text. -/
def Opens (cs : List Char) : Prop :=
  Starts (fun c => c == '!' || c == '?' || c.isAlpha) cs ∨
    ∃ c rest, cs = '/' :: c :: rest ∧ c.isAlpha = true

namespace Token

/-- A token that is no raw text is written `u`, in front of `rest`. -/
inductive Written : Token → List Char → List Char → Prop
  | text {content : String} {u rest : List Char} :
      u ≠ [] → ('<' ∉ u ∨ u = ['<'] ∧ ¬ Opens rest) → Written (.text content) u rest
  | comment {content rest : List Char} :
      breakOn ['-', '-', '>'] (content ++ ['-', '-', '>'] ++ rest) = some (content, rest) →
      Written (.comment (String.ofList content))
        ('<' :: '!' :: '-' :: '-' :: (content ++ ['-', '-', '>'])) rest
  | declaration {token : Token} {mark : Char} {body rest : List Char} :
      token.IsDeclaration → (mark = '!' ∧ ¬ ['-', '-'] <+: body ∨ mark = '?') → '>' ∉ body →
      Written token ('<' :: mark :: (body ++ ['>'])) rest
  | endTag {c : Char} {body rest : List Char} :
      c.isAlpha = true → '>' ∉ body →
      Written (.endTag (String.ofList (endTagName c body))) ('<' :: '/' :: c :: (body ++ ['>'])) rest
  | startTag {name interior rest : List Char} {pieces : List TagPiece} :
      IsWord name → Starts Char.isAlpha name → ¬ Starts isWordChar interior →
      Spells pieces interior →
      Written (.startTag (StartTag.ofPieces name pieces)) ('<' :: (name ++ interior ++ ['>'])) rest

/-- Open elements of foreign content behind a token. -/
def foreignAfter (foreign : Nat) : Token → Nat
  | .startTag tag =>
    if isForeignRoot tag.name && !tag.selfClosing then foreign + 1 else foreign
  | .endTag name => if isForeignRoot name then foreign - 1 else foreign
  | _ => foreign

end Token

namespace Lexing

/-- Whether a token is followed by content that is one text. -/
def modeAfter (foreign : Nat) : Token → Option TextMode
  | .startTag tag => modeOf ((Token.startTag tag).foreignAfter foreign) tag
  | _ => none

/-- The token of content that is one text, if there is any. -/
def contentTokens (mode : TextMode) (name : String) (start : Nat) (content : List Char) :
    List (Token × Span) :=
  if content.isEmpty then []
  else [(.rawText name (contentOf mode content), ⟨start, start + byteSize content⟩)]

/-- A start tag that no such content follows. -/
theorem scan_startTag {start foreign : Nat} {c : Char} {cs rest interior : List Char}
    {tag : StartTag} (hnext : Lexeme.next c cs = (.startTag interior, rest))
    (hparse : StartTag.parseAt (start + 1) (String.ofList interior) = .ok tag)
    (hmode : modeAfter foreign (.startTag tag) = none) :
    scan start foreign (c :: cs) =
      (scan (start + (byteSize (c :: cs) - byteSize rest))
        ((Token.startTag tag).foreignAfter foreign) rest).withToken (.startTag tag)
          ⟨start, start + (byteSize (c :: cs) - byteSize rest)⟩ := by
  rw [scan, hnext]
  simp only [hparse]
  rw [modeAfter, Token.foreignAfter] at hmode
  rw [hmode]
  rfl

/-- The start tag that SVG content is read behind. -/
theorem scan_svgOpen (cs : List Char) :
    scan 0 0 (svgOpen.toList ++ cs) = (scan svgOpen.utf8ByteSize 1 cs).withToken
      (.startTag ⟨"svg", [], false⟩) ⟨0, svgOpen.utf8ByteSize⟩ := by
  have hopen : svgOpen.toList ++ cs = '<' :: (['s', 'v', 'g', '>'] ++ cs) := by
    rw [show svgOpen.toList = ['<', 's', 'v', 'g', '>'] by decide]
    rfl
  have hnext : Lexeme.next '<' (['s', 'v', 'g', '>'] ++ cs) =
      (.startTag ['s', 'v', 'g'], cs) := by
    simp [Lexeme.next, Lexeme.afterOpen, breakAtTagClose]
  have hparse : StartTag.parseAt 1 (String.ofList ['s', 'v', 'g']) =
      .ok ⟨"svg", [], false⟩ := by decide +kernel
  have hsize : byteSize ('<' :: (['s', 'v', 'g', '>'] ++ cs)) - byteSize cs =
      svgOpen.utf8ByteSize := by
    have : byteSize ['<', 's', 'v', 'g', '>'] = svgOpen.utf8ByteSize := by decide
    rw [← this, ← List.cons_append, Text.byteSize_append, Nat.add_sub_cancel]
  have hforeign : (Token.startTag ⟨"svg", [], false⟩).foreignAfter 0 = 1 := by decide +kernel
  have hmode : modeAfter 0 (.startTag ⟨"svg", [], false⟩) = none := by decide +kernel
  have hscan := scan_startTag hnext hparse hmode
  rw [hsize, Nat.zero_add, hforeign] at hscan
  rw [hopen, hscan]

end Lexing

/-- The tokens of markup that begins at byte `start`, inside `foreign` open elements of foreign
content. -/
inductive Lexed : Nat → Nat → List Char → List (Token × Span) → Prop
  | done {start foreign : Nat} : Lexed start foreign [] []
  | token {start foreign : Nat} {u rest : List Char} {t : Token} {tokens : List (Token × Span)} :
      t.Written u rest → Lexing.modeAfter foreign t = none →
      Lexed (start + byteSize u) (t.foreignAfter foreign) rest tokens →
      Lexed start foreign (u ++ rest) ((t, ⟨start, start + byteSize u⟩) :: tokens)
  | rawText {start foreign : Nat} {u content rest : List Char} {tag : StartTag} {mode : TextMode}
      {tokens : List (Token × Span)} :
      (Token.startTag tag).Written u (content ++ rest) →
      Lexing.modeAfter foreign (.startTag tag) = some mode →
      breakAtEndTag tag.name.toList (content ++ rest) = (content, rest) →
      Lexed (start + byteSize u + byteSize content) ((Token.startTag tag).foreignAfter foreign) rest
        tokens →
      Lexed start foreign (u ++ (content ++ rest))
        ((.startTag tag, ⟨start, start + byteSize u⟩) ::
          (Lexing.contentTokens mode tag.name (start + byteSize u) content ++ tokens))

/-- What is read as a lexeme, in front of `rest`. -/
def Lexeme.Reads (u rest : List Char) : Lexeme → Prop
  | .text _ => ∀ content, (Token.text content).Written u rest
  | .comment content => (Token.comment (String.ofList content)).Written u rest
  | .doctype name => (Token.doctype (String.ofList name)).Written u rest
  | .endTag name => (Token.endTag (String.ofList name)).Written u rest
  | .startTag interior => u = '<' :: (interior ++ ['>']) ∧ Starts Char.isAlpha interior
  | .unterminated _ => True

theorem append_of_breakAtTagClose {quote : Option Char} {afterEquals : Bool}
    {s inside rest : List Char} (h : breakAtTagClose quote afterEquals s = some (inside, rest)) :
    inside ++ '>' :: rest = s := by
  induction s generalizing quote afterEquals inside with
  | nil => cases h
  | cons c cs ih =>
    have step {q : Option Char} {e : Bool}
        (h : (breakAtTagClose q e cs).map (fun x => (c :: x.1, x.2)) = some (inside, rest)) :
        inside ++ '>' :: rest = c :: cs := by
      obtain ⟨⟨i, r⟩, hb, he⟩ := Option.map_eq_some_iff.1 h
      obtain ⟨rfl, rfl⟩ := Prod.mk.inj he
      rw [List.cons_append, ih hb]
    unfold breakAtTagClose at h
    split at h
    · exact step h
    split at h
    · next hc =>
      obtain ⟨rfl, rfl⟩ := Prod.mk.inj (Option.some.inj h)
      rw [hc, List.nil_append]
    split at h
    · exact step h
    split at h
    · exact step h
    · exact step h

/-- What a `>` ends. -/
theorem split_at_close {s body rest : List Char} (h : breakOn ['>'] s = some (body, rest)) :
    s = body ++ ['>'] ++ rest ∧ '>' ∉ body :=
  ⟨(append_of_breakOn h).symm, not_mem_of_breakOn h⟩

theorem not_opens_of {c : Char} {s : List Char} (h₁ : c ≠ '!') (h₂ : c ≠ '?')
    (h₃ : ∀ d s', c = '/' → s = d :: s' → ¬ d.isAlpha = true) (h₄ : ¬ c.isAlpha = true) :
    ¬ Opens (c :: s) := by
  rintro (⟨d, rest, he, hd⟩ | ⟨d, rest, he, hd⟩)
  · obtain ⟨rfl, rfl⟩ := List.cons.inj he
    simp [h₁, h₂, h₄] at hd
  · obtain ⟨rfl, rfl⟩ := List.cons.inj he
    exact h₃ d rest rfl rfl hd

theorem Lexeme.reads_afterOpen (cs : List Char) :
    ∃ u, '<' :: cs = u ++ (afterOpen cs).2 ∧ (afterOpen cs).1.Reads u (afterOpen cs).2 := by
  have hlt (rest : List Char) (hrest : ¬ Opens rest) :
      ∃ u, '<' :: rest = u ++ rest ∧ (Lexeme.text ['<']).Reads u rest :=
    ⟨['<'], rfl, fun content => .text (by simp) (.inr ⟨rfl, hrest⟩)⟩
  fun_cases Lexeme.afterOpen cs with
  | case1 s content rest hbreak =>
    obtain rfl := append_of_breakOn hbreak
    exact ⟨_, by simp, .comment hbreak⟩
  | case2 s => exact ⟨['<', '!', '-', '-'], rfl, trivial⟩
  | case3 s hno body rest hbreak =>
    obtain ⟨rfl, hbody⟩ := split_at_close hbreak
    have hdashes : ¬ ['-', '-'] <+: body := by
      rintro ⟨more, rfl⟩
      exact hno (more ++ ['>'] ++ rest) (by simp)
    refine ⟨'<' :: '!' :: (body ++ ['>']), by simp, ?_⟩
    have hdeclaration {t : Token} (ht : t.IsDeclaration) :
        t.Written ('<' :: '!' :: (body ++ ['>'])) rest :=
      .declaration ht (.inl ⟨rfl, hdashes⟩) hbody
    simp only [ofDeclaration]
    split <;> exact hdeclaration trivial
  | case4 s => exact ⟨['<', '!'], rfl, trivial⟩
  | case5 s body rest hbreak =>
    obtain ⟨rfl, hbody⟩ := split_at_close hbreak
    exact ⟨'<' :: '?' :: (body ++ ['>']), by simp, .declaration trivial (.inr rfl) hbody⟩
  | case6 s => exact ⟨['<', '?'], rfl, trivial⟩
  | case7 c s hc body rest hbreak =>
    obtain ⟨rfl, hbody⟩ := split_at_close hbreak
    exact ⟨'<' :: '/' :: c :: (body ++ ['>']), by simp, .endTag hc hbody⟩
  | case8 c s => exact ⟨['<', '/', c], rfl, trivial⟩
  | case9 c s hc =>
    refine hlt _ (not_opens_of (by decide) (by decide) (fun d s' _ hs => ?_) (by decide))
    obtain ⟨rfl, -⟩ := List.cons.inj hs
    exact hc
  | case10 c s _ hbang hmark hslash hc inside rest hbreak =>
    obtain rfl := append_of_breakAtTagClose hbreak
    exact ⟨'<' :: (c :: inside ++ ['>']), by simp, rfl, c, inside, rfl, hc⟩
  | case11 c s => exact ⟨['<', c], rfl, trivial⟩
  | case12 c s _ hbang hmark hslash hc =>
    exact hlt _ (not_opens_of hbang hmark (fun d s' he hs _ => hslash d s' he hs) hc)
  | case13 =>
    refine hlt [] ?_
    rintro (⟨c, rest, he, -⟩ | ⟨c, rest, he, -⟩) <;> cases he

theorem Lexeme.reads_next (c : Char) (cs : List Char) :
    ∃ u, c :: cs = u ++ (next c cs).2 ∧ (next c cs).1.Reads u (next c cs).2 := by
  unfold Lexeme.next
  split
  · next hc =>
    rw [hc]
    exact reads_afterOpen cs
  · next hc =>
    refine ⟨c :: cs.takeWhile (· != '<'), by simp, fun content => .text (by simp) (.inl ?_)⟩
    intro hmem
    rcases List.mem_cons.1 hmem with he | hmem
    · exact hc he.symm
    · simpa using List.mem_takeWhile_imp hmem

/-- A tag that cannot be read has errors. -/
theorem StartTag.parse_error {interior : String} {errors : List SyntaxError}
    (h : parse interior = .error errors) : errors ≠ [] := by
  unfold parse at h
  simp only at h
  split at h
  · cases hread : ofTokens interior.utf8ByteSize _ with
    | ok tag =>
      rw [hread] at h
      cases h
    | error e =>
      rw [hread] at h
      obtain rfl := Except.error.inj h
      exact List.cons_ne_nil _ _
  · next hfaults =>
    obtain rfl := Except.error.inj h
    simpa using hfaults

theorem Lexed.next {start foreign : Nat} {cs u rest : List Char} {t : Token}
    {tokens : List (Token × Span)} (hu : cs = u ++ rest) (ht : t.Written u rest)
    (hmode : Lexing.modeAfter foreign t = none)
    (h : Lexed (start + (byteSize cs - byteSize rest)) (t.foreignAfter foreign) rest tokens) :
    Lexed start foreign cs ((t, ⟨start, start + (byteSize cs - byteSize rest)⟩) :: tokens) := by
  subst hu
  rw [byteSize_append, Nat.add_sub_cancel] at h ⊢
  exact .token ht hmode h

theorem Lexed.nextRaw {start foreign : Nat} {cs u rest content rest' : List Char} {tag : StartTag}
    {mode : TextMode} {tokens : List (Token × Span)} (hu : cs = u ++ rest)
    (ht : (Token.startTag tag).Written u rest)
    (hmode : Lexing.modeAfter foreign (.startTag tag) = some mode)
    (hbreak : breakAtEndTag tag.name.toList rest = (content, rest'))
    (h : Lexed (start + (byteSize cs - byteSize rest) + byteSize content)
      ((Token.startTag tag).foreignAfter foreign) rest' tokens) :
    Lexed start foreign cs ((.startTag tag, ⟨start, start + (byteSize cs - byteSize rest)⟩) ::
      (Lexing.contentTokens mode tag.name (start + (byteSize cs - byteSize rest)) content ++
        tokens)) := by
  obtain rfl : content ++ rest' = rest := by
    have := append_breakAtEndTag tag.name.toList rest
    rwa [hbreak] at this
  subst hu
  rw [byteSize_append, Nat.add_sub_cancel] at h ⊢
  exact .rawText ht hmode hbreak h

theorem StartTag.written_of_parseAt {offset : Nat} {interior rest : List Char} {tag : StartTag}
    (h : parseAt offset (String.ofList interior) = .ok tag) (halpha : Starts Char.isAlpha interior) :
    (Token.startTag tag).Written ('<' :: (interior ++ ['>'])) rest := by
  unfold parseAt at h
  cases hparse : parse (String.ofList interior) with
  | error errors =>
    rw [hparse] at h
    cases h
  | ok tag' =>
    rw [hparse] at h
    obtain rfl := Except.ok.inj h
    obtain ⟨name, pieces, tail, rfl, hname, hstop, hpieces, rfl⟩ := spelled hparse
    obtain ⟨c, name, rfl⟩ := List.exists_cons_of_ne_nil hname.1
    obtain ⟨d, ds, he, hd⟩ := halpha
    obtain ⟨rfl, -⟩ := List.cons.inj he
    exact .startTag hname ⟨c, name, rfl, hd⟩ hstop hpieces

/-- Markup without errors is cut into what is written for the tokens. -/
theorem Lexed.of_scan {start foreign : Nat} {cs : List Char}
    (h : (Lexing.scan start foreign cs).errors = []) :
    Lexed start foreign cs (Lexing.scan start foreign cs).tokens := by
  fun_induction Lexing.scan start foreign cs with
  | case1 start foreign => exact .done
  | case2 start foreign c cs lexeme rest stop span content hlexeme ih =>
    obtain ⟨u, hu, hreads⟩ := Lexeme.reads_next c cs
    rw [hlexeme] at hreads
    exact .next hu (hreads _) rfl (ih h)
  | case3 start foreign c cs lexeme rest stop span content hlexeme ih
  | case4 start foreign c cs lexeme rest stop span name hlexeme ih
  | case5 start foreign c cs lexeme rest stop span name hlexeme name' ih =>
    obtain ⟨u, hu, hreads⟩ := Lexeme.reads_next c cs
    rw [hlexeme] at hreads
    exact .next hu hreads rfl (ih h)
  | case6 => cases h
  | case7 start foreign c cs lexeme rest stop interior hlexeme errors hparse ih =>
    obtain ⟨herrors, -⟩ := List.append_eq_nil_iff.1 h
    unfold StartTag.parseAt at hparse
    cases hread : StartTag.parse (String.ofList interior) with
    | ok tag =>
      rw [hread] at hparse
      cases hparse
    | error errors' =>
      rw [hread] at hparse
      obtain rfl := Except.error.inj hparse
      exact absurd (List.map_eq_nil_iff.1 herrors) (StartTag.parse_error hread)
  | case8 start foreign c cs lexeme rest stop span interior hlexeme tag hparse foreign' hmode ih =>
    obtain ⟨u, hu, hreads⟩ := Lexeme.reads_next c cs
    rw [hlexeme] at hreads
    obtain ⟨rfl, halpha⟩ := hreads
    exact .next hu (StartTag.written_of_parseAt hparse halpha) hmode (ih h)
  | case9 start foreign c cs lexeme rest stop span interior hlexeme tag hparse foreign' mode hmode
      broken after tail tail' ih =>
    obtain ⟨u, hu, hreads⟩ := Lexeme.reads_next c cs
    rw [hlexeme] at hreads
    obtain ⟨rfl, halpha⟩ := hreads
    have htail : tail'.errors = tail.errors ∧
        tail'.tokens = Lexing.contentTokens mode tag.name stop broken.1 ++ tail.tokens := by
      simp only [tail', Lexing.contentTokens]
      split <;> exact ⟨rfl, rfl⟩
    change Lexed start foreign (c :: cs) ((.startTag tag, ⟨start, stop⟩) :: tail'.tokens)
    rw [htail.2]
    exact .nextRaw hu (StartTag.written_of_parseAt hparse halpha) hmode rfl
      (ih (htail.1.symm.trans h))

theorem Token.Written.ne_nil {t : Token} {u rest : List Char} (h : t.Written u rest) : u ≠ [] := by
  cases h with
  | text hne => exact hne
  | comment | declaration | endTag | startTag => exact List.cons_ne_nil _ _

theorem Token.Written.byteSize_pos {t : Token} {u rest : List Char} (h : t.Written u rest) :
    0 < byteSize u := by
  obtain ⟨c, u, rfl⟩ := List.exists_cons_of_ne_nil h.ne_nil
  exact Nat.add_pos_left c.utf8Size_pos _

/-- The tokens of markup stand in order. -/
theorem Lexed.inOrder {start foreign : Nat} {cs : List Char} {tokens : List (Token × Span)}
    (h : Lexed start foreign cs tokens) : InOrder start (start + byteSize cs) tokens := by
  induction h with
  | done => exact ⟨nofun, .nil⟩
  | token hwritten hmode hrest ih =>
    have := hwritten.byteSize_pos
    rw [byteSize_append, ← Nat.add_assoc]
    exact ih.cons (Nat.le_refl _) (by simp only; omega) (Nat.le_add_right _ _)
  | @rawText start foreign u content rest tag mode tokens hwritten hmode hbreak hrest ih =>
    have := hwritten.byteSize_pos
    rw [byteSize_append, byteSize_append, ← Nat.add_assoc, ← Nat.add_assoc]
    refine InOrder.cons ?_ (Nat.le_refl _) (by simp only; omega) (by simp only; omega)
    unfold Lexing.contentTokens
    split
    · next hempty =>
      obtain rfl := List.isEmpty_iff.1 hempty
      exact ih
    · next hcontent =>
      obtain ⟨c, content, rfl⟩ := List.exists_cons_of_ne_nil (mt List.isEmpty_iff.2 hcontent)
      have := c.utf8Size_pos
      exact ih.cons (Nat.le_refl _) (by simp only [byteSize_cons]; omega) (Nat.le_add_right _ _)

theorem Token.Written.spelt {tag : StartTag} {u rest : List Char} (pre : List Char)
    (h : (Token.startTag tag).Written u rest) : ∃ name pieces,
      tag.SpeltBy (pre ++ (u ++ rest)) ⟨byteSize pre, byteSize pre + byteSize u⟩ name pieces := by
  cases h with
  | declaration hkind => exact hkind.elim
  | @startTag name interior rest pieces hname halpha hstop hpieces =>
    exact ⟨name, pieces, pre, interior, rest, rfl, rfl, hname, hstop, hpieces, rfl⟩

/-- Every start tag is spelled by the characters at its place. -/
theorem Lexed.spelt {start foreign : Nat} {cs : List Char} {tokens : List (Token × Span)}
    (h : Lexed start foreign cs tokens) (pre : List Char) (hstart : byteSize pre = start)
    {tag : StartTag} {span : Span} (ht : (Token.startTag tag, span) ∈ tokens) :
    ∃ name pieces, tag.SpeltBy (pre ++ cs) span name pieces := by
  induction h generalizing pre with
  | done => cases ht
  | @token start foreign u rest t tokens hwritten hmode hrest ih =>
    subst hstart
    rcases List.mem_cons.1 ht with he | ht
    · obtain ⟨rfl, rfl⟩ := Prod.mk.inj he
      exact hwritten.spelt pre
    · have := ih (pre ++ u) (byteSize_append pre u) ht
      rwa [List.append_assoc] at this
  | @rawText start foreign u content rest tag' mode tokens hwritten hmode hbreak hrest ih =>
    subst hstart
    rcases List.mem_cons.1 ht with he | ht
    · obtain ⟨htag, rfl⟩ := Prod.mk.inj he
      obtain rfl := Token.startTag.inj htag
      exact hwritten.spelt pre
    · rcases List.mem_append.1 ht with ht | ht
      · unfold Lexing.contentTokens at ht
        split at ht
        · cases ht
        · cases List.mem_singleton.1 ht
      · have := ih (pre ++ (u ++ content)) (by simp [Nat.add_assoc]) ht
        simpa using this

end LiveMarkup.Markup
