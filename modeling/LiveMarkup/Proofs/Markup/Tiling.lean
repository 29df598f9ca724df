import LiveMarkup.Proofs.Markup.Faults

set_option autoImplicit false

/-!
No byte of markup is lost. The tokens of markup without errors lie side by side from its beginning
to its end; otherwise the errors are reported where they are, from the beginning on.
-/

namespace LiveMarkup.Markup

open LiveMarkup.Text

/-- Places that lie side by side from one byte to another, none of them empty. -/
def Span.Tile : Nat → Nat → List Span → Prop
  | start, stop, [] => start = stop
  | start, stop, span :: spans =>
    span.start = start ∧ span.start < span.stop ∧ Tile span.stop stop spans

theorem Lexed.tile {start foreign : Nat} {cs : List Char} {tokens : List (Token × Span)}
    (h : Lexed start foreign cs tokens) :
    Span.Tile start (start + byteSize cs) (tokens.map Prod.snd) := by
  induction h with
  | done => exact rfl
  | token hwritten hmode hrest ih =>
    have := hwritten.byteSize_pos
    rw [byteSize_append, ← Nat.add_assoc]
    exact ⟨rfl, by simp only; omega, ih⟩
  | @rawText start foreign u content rest tag mode tokens hwritten hmode hbreak hrest ih =>
    have := hwritten.byteSize_pos
    rw [byteSize_append, byteSize_append, ← Nat.add_assoc, ← Nat.add_assoc]
    refine ⟨rfl, by simp only; omega, ?_⟩
    unfold Lexing.contentTokens
    split
    · next hempty =>
      obtain rfl := List.isEmpty_iff.1 hempty
      exact ih
    · next hcontent =>
      have := byteSize_pos (mt List.isEmpty_iff.2 hcontent)
      exact ⟨rfl, by simp only; omega, ih⟩

/-- How a construct begins. A quoted value is no construct of its own, but a part of a start tag. -/
inductive Construct.Opener : Construct → List Char → Prop
  | comment : Opener .comment ['<', '!', '-', '-']
  | declaration {mark : Char} : mark = '!' ∨ mark = '?' → Opener .declaration ['<', mark]
  | endTag {c : Char} : c.isAlpha = true → Opener .endTag ['<', '/', c]
  | startTag {c : Char} : c.isAlpha = true → Opener .startTag ['<', c]

/-- A construct that nothing closes is cut off behind its opener. -/
theorem Lexeme.opener_afterOpen (cs : List Char) (what : Construct) :
    (afterOpen cs).1 = .unterminated what →
      ∃ u, '<' :: cs = u ++ (afterOpen cs).2 ∧ what.Opener u := by
  fun_cases Lexeme.afterOpen cs with
  | case1 | case5 | case7 | case9 | case10 | case12 | case13 =>
    intro h
    cases h
  | case3 =>
    intro h
    rw [ofDeclaration] at h
    split at h <;> cases h
  | case2 s =>
    intro h
    obtain rfl := Lexeme.unterminated.inj h
    exact ⟨['<', '!', '-', '-'], rfl, .comment⟩
  | case4 s =>
    intro h
    obtain rfl := Lexeme.unterminated.inj h
    exact ⟨['<', '!'], rfl, .declaration (.inl rfl)⟩
  | case6 s =>
    intro h
    obtain rfl := Lexeme.unterminated.inj h
    exact ⟨['<', '?'], rfl, .declaration (.inr rfl)⟩
  | case8 c s hc =>
    intro h
    obtain rfl := Lexeme.unterminated.inj h
    exact ⟨['<', '/', c], rfl, .endTag hc⟩
  | case11 c s _ _ _ _ hc =>
    intro h
    obtain rfl := Lexeme.unterminated.inj h
    exact ⟨['<', c], rfl, .startTag hc⟩

theorem Lexeme.opener_next {c : Char} {cs : List Char} {what : Construct}
    (h : (next c cs).1 = .unterminated what) :
    ∃ u, c :: cs = u ++ (next c cs).2 ∧ what.Opener u := by
  unfold Lexeme.next at h ⊢
  split at h
  · next hc =>
    rw [if_pos hc, hc]
    exact opener_afterOpen cs what h
  · cases h

/-- Where errors are reported: at an opener that nothing closes, or between the brackets of a start
tag. -/
inductive SyntaxError.InPlace (text : List Char) : SyntaxError → Prop
  | opener {before opener after : List Char} {what : Construct} :
      text = before ++ (opener ++ after) → what.Opener opener →
      InPlace text
        ⟨⟨byteSize before, byteSize before + byteSize opener⟩, .unterminated what⟩
  | inTag {before interior after : List Char} {errors : List SyntaxError} {e : SyntaxError} :
      text = before ++ ('<' :: (interior ++ ['>']) ++ after) → Starts Char.isAlpha interior →
      StartTag.parseAt (byteSize before + 1) (String.ofList interior) = .error errors → e ∈ errors →
      e.span.Within (byteSize before + 1) (byteSize before + 1 + byteSize interior) →
      InPlace text e

theorem SyntaxError.InPlace.within {text : List Char} {e : SyntaxError} (h : e.InPlace text) :
    e.span.Within 0 (byteSize text) := by
  cases h with
  | opener htext hopener =>
    rw [htext, byteSize_append, byteSize_append]
    exact ⟨Nat.zero_le _, Nat.le_add_right _ _, by simp only; omega⟩
  | inTag htext hletter hparse he hwithin =>
    have hopen : Char.utf8Size '<' = 1 := rfl
    rw [htext, byteSize_append, byteSize_append, byteSize_cons, byteSize_append, hopen]
    exact hwithin.mono (Nat.zero_le _) (by omega)

/-- What is in place behind the first piece is in place in the whole. -/
theorem SyntaxError.inPlace_behind {pre cs : List Char} {c : Char} {start : Nat}
    (hstart : byteSize pre = start) {errors : List SyntaxError}
    (h : ∀ pre', byteSize pre' = start + (byteSize (c :: cs) - byteSize (Lexeme.next c cs).2) →
      ∀ e ∈ errors, e.InPlace (pre' ++ (Lexeme.next c cs).2)) :
    ∀ e ∈ errors, e.InPlace (pre ++ c :: cs) := by
  obtain ⟨u, hu, -⟩ := Lexeme.reads_next c cs
  have hsize := congrArg byteSize hu
  rw [byteSize_append] at hsize
  rw [hu, ← List.append_assoc]
  exact h (pre ++ u) (by rw [byteSize_append]; omega)

/-- Every error is in its place, whatever stands in front of the markup that is scanned. -/
theorem Lexing.inPlace_scan {start foreign : Nat} {cs : List Char} (pre : List Char)
    (hstart : byteSize pre = start) :
    ∀ e ∈ (scan start foreign cs).errors, e.InPlace (pre ++ cs) := by
  fun_induction Lexing.scan start foreign cs generalizing pre with
  | case1 => exact fun _ he => absurd he List.not_mem_nil
  | case2 start foreign c cs lexeme rest stop span content hlexeme ih
  | case3 start foreign c cs lexeme rest stop span content hlexeme ih
  | case4 start foreign c cs lexeme rest stop span name hlexeme ih
  | case5 start foreign c cs lexeme rest stop span name hlexeme name' ih =>
    exact SyntaxError.inPlace_behind hstart ih
  | case6 start foreign c cs lexeme rest stop span what hlexeme ih =>
    refine List.forall_mem_cons.2 ⟨?_, SyntaxError.inPlace_behind hstart ih⟩
    obtain ⟨u, hu, hopener⟩ := Lexeme.opener_next hlexeme
    have hstop : stop = start + byteSize u := by
      have hsize := congrArg byteSize hu
      rw [byteSize_append] at hsize
      change start + (byteSize (c :: cs) - byteSize (Lexeme.next c cs).2) = _
      omega
    simp only [span, hstop, ← hstart]
    exact .opener (congrArg (pre ++ ·) hu) hopener
  | case7 start foreign c cs lexeme rest stop interior hlexeme errors hparse ih =>
    refine List.forall_mem_append.2 ⟨fun e he => ?_, SyntaxError.inPlace_behind hstart ih⟩
    obtain ⟨u, hu, hreads⟩ := Lexeme.reads_next c cs
    rw [show (Lexeme.next c cs).1 = .startTag interior from hlexeme] at hreads
    obtain ⟨rfl, hletter⟩ := hreads
    subst hstart
    exact .inTag (congrArg (pre ++ ·) hu) hletter hparse he (StartTag.within_parseAt hparse e he)
  | case8 start foreign c cs lexeme rest stop span interior hlexeme tag hparse foreign' hmode ih =>
    exact SyntaxError.inPlace_behind hstart ih
  | case9 start foreign c cs lexeme rest stop span interior hlexeme tag hparse foreign' mode hmode
      broken after tail tail' ih =>
    have htail : tail'.errors = tail.errors := by
      simp only [tail']
      split <;> rfl
    have hbroken : broken.1 ++ broken.2 = rest := append_breakAtEndTag tag.name.toList rest
    refine SyntaxError.inPlace_behind hstart fun pre' hpre' e he => ?_
    have := ih (pre' ++ broken.1) (by rw [byteSize_append, hpre']) e (htail ▸ he)
    rwa [List.append_assoc, hbroken] at this

/-- The pieces of a tag come in order. -/
theorem TagLexeme.sorted_scan {start : Nat} {cs : List Char} :
    (TagLexeme.scan start cs).Pairwise (·.2.start ≤ ·.2.start) := by
  fun_induction TagLexeme.scan start cs with
  | case1 start => exact .nil
  | case2 start c cs piece stop ih =>
    refine List.pairwise_cons.2 ⟨fun p hp => ?_, ih⟩
    exact Nat.le_trans (Nat.le_add_right _ _) (TagLexeme.within_scan p hp).start_le

/-- The errors in a start tag come in order: those of the pieces, or that of the grammar. -/
theorem StartTag.sorted_parse {interior : String} {errors : List SyntaxError}
    (h : parse interior = .error errors) :
    errors.Pairwise (·.span.start ≤ ·.span.start) := by
  unfold parse at h
  simp only at h
  split at h
  · cases hread : ofTokens interior.utf8ByteSize _ with
    | ok tag =>
      rw [hread] at h
      cases h
    | error e =>
      rw [hread] at h
      obtain rfl := Except.error.inj h
      exact List.pairwise_singleton _ _
  · obtain rfl := Except.error.inj h
    refine List.Pairwise.filterMap _ (fun p p' hle e he e' he' => ?_) TagLexeme.sorted_scan
    obtain ⟨fault, -, rfl⟩ := Option.map_eq_some_iff.1 he
    obtain ⟨fault', -, rfl⟩ := Option.map_eq_some_iff.1 he'
    exact hle

theorem StartTag.sorted_parseAt {offset : Nat} {interior : String} {errors : List SyntaxError}
    (h : parseAt offset interior = .error errors) :
    errors.Pairwise (·.span.start ≤ ·.span.start) := by
  unfold parseAt at h
  cases hparse : parse interior with
  | ok tag =>
    rw [hparse] at h
    cases h
  | error errors' =>
    rw [hparse] at h
    obtain rfl := Except.error.inj h
    exact List.pairwise_map.2 ((sorted_parse hparse).imp fun hle => Nat.add_le_add_right hle _)

/-- Errors are found in the order of the markup. -/
theorem Lexing.sorted_scan {start foreign : Nat} {cs : List Char} :
    (scan start foreign cs).errors.Pairwise (·.span.start ≤ ·.span.start) := by
  fun_induction Lexing.scan start foreign cs with
  | case1 => exact .nil
  | case2 start foreign c cs lexeme rest stop span content hlexeme ih
  | case3 start foreign c cs lexeme rest stop span content hlexeme ih
  | case4 start foreign c cs lexeme rest stop span name hlexeme ih
  | case5 start foreign c cs lexeme rest stop span name hlexeme name' ih => exact ih
  | case6 start foreign c cs lexeme rest stop span what hlexeme ih =>
    refine List.pairwise_cons.2 ⟨fun e he => ?_, ih⟩
    exact Nat.le_trans (Nat.le_add_right _ _) (within_scan e he).start_le
  | case7 start foreign c cs lexeme rest stop interior hlexeme errors hparse ih =>
    refine List.pairwise_append.2 ⟨StartTag.sorted_parseAt hparse, ih, fun e he e' he' => ?_⟩
    have hsize := Lexeme.byteSize_startTag hlexeme
    have hwithin := StartTag.within_parseAt hparse e he
    have hstop : stop = start + (byteSize (c :: cs) - byteSize (Lexeme.next c cs).2) := rfl
    have := (within_scan e' he').start_le
    have := hwithin.le
    have := hwithin.le_stop
    omega
  | case8 start foreign c cs lexeme rest stop span interior hlexeme tag hparse foreign' hmode ih =>
    exact ih
  | case9 start foreign c cs lexeme rest stop span interior hlexeme tag hparse foreign' mode hmode
      broken after tail tail' ih =>
    have htail : tail'.errors = tail.errors := by
      simp only [tail']
      split <;> rfl
    exact htail ▸ ih

/-- Markup is cut into tokens without losing a byte: they lie side by side from its beginning to its
end. Or there are errors, each of which is in its place, an error in a start tag between the brackets
of that tag, and they come in the order of the markup. -/
theorem tokenize_tile (markup : String) :
    match tokenize markup with
    | .ok tokens => Span.Tile 0 markup.utf8ByteSize (tokens.map Prod.snd)
    | .error errors => errors ≠ [] ∧ errors.Pairwise (·.span.start ≤ ·.span.start) ∧
      ∀ e ∈ errors, e.span.Within 0 markup.utf8ByteSize ∧ e.InPlace markup.toList := by
  have hsize : byteSize markup.toList = markup.utf8ByteSize := byteSize_toList markup
  unfold tokenize
  simp only
  split
  · next tokens hok =>
    split at hok
    · next hempty =>
      obtain rfl := Except.ok.inj hok
      have htile := (Lexed.of_scan (List.isEmpty_iff.1 hempty)).tile
      rwa [Nat.zero_add, hsize] at htile
    · cases hok
  · next errors herror =>
    split at herror
    · cases herror
    · next hsome =>
      obtain rfl := Except.error.inj herror
      refine ⟨mt List.isEmpty_iff.2 hsome, Lexing.sorted_scan, fun e he => ?_⟩
      have hplace := Lexing.inPlace_scan [] rfl e he
      exact ⟨hsize ▸ hplace.within, hplace⟩

end LiveMarkup.Markup
