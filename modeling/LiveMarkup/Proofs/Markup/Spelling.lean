import LiveMarkup.Markup.StartTag
import Mathlib.Data.List.TakeWhile

set_option autoImplicit false

/-!
How start tags are spelled. A tag that can be read is a name and then pieces, one for every item: the
characters of each piece are there one after the other, and a piece whose end is not written is ended
by what comes next.
-/

namespace LiveMarkup.Markup

open LiveMarkup.Text

/-- A run of characters that one word is made of. -/
def IsWord (cs : List Char) : Prop := cs ≠ [] ∧ ∀ c ∈ cs, isWordChar c = true

def AllSpace (cs : List Char) : Prop := ∀ c ∈ cs, isTagSpace c = true

/-- A character of an unquoted value. -/
def isUnquotedChar (c : Char) : Bool := isWordChar c || c == '/' || c == '='

/-- What is written does not begin with a character of a kind. -/
def Starts (p : Char → Bool) (cs : List Char) : Prop := ∃ c rest, cs = c :: rest ∧ p c = true

/-- An item of a start tag as it is written. -/
inductive TagPiece where
  | space (blanks : List Char)
  | slash
  | bare (name : List Char)
  | unquoted (name before after value : List Char)
  | quoted (name before after : List Char) (quote : Char) (value : List Char)

namespace TagPiece

def chars : TagPiece → List Char
  | .space blanks => blanks
  | .slash => ['/']
  | .bare name => name
  | .unquoted name before after value => name ++ (before ++ '=' :: (after ++ value))
  | .quoted name before after quote value =>
    name ++ (before ++ '=' :: (after ++ quote :: (value ++ [quote])))

def item : TagPiece → TagItem
  | .space _ => .space
  | .slash => .slash
  | .bare name => .attribute (String.ofList name) ""
  | .unquoted name _ _ value | .quoted name _ _ _ value =>
    .attribute (String.ofList name) (String.ofList value)

/-- A piece is what it says, in front of `rest`. -/
def Fits (rest : List Char) : TagPiece → Prop
  | .space blanks => blanks ≠ [] ∧ AllSpace blanks
  | .slash => True
  | .bare name => IsWord name ∧ ¬ Starts isWordChar rest
  | .unquoted name before after value =>
    IsWord name ∧ AllSpace before ∧ AllSpace after ∧ value ≠ [] ∧
      (∀ c ∈ value, isUnquotedChar c = true) ∧ (rest = [] ∨ Starts isTagSpace rest)
  | .quoted name before after quote value =>
    IsWord name ∧ AllSpace before ∧ AllSpace after ∧ (quote = '"' ∨ quote = '\'') ∧ quote ∉ value

theorem Fits.chars_ne_nil {p : TagPiece} {rest : List Char} (h : p.Fits rest) : p.chars ≠ [] := by
  cases p with
  | space blanks => exact h.1
  | bare name => exact h.1.1
  | slash | unquoted name before after value | quoted name before after quote value => simp [chars]

end TagPiece

/-- Pieces that are written one after the other. -/
def Spells : List TagPiece → List Char → Prop
  | [], cs => cs = []
  | p :: ps, cs => ∃ rest, cs = p.chars ++ rest ∧ p.Fits rest ∧ Spells ps rest

theorem Spells.eq_nil {pieces : List TagPiece} (h : Spells pieces []) : pieces = [] := by
  cases pieces with
  | nil => rfl
  | cons p pieces =>
    obtain ⟨rest, hnil, hp, -⟩ := h
    exact absurd (List.append_eq_nil_iff.1 hnil.symm).1 hp.chars_ne_nil

namespace TagToken

/-- The characters of a token in front of `rest`. -/
def Fits (u rest : List Char) : TagToken → Prop
  | .space => u ≠ [] ∧ AllSpace u ∧ ¬ Starts isTagSpace rest
  | .equals => u = ['=']
  | .slash => u = ['/']
  | .quoted value => ∃ quote, (quote = '"' ∨ quote = '\'') ∧ quote ∉ value.toList ∧
    u = quote :: (value.toList ++ [quote])
  | .word text => u = text.toList ∧ IsWord u ∧ ¬ Starts isWordChar rest

end TagToken

/-- The text before the first occurrence of one character. -/
theorem not_mem_of_breakOn {q : Char} {s before after : List Char}
    (h : breakOn [q] s = some (before, after)) : q ∉ before := by
  induction s generalizing before with
  | nil => simp [breakOn] at h
  | cons c cs ih =>
    rw [breakOn] at h
    split at h
    · obtain ⟨rfl, -⟩ := Prod.mk.inj (Option.some.inj h)
      exact List.not_mem_nil
    · next hc =>
      obtain ⟨⟨b, a⟩, hb, he⟩ := Option.map_eq_some_iff.1 h
      obtain ⟨rfl, rfl⟩ := Prod.mk.inj he
      have hne : q ≠ c := by simpa [List.isPrefixOf] using hc
      simp [hne, ih hb]

theorem not_starts_dropWhile (p : Char → Bool) (cs : List Char) : ¬ Starts p (cs.dropWhile p) := by
  rintro ⟨c, rest, he, hc⟩
  have hhead := List.head?_dropWhile_not p cs
  rw [he, List.head?_cons] at hhead
  simp only [hc] at hhead
  cases hhead

theorem not_starts_cons {p : Char → Bool} {c : Char} {cs : List Char} (h : p c = false) :
    ¬ Starts p (c :: cs) := by
  rintro ⟨d, rest, he, hd⟩
  obtain ⟨rfl, -⟩ := List.cons.inj he
  rw [h] at hd
  cases hd

/-- A run of characters ends where what follows does not continue it. -/
theorem span_of_not_starts {p : Char → Bool} {u rest : List Char} (hu : ∀ c ∈ u, p c = true)
    (hrest : ¬ Starts p rest) :
    (u ++ rest).takeWhile p = u ∧ (u ++ rest).dropWhile p = rest := by
  rw [List.takeWhile_append_of_pos hu, List.dropWhile_append_of_pos hu]
  cases rest with
  | nil => simp
  | cons c rest =>
    have hc : ¬ p c = true := fun hc => hrest ⟨c, rest, rfl, hc⟩
    simp [hc]

/-- A piece of a tag that is a token. -/
theorem TagLexeme.next_token {c : Char} {cs rest : List Char} {t : TagToken}
    (h : TagLexeme.next c cs = (.token t, rest)) : ∃ u, c :: cs = u ++ rest ∧ t.Fits u rest := by
  unfold TagLexeme.next at h
  split at h
  · next hspace =>
    cases h
    refine ⟨c :: cs.takeWhile isTagSpace, by simp, by simp, ?_, not_starts_dropWhile _ _⟩
    exact List.forall_mem_cons.2 ⟨hspace, fun _ => List.mem_takeWhile_imp⟩
  next hspace =>
  split at h
  · next he =>
    cases h
    exact ⟨['='], by rw [he]; rfl, rfl⟩
  next hequals =>
  split at h
  · next he =>
    cases h
    exact ⟨['/'], by rw [he]; rfl, rfl⟩
  next hslash =>
  split at h
  · next hquote =>
    split at h
    · next value after hbreak =>
      cases h
      have happend := append_of_breakOn hbreak
      refine ⟨c :: (value ++ [c]), by simp [← happend], c, hquote, ?_, by simp⟩
      simpa using not_mem_of_breakOn hbreak
    · cases h
  next hquote =>
  split at h
  · cases h
  · next hstray =>
    cases h
    have hc : isWordChar c = true := by
      have hnot : ¬ c = '"' ∧ ¬ c = '\'' := not_or.1 hquote
      simp [isWordChar, hspace, hequals, hslash, hnot.1, hnot.2, hstray]
    refine ⟨c :: cs.takeWhile isWordChar, by simp, by simp, ⟨by simp, ?_⟩,
      not_starts_dropWhile _ _⟩
    exact List.forall_mem_cons.2 ⟨hc, fun _ => List.mem_takeWhile_imp⟩

/-- The tokens of a text, all pieces being tokens. -/
def Tokens (start : Nat) (cs : List Char) (ts : List Placed) : Prop :=
  TagLexeme.scan start cs = ts.map fun t => (.token t.1, t.2)

namespace Tokens

variable {start : Nat} {cs : List Char} {ts : List Placed} {t : TagToken} {span : Span}

theorem eq_nil (h : Tokens start cs []) : cs = [] := by
  cases cs with
  | nil => rfl
  | cons c cs =>
    rw [Tokens, TagLexeme.scan] at h
    cases h

/-- The first token stands first. -/
theorem cons (h : Tokens start cs ((t, span) :: ts)) :
    ∃ u rest, cs = u ++ rest ∧ t.Fits u rest ∧ ∃ start', Tokens start' rest ts := by
  cases cs with
  | nil =>
    rw [Tokens, TagLexeme.scan] at h
    cases h
  | cons c cs =>
    rw [Tokens, TagLexeme.scan, List.map_cons] at h
    obtain ⟨hfirst, hrest⟩ := List.cons.inj h
    have hnext : TagLexeme.next c cs = (.token t, (TagLexeme.next c cs).2) := by
      rw [← (Prod.mk.inj hfirst).1]
    obtain ⟨u, hu, hfits⟩ := TagLexeme.next_token hnext
    exact ⟨u, _, hu, hfits, _, hrest⟩

/-- Blanks are skipped. -/
theorem skipSpaces (h : Tokens start cs ts) :
    ∃ blanks rest, cs = blanks ++ rest ∧ AllSpace blanks ∧
      ∃ start', Tokens start' rest (skipSpaces ts) := by
  induction ts generalizing start cs with
  | nil => exact ⟨[], cs, rfl, by simp [AllSpace], start, h⟩
  | cons t ts ih =>
    obtain ⟨token, span⟩ := t
    by_cases htoken : token = .space
    · subst htoken
      obtain ⟨u, rest, rfl, ⟨-, hu, -⟩, start', hrest⟩ := h.cons
      obtain ⟨blanks, rest, rfl, hblanks, hskip⟩ := ih hrest
      refine ⟨u ++ blanks, rest, by simp, fun c hc => ?_, hskip⟩
      exact (List.mem_append.1 hc).elim (hu c) (hblanks c)
    · refine ⟨[], cs, rfl, by simp [AllSpace], start, ?_⟩
      rwa [Markup.skipSpaces, List.dropWhile_cons_of_neg (by simpa using htoken)]

/-- The pieces of an unquoted value are its characters. -/
theorem unquotedPieces (h : Tokens start cs ts) :
    ∃ value rest, cs = value ++ rest ∧ (∀ c ∈ value, isUnquotedChar c = true) ∧
      String.join (unquotedPieces ts).1 = String.ofList value ∧
      (∃ start', Tokens start' rest (unquotedPieces ts).2) ∧
      (∀ t ∈ (unquotedPieces ts).2.head?, t.1.unquoted? = none) ∧
      (value = [] → ∀ t ∈ ts.head?, t.1.unquoted? = none) := by
  induction ts generalizing start cs with
  | nil => exact ⟨[], cs, rfl, nofun, rfl, ⟨start, h⟩, nofun, fun _ => nofun⟩
  | cons t ts ih =>
    obtain ⟨token, span⟩ := t
    rw [Markup.unquotedPieces]
    cases hpiece : token.unquoted? with
    | none =>
      exact ⟨[], cs, rfl, nofun, rfl, ⟨start, h⟩, by simpa using hpiece, by simpa using hpiece⟩
    | some piece =>
      obtain ⟨u, rest, rfl, hfits, start', hrest⟩ := h.cons
      obtain ⟨value, rest, rfl, hvalue, hjoin, hstop, hhead, -⟩ := ih hrest
      have hu : u ≠ [] ∧ (∀ c ∈ u, isUnquotedChar c = true) ∧ piece = String.ofList u := by
        cases token with
        | word text =>
          obtain ⟨rfl, ⟨hne, hword⟩, -⟩ := hfits
          obtain rfl := Option.some.inj hpiece
          exact ⟨hne, fun c hc => by simp [isUnquotedChar, hword c hc], by simp⟩
        | slash | equals =>
          obtain rfl := hfits
          obtain rfl := Option.some.inj hpiece
          exact ⟨by simp, List.forall_mem_singleton.2 (by decide), rfl⟩
        | space | quoted value => cases hpiece
      refine ⟨u ++ value, rest, by simp, fun c hc => ?_, ?_, hstop, hhead, by simp [hu.1]⟩
      · exact (List.mem_append.1 hc).elim (hu.2.1 c) (hvalue c)
      · simp only [String.join_cons, hjoin, hu.2.2, String.ofList_append]

/-- A quoted value or the run of an unquoted one, and how the tag goes on. -/
theorem attributeTail (h : Tokens start cs ts) {text : String} {rest : List Placed}
    (hread : AttributeTail.read ts = .value text rest) :
    ∃ before after value cs', cs = before ++ '=' :: (after ++ (value ++ cs')) ∧ AllSpace before ∧
      AllSpace after ∧ (∃ start', Tokens start' cs' rest) ∧
      ((∃ quote, (quote = '"' ∨ quote = '\'') ∧ quote ∉ text.toList ∧
          value = quote :: (text.toList ++ [quote])) ∨
        value ≠ [] ∧ (∀ c ∈ value, isUnquotedChar c = true) ∧ text = String.ofList value ∧
          ∀ t ∈ rest.head?, t.1.unquoted? = none) := by
  obtain ⟨before, rest₁, rfl, hbefore, start₁, h₁⟩ := h.skipSpaces
  unfold AttributeTail.read at hread
  split at hread
  · next span afterEquals hskip =>
    rw [hskip] at h₁
    obtain ⟨u, rest₂, rfl, rfl, start₂, h₂⟩ := h₁.cons
    obtain ⟨after, rest₃, rfl, hafter, start₃, h₃⟩ := h₂.skipSpaces
    split at hread
    · next value span' others hskip' =>
      obtain ⟨rfl, rfl⟩ := AttributeTail.value.inj hread
      rw [hskip'] at h₃
      obtain ⟨u, cs', rfl, hquoted, hrest⟩ := h₃.cons
      exact ⟨before, after, u, cs', by simp, hbefore, hafter, hrest, .inl hquoted⟩
    · next first others hquoted hskip' =>
      obtain ⟨rfl, rfl⟩ := AttributeTail.value.inj hread
      rw [hskip'] at h₃
      obtain ⟨value, cs', rfl, hvalue, hjoin, hrest, hhead, hfirst⟩ := h₃.unquotedPieces
      refine ⟨before, after, value, cs', by simp, hbefore, hafter, hrest,
        .inr ⟨fun hnil => ?_, hvalue, hjoin, hhead⟩⟩
      -- The token behind the blanks is neither blank nor quoted, so it is part of the value.
      have hnone : first.1.unquoted? = none := hfirst hnil first rfl
      have hspace : first.1 ≠ .space := by
        have hhead := List.head?_dropWhile_not (·.1 == TagToken.space) afterEquals
        rw [← Markup.skipSpaces, hskip'] at hhead
        simpa using hhead
      obtain ⟨token, span'⟩ := first
      cases token with
      | space => exact hspace rfl
      | quoted value => exact hquoted _ _ rfl
      | equals | slash | word text => cases hnone
    · cases hread
  · cases hread

end Tokens

theorem ok_of_map_ok {ε α β : Type} {f : α → β} {e : Except ε α} {b : β} (h : e.map f = .ok b) :
    ∃ a, e = .ok a ∧ f a = b := by
  cases e with
  | error e => cases h
  | ok a => exact ⟨a, rfl, Except.ok.inj h⟩

/-- What the reader of a tag reads is spelled by its items. -/
theorem TagItem.spelled {size : Nat} {bare : Bool} {ts : List Placed} {items : List TagItem}
    (hread : TagItem.read size bare ts = .ok items) {start : Nat} {cs : List Char}
    (h : Tokens start cs ts) : ∃ pieces, Spells pieces cs ∧ pieces.map TagPiece.item = items := by
  fun_induction TagItem.read size bare ts generalizing items start cs with
  | case1 bare =>
    obtain rfl := Except.ok.inj hread
    exact ⟨[], h.eq_nil, rfl⟩
  | case2 bare span ts ih =>
    obtain ⟨items, hitems, rfl⟩ := ok_of_map_ok hread
    obtain ⟨u, rest, rfl, ⟨hne, hu, -⟩, start', hrest⟩ := h.cons
    obtain ⟨pieces, hspells, rfl⟩ := ih hitems hrest
    exact ⟨.space u :: pieces, ⟨rest, rfl, ⟨hne, hu⟩, hspells⟩, rfl⟩
  | case3 bare span ts ih =>
    obtain ⟨items, hitems, rfl⟩ := ok_of_map_ok hread
    obtain ⟨u, rest, rfl, rfl, start', hrest⟩ := h.cons
    obtain ⟨pieces, hspells, rfl⟩ := ih hitems hrest
    exact ⟨.slash :: pieces, ⟨rest, rfl, trivial, hspells⟩, rfl⟩
  | case4 bare name span ts htail ih =>
    obtain ⟨items, hitems, rfl⟩ := ok_of_map_ok hread
    obtain ⟨u, rest, rfl, ⟨rfl, hword, hstop⟩, start', hrest⟩ := h.cons
    obtain ⟨pieces, hspells, rfl⟩ := ih hitems hrest
    exact ⟨.bare name.toList :: pieces, ⟨rest, rfl, ⟨hword, hstop⟩, hspells⟩,
      by simp [TagPiece.item]⟩
  | case5 bare name span ts text rest htail ih =>
    obtain ⟨items, hitems, rfl⟩ := ok_of_map_ok hread
    obtain ⟨u, cs', rfl, ⟨rfl, hword, -⟩, start', hname⟩ := h.cons
    obtain ⟨before, after, value, cs'', rfl, hbefore, hafter, ⟨start'', hrest⟩, hvalue⟩ :=
      hname.attributeTail htail
    obtain ⟨pieces, hspells, rfl⟩ := ih hitems hrest
    rcases hvalue with ⟨quote, hquote, hnot, rfl⟩ | ⟨hne, hvalue, rfl, hhead⟩
    · exact ⟨.quoted name.toList before after quote text.toList :: pieces,
        ⟨cs'', by simp [TagPiece.chars], ⟨hword, hbefore, hafter, hquote, hnot⟩, hspells⟩,
        by simp [TagPiece.item]⟩
    · refine ⟨.unquoted name.toList before after value :: pieces,
        ⟨cs'', by simp [TagPiece.chars], ⟨hword, hbefore, hafter, hne, hvalue, ?_⟩, hspells⟩,
        by simp [TagPiece.item]⟩
      -- A token that is no part of a value and that an item starts with is a blank.
      match rest with
      | [] => exact .inl hrest.eq_nil
      | (.space, _) :: _ =>
        obtain ⟨u, cs, rfl, ⟨hne, hu, -⟩, -⟩ := hrest.cons
        obtain ⟨c, u, rfl⟩ := List.exists_cons_of_ne_nil hne
        exact .inr ⟨c, u ++ cs, rfl, hu c List.mem_cons_self⟩
      | (.quoted _, _) :: _ =>
        simp [TagItem.read] at hitems
      | (.word _, _) :: _ | (.slash, _) :: _ | (.equals, _) :: _ => cases hhead _ rfl
  | case6 => cases hread
  | case7 => cases hread

/-- Where nothing is wrong with the pieces of a tag, all are tokens. -/
theorem tokens_of_faultless {pieces : List (TagLexeme × Span)}
    (h : pieces.filterMap (fun x => (StartTag.faultOf x.1).map (SyntaxError.mk x.2)) = []) :
    ∃ ts : List Placed, pieces = ts.map fun t => (.token t.1, t.2) := by
  induction pieces with
  | nil => exact ⟨[], rfl⟩
  | cons piece pieces ih =>
    obtain ⟨lexeme, span⟩ := piece
    cases lexeme with
    | token token =>
      obtain ⟨ts, rfl⟩ := ih h
      exact ⟨(token, span) :: ts, rfl⟩
    | openQuote | stray => cases h

namespace StartTag

/-- The tag of a name and the pieces that follow it. -/
def ofPieces (name : List Char) (pieces : List TagPiece) : StartTag :=
  ⟨String.ofList name, TagItem.attributes (pieces.map TagPiece.item),
    TagItem.closes (pieces.map TagPiece.item)⟩

/-- A tag that can be read is spelled by a name and the pieces that follow it. -/
theorem spelled {interior : List Char} {tag : StartTag}
    (h : parse (String.ofList interior) = .ok tag) :
    ∃ name pieces rest, interior = name ++ rest ∧ IsWord name ∧ ¬ Starts isWordChar rest ∧
      Spells pieces rest ∧ tag = ofPieces name pieces := by
  unfold parse at h
  simp only [TagLexeme.ofInterior, String.toList_ofList] at h
  split at h
  · next hfaults =>
    obtain ⟨ts, hts⟩ := tokens_of_faultless (List.isEmpty_iff.1 hfaults)
    have htokens : Tokens 0 interior ts := hts
    rw [hts, List.filterMap_map] at h
    change (ofTokens _ (ts.filterMap some)).mapError _ = _ at h
    rw [List.filterMap_some] at h
    match ts with
    | (.word name, span) :: ts =>
      rw [ofTokens] at h
      cases hread : TagItem.read (String.ofList interior).utf8ByteSize false ts with
      | error e =>
        rw [hread] at h
        cases h
      | ok items =>
        rw [hread] at h
        obtain rfl := Except.ok.inj h
        obtain ⟨u, rest, rfl, ⟨rfl, hword, hstop⟩, start, hrest⟩ := htokens.cons
        obtain ⟨pieces, hspells, rfl⟩ := TagItem.spelled hread hrest
        exact ⟨name.toList, pieces, rest, rfl, hword, hstop, hspells, by simp [ofPieces]⟩
    | [] | (.space, _) :: _ | (.equals, _) :: _ | (.slash, _) :: _ | (.quoted _, _) :: _ => cases h
  · cases h

end StartTag

end LiveMarkup.Markup
