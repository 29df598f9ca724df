import LiveMarkup.Proofs.Markup.Building
import LiveMarkup.Proofs.Markup.Faults
import LiveMarkup.Proofs.Markup.Scanning
import Mathlib

set_option autoImplicit false

/-!
Markup inside a wrapper. The end tag that is written behind markup is a token of its own as long as
the markup leaves no construct open that takes it up: then everything is found, and reported, that
is found in the markup without the end tag, at the same places. A start tag, an end tag or a
declaration that is left open ends at the bracket of the wrapper's end tag, and the content of an
element that holds no markup goes on through it.
-/

namespace LiveMarkup

namespace Text

variable {pattern s before after : List Char}

/-- Text behind an occurrence does not move it. -/
theorem breakOn_append_right (h : breakOn pattern s = some (before, after)) (more : List Char) :
    breakOn pattern (s ++ more) = some (before, after ++ more) := by
  induction s generalizing before with
  | nil =>
    rw [breakOn] at h
    split at h
    · next hpattern =>
      obtain ⟨rfl, rfl⟩ := Prod.mk.inj (Option.some.inj h)
      obtain rfl := List.isEmpty_iff.1 hpattern
      cases more <;> rfl
    · cases h
  | cons c cs ih =>
    rw [breakOn] at h
    rw [List.cons_append, breakOn]
    split at h
    · next hfound =>
      obtain ⟨rest, hrest⟩ := List.isPrefixOf_iff_prefix.1 hfound
      obtain ⟨rfl, rfl⟩ := Prod.mk.inj (Option.some.inj h)
      rw [← List.cons_append, ← hrest, List.append_assoc, if_pos
        (List.isPrefixOf_iff_prefix.2 (List.prefix_append _ _)), List.drop_left, List.drop_left]
    · next hnot =>
      obtain ⟨⟨b, a⟩, hbreak, he⟩ := Option.map_eq_some_iff.1 h
      obtain ⟨rfl, rfl⟩ := Prod.mk.inj he
      -- What is found later is found in `cs`, so an occurrence here would end in `cs` too.
      have hlong : pattern.length ≤ (c :: cs).length := by
        have hlength := congrArg List.length (append_of_breakOn hbreak)
        simp only [List.length_append] at hlength
        rw [List.length_cons]
        omega
      rw [if_neg, ih hbreak]
      · rfl
      · intro hfound
        refine hnot (List.isPrefixOf_iff_prefix.2 ?_)
        exact List.prefix_of_prefix_length_le (List.isPrefixOf_iff_prefix.1 hfound)
          (List.prefix_append (c :: cs) more) hlong

end Text

namespace Markup

open LiveMarkup.Text
open Hole.Scanner (IsCloser breakAtEndTag_cons breakAtEndTag_closer closes_of_breakAtEndTag
  cut_of_closesElement closesElement_of)

/-- Text behind the bracket that closes a start tag does not move it. -/
theorem breakAtTagClose_append {quote : Option Char} {afterEquals : Bool}
    {s inside rest : List Char} (h : breakAtTagClose quote afterEquals s = some (inside, rest))
    (more : List Char) :
    breakAtTagClose quote afterEquals (s ++ more) = some (inside, rest ++ more) := by
  induction s generalizing quote afterEquals inside with
  | nil => simp [breakAtTagClose] at h
  | cons c cs ih =>
    have step {q : Option Char} {e : Bool}
        (h : (breakAtTagClose q e cs).map (fun p => (c :: p.1, p.2)) = some (inside, rest)) :
        (breakAtTagClose q e (cs ++ more)).map (fun p => (c :: p.1, p.2)) =
          some (inside, rest ++ more) := by
      obtain ⟨⟨i, r⟩, hb, he⟩ := Option.map_eq_some_iff.1 h
      obtain ⟨rfl, rfl⟩ := Prod.mk.inj he
      rw [ih hb]
      rfl
    rw [List.cons_append]
    unfold breakAtTagClose at h ⊢
    split at h
    · exact step h
    split at h
    · next hc =>
      obtain ⟨rfl, rfl⟩ := Prod.mk.inj (Option.some.inj h)
      simp only [if_pos hc]
    split at h
    · next hc hequals =>
      simp only [if_neg hc, if_pos hequals]
      exact step h
    split at h
    · next hc hequals hquote =>
      simp only [if_neg hc, if_neg hequals, if_pos hquote]
      exact step h
    · next hc hequals hquote =>
      simp only [if_neg hc, if_neg hequals, if_neg hquote]
      exact step h

section Appending

variable {cs more : List Char}

/-- What a `<` stands in front of that is no mark. -/
theorem Lexeme.afterOpen_cons {c : Char} {s : List Char} (hbang : c ≠ '!') (hmark : c ≠ '?')
    (hslash : c ≠ '/') : afterOpen (c :: s) =
      if c.isAlpha then
        match breakAtTagClose none false s with
        | some (inside, rest) => (.startTag (c :: inside), rest)
        | none => (.unterminated .startTag, s)
      else (.text ['<'], c :: s) := by
  rw [afterOpen.eq_def]
  split
  · next he => exact absurd (List.cons.inj he).1 hbang
  · next he => exact absurd (List.cons.inj he).1 hbang
  · next he => exact absurd (List.cons.inj he).1 hmark
  · next he => exact absurd (List.cons.inj he).1 hslash
  · next he =>
    obtain ⟨rfl, rfl⟩ := List.cons.inj he
    rfl
  · next he => cases he

/-- Markup that follows leaves a lexeme as it is, unless it ends a construct that was open. -/
theorem Lexeme.afterOpen_append :
    (∀ what, (afterOpen cs).1 = .unterminated what →
      (afterOpen (cs ++ '<' :: more)).1 = .unterminated what) →
    afterOpen (cs ++ '<' :: more) = ((afterOpen cs).1, (afterOpen cs).2 ++ '<' :: more) := by
  -- No dashes come with what follows, so that an exclamation mark still opens a declaration.
  have hdashes {s : List Char} (hno : ∀ s', s = '-' :: '-' :: s' → False) (s' : List Char)
      (he : s ++ '<' :: more = '-' :: '-' :: s') : False := by
    rcases s with _ | ⟨c, _ | ⟨d, s⟩⟩
    · simp at he
    · simp at he
    · simp only [List.cons_append, List.cons.injEq] at he
      exact hno s (by rw [he.1, he.2.1])
  fun_cases Lexeme.afterOpen cs with
  | case1 s content rest hbreak =>
    intro _
    simp only [List.cons_append, afterOpen, breakOn_append_right hbreak]
  | case2 s hbreak =>
    intro hopen
    have h := hopen _ rfl
    simp only [List.cons_append, afterOpen] at h ⊢
    split at h
    · cases h
    · simp only [*]
  | case3 s hno body rest hbreak =>
    intro _
    rw [List.cons_append, afterOpen, breakOn_append_right hbreak]
    exact hdashes hno
  | case4 s hno hbreak =>
    intro hopen
    have h := hopen _ rfl
    rw [List.cons_append, afterOpen.eq_2 _ (hdashes hno)] at h ⊢
    split at h
    · simp only [ofDeclaration] at h
      split at h <;> cases h
    · simp only [*]
  | case5 s body rest hbreak =>
    intro _
    rw [List.cons_append, afterOpen, breakOn_append_right hbreak]
  | case6 s hbreak =>
    intro hopen
    have h := hopen _ rfl
    simp only [List.cons_append, afterOpen] at h ⊢
    split at h
    · cases h
    · simp only [*]
  | case7 c s hc body rest hbreak =>
    intro _
    simp only [List.cons_append, afterOpen, if_pos hc, breakOn_append_right hbreak]
  | case8 c s hc hbreak =>
    intro hopen
    have h := hopen _ rfl
    simp only [List.cons_append, afterOpen, if_pos hc] at h ⊢
    split at h
    · cases h
    · simp only [*]
  | case9 c s hc =>
    intro _
    simp only [List.cons_append, afterOpen, if_neg hc]
  | case10 c s hdash hbang hmark hslash hc inside rest hbreak =>
    intro _
    have hletter : c ≠ '/' := fun he => absurd (he ▸ hc) (by decide)
    rw [List.cons_append, afterOpen_cons hbang hmark hletter, if_pos hc,
      breakAtTagClose_append hbreak]
  | case11 c s hdash hbang hmark hslash hc hbreak =>
    intro hopen
    have h := hopen _ rfl
    have hletter : c ≠ '/' := fun he => absurd (he ▸ hc) (by decide)
    rw [List.cons_append, afterOpen_cons hbang hmark hletter, if_pos hc] at h ⊢
    split at h
    · cases h
    · simp only [*]
  | case12 c s hdash hbang hmark hslash hc =>
    intro _
    by_cases hc' : c = '/'
    · cases s with
      | nil =>
        obtain rfl := hc'
        rfl
      | cons d s => exact (hslash d s hc' rfl).elim
    · rw [List.cons_append, afterOpen_cons hbang hmark hc', if_neg hc]
  | case13 =>
    intro _
    rw [List.nil_append, afterOpen_cons (by decide) (by decide) (by decide), if_neg (by decide)]

theorem Lexeme.next_append {c : Char}
    (hopen : ∀ what, (next c cs).1 = .unterminated what →
      (next c (cs ++ '<' :: more)).1 = .unterminated what) :
    next c (cs ++ '<' :: more) = ((next c cs).1, (next c cs).2 ++ '<' :: more) := by
  unfold next at hopen ⊢
  by_cases hc : c = '<'
  · simp only [if_pos hc] at hopen ⊢
    exact afterOpen_append hopen
  · have hplain : ∀ d ∈ cs.takeWhile (· != '<'), (d != '<') = true :=
      List.all_eq_true.1 List.all_takeWhile
    have hrest : ¬ Starts (· != '<') (cs.dropWhile (· != '<') ++ '<' :: more) := by
      rintro ⟨d, rest, he, hd⟩
      have hnot := not_starts_dropWhile (· != '<') cs
      cases hdrop : cs.dropWhile (· != '<') with
      | nil =>
        rw [hdrop, List.nil_append] at he
        obtain ⟨rfl, -⟩ := List.cons.inj he
        cases hd
      | cons d' rest' =>
        rw [hdrop, List.cons_append] at he
        obtain ⟨rfl, -⟩ := List.cons.inj he
        exact hnot ⟨_, _, hdrop, hd⟩
    have hspan := span_of_not_starts hplain hrest
    rw [← List.append_assoc, List.takeWhile_append_dropWhile] at hspan
    rw [if_neg hc, if_neg hc, hspan.1, hspan.2]

theorem Lexeme.next_append_of_eq (more : List Char) {c : Char} {lexeme : Lexeme} {rest : List Char}
    (hnext : next c cs = (lexeme, rest))
    (hopen : ∀ what, lexeme = .unterminated what →
      (next c (cs ++ '<' :: more)).1 = .unterminated what) :
    next c (cs ++ '<' :: more) = (lexeme, rest ++ '<' :: more) := by
  rw [next_append fun what hwhat => hopen what (by rwa [hnext] at hwhat), hnext]

end Appending

namespace Lexing

/-- Whether text that is written behind markup is taken up by a construct that the markup leaves open:
by a tag or declaration that ends in it, or by the content of an element that holds no markup. -/
def takesUp (after : List Char) (foreign : Nat) : List Char → Bool
  | [] => false
  | c :: cs =>
    let lexeme := Lexeme.next c cs
    match lexeme.1 with
    | .text _ | .comment _ | .doctype _ => takesUp after foreign lexeme.2
    | .endTag name =>
      takesUp after ((Token.endTag (String.ofList name)).foreignAfter foreign) lexeme.2
    | .unterminated what =>
      (Lexeme.next c (cs ++ after)).1 != .unterminated what || takesUp after foreign lexeme.2
    | .startTag interior =>
      match StartTag.parse (String.ofList interior) with
      | .error _ => takesUp after foreign lexeme.2
      | .ok tag =>
        let foreign := (Token.startTag tag).foreignAfter foreign
        match modeOf foreign tag with
        | none => takesUp after foreign lexeme.2
        | some _ =>
          let tail := (breakAtEndTag tag.name.toList lexeme.2).2
          -- The end tag has to be there, with a character behind its name.
          decide (tail.length ≤ tag.name.toList.length + 2) || takesUp after foreign tail
termination_by s => s.length
decreasing_by
  all_goals
    have h := Lexeme.length_next c cs
    simp only [List.length_cons]
  any_goals omega
  exact Nat.lt_succ_of_le (Nat.le_trans (length_breakAtEndTag _ _) h)

/-- A last token. -/
def withLast (token : Token) (span : Span) (l : Lexing) : Lexing :=
  { l with tokens := l.tokens ++ [(token, span)] }

/-- Text that is one token, whatever stands before it. -/
def IsToken (after : List Char) (token : Token) : Prop :=
  ∀ start foreign, scan start foreign after =
    { tokens := [(token, ⟨start, start + byteSize after⟩)] }

section Places

variable {start : Nat} {c : Char} {cs rest : List Char}

theorem stop_append (start : Nat) (c : Char) (cs rest after : List Char) :
    start + (byteSize (c :: (cs ++ after)) - byteSize (rest ++ after)) =
      start + (byteSize (c :: cs) - byteSize rest) := by
  rw [← List.cons_append, byteSize_append, byteSize_append, Nat.add_sub_add_right]

theorem stop_add_rest {lexeme : Lexeme} (hnext : Lexeme.next c cs = (lexeme, rest)) :
    start + (byteSize (c :: cs) - byteSize rest) + byteSize rest = start + byteSize (c :: cs) := by
  have hle := Lexeme.byteSize_next c cs
  rw [hnext] at hle
  simp only at hle
  omega

end Places

theorem parseAt_of_parse {offset : Nat} {interior : List Char} {tag : StartTag}
    (h : StartTag.parse (String.ofList interior) = .ok tag) :
    StartTag.parseAt offset (String.ofList interior) = .ok tag := by
  rw [StartTag.parseAt, h]
  rfl

/-- A token that is not taken up is the last one; everything else is as without it. -/
theorem scan_append {more : List Char} {token : Token} (hafter : IsToken ('<' :: more) token)
    {foreign : Nat} {cs : List Char} : takesUp ('<' :: more) foreign cs = false → ∀ start,
    scan start foreign (cs ++ '<' :: more) =
      (scan start foreign cs).withLast token
        ⟨start + byteSize cs, start + byteSize cs + byteSize ('<' :: more)⟩ := by
  fun_induction Lexing.takesUp ('<' :: more) foreign cs with
  | case1 foreign =>
    intro _ start
    rw [List.nil_append, hafter, scan]
    rfl
  | case2 foreign c cs lexeme content hlexeme ih
  | case3 foreign c cs lexeme content hlexeme ih
  | case4 foreign c cs lexeme content hlexeme ih
  | case5 foreign c cs lexeme content hlexeme ih =>
    intro h start
    have hnext : Lexeme.next c cs = (_, lexeme.2) := Prod.ext hlexeme rfl
    have hmore := Lexeme.next_append_of_eq more hnext (by simp)
    rw [List.cons_append, scan_token hmore rfl, scan_token hnext rfl, stop_append, ← stop_add_rest hnext]
    exact congrArg (withToken _ _) (ih h _)
  | case6 foreign c cs lexeme what hlexeme ih =>
    intro h start
    have hnext : Lexeme.next c cs = (_, lexeme.2) := Prod.ext hlexeme rfl
    obtain ⟨hopen, hrest⟩ := Bool.or_eq_false_iff.1 h
    have hmore := Lexeme.next_append_of_eq more hnext (by simpa using hopen)
    rw [List.cons_append, scan_unterminated hmore, scan_unterminated hnext, stop_append,
      ← stop_add_rest hnext]
    exact congrArg (withErrors _) (ih hrest _)
  | case7 foreign c cs lexeme interior hlexeme errors hparse ih =>
    intro h start
    have hnext : Lexeme.next c cs = (_, lexeme.2) := Prod.ext hlexeme rfl
    have hmore := Lexeme.next_append_of_eq more hnext (by simp)
    rw [List.cons_append, scan_illegible hmore hparse, scan_illegible hnext hparse, stop_append,
      ← stop_add_rest hnext]
    exact congrArg (withErrors _) (ih h _)
  | case8 foreign c cs lexeme interior hlexeme tag hparse foreign' hmode ih =>
    intro h start
    have hnext : Lexeme.next c cs = (_, lexeme.2) := Prod.ext hlexeme rfl
    have hmore := Lexeme.next_append_of_eq more hnext (by simp)
    rw [List.cons_append, scan_startTag hmore (parseAt_of_parse hparse) hmode,
      scan_startTag hnext (parseAt_of_parse hparse) hmode, stop_append, ← stop_add_rest hnext]
    exact congrArg (withToken _ _) (ih h _)
  | case9 foreign c cs lexeme interior hlexeme tag hparse foreign' mode hmode tail ih =>
    intro h start
    have hnext : Lexeme.next c cs = (_, lexeme.2) := Prod.ext hlexeme rfl
    obtain ⟨hshort, hrest⟩ := Bool.or_eq_false_iff.1 h
    have hmore := Lexeme.next_append_of_eq more hnext (by simp)
    obtain ⟨content, hcontent⟩ : ∃ content,
        content = (breakAtEndTag tag.name.toList lexeme.2).1 := ⟨_, rfl⟩
    have hsplit : content ++ tail = lexeme.2 := hcontent ▸ append_breakAtEndTag _ _
    have hbreak : breakAtEndTag tag.name.toList (content ++ tail) = (content, tail) := by
      rw [hsplit, hcontent]
    have hlong := breakAtEndTag_append (by simpa using hshort) hbreak ('<' :: more)
    rw [← hsplit, List.append_assoc] at hmore
    rw [← hsplit] at hnext
    have hcut := stop_append start c cs (content ++ tail) ('<' :: more)
    have hsize : start + (byteSize (c :: cs) - byteSize (content ++ tail)) + byteSize content +
        byteSize tail = start + byteSize (c :: cs) := by
      rw [Nat.add_assoc _ (byteSize content), ← byteSize_append]
      exact stop_add_rest hnext
    rw [List.append_assoc] at hcut
    rw [List.cons_append, scan_content hmore (parseAt_of_parse hparse) hmode hlong,
      scan_content hnext (parseAt_of_parse hparse) hmode hbreak]
    simp only [hcut]
    rw [ih hrest, hsize]
    simp [withLast, foreign']

section Errors

variable {name content : List Char} {mode : TextMode}

/-- No end tag that ends raw content reaches into a tag that is written behind the content. -/
theorem breakAtEndTag_openEnd {after : List Char}
    (hname : ∀ c ∈ name.map Char.toLower, c.isLower = true)
    (hafter : breakAtEndTag name ('<' :: after) = ('<' :: after, []))
    (h : breakAtEndTag name content = (content, [])) :
    breakAtEndTag name (content ++ '<' :: after) = (content ++ '<' :: after, []) := by
  induction content with
  | nil => exact hafter
  | cons c content ih =>
    have hnot : ¬ IsCloser name (c :: content) := by
      intro hcloser
      rw [breakAtEndTag_closer hcloser] at h
      cases (Prod.mk.inj h).1
    have hnot' : ¬ IsCloser name (c :: (content ++ '<' :: after)) := by
      rintro ⟨more, he, hcloses⟩
      obtain ⟨rfl, htail⟩ := List.cons.inj he
      obtain ⟨n, rest, rfl, hn, hends⟩ := cut_of_closesElement hcloses
      match content with
      | [] => cases (List.cons.inj htail).1
      | d :: content =>
        obtain ⟨rfl, hsplit⟩ := List.cons.inj htail
        -- The name is not long enough to reach the `<`, and what ends it stands before the `<` too.
        rcases List.append_eq_append_iff.1 hsplit with ⟨n', rfl, hrest⟩ | ⟨rest', rfl, rfl⟩
        · match n' with
          | [] =>
            rw [List.append_nil] at hn
            exact hnot ⟨_, rfl, by simpa using closesElement_of hn (.inl rfl)⟩
          | d :: n' =>
            obtain ⟨rfl, -⟩ := List.cons.inj hrest
            have hmem : '<'.toLower ∈ name.map Char.toLower := by
              rw [← hn]
              exact List.mem_map_of_mem (by simp)
            exact absurd (hname _ hmem) (by decide)
        · refine hnot ⟨_, rfl, closesElement_of hn ?_⟩
          rcases rest' with _ | ⟨d, rest'⟩
          · exact .inl rfl
          · refine hends.imp (fun hnil => by cases hnil) fun ⟨e, more, he, hd⟩ => ?_
            obtain ⟨rfl, -⟩ := List.cons.inj he
            exact ⟨_, rest', rfl, hd⟩
    rw [breakAtEndTag_cons hnot] at h
    obtain ⟨hfirst, hrest⟩ := Prod.mk.inj h
    rw [List.cons_append, breakAtEndTag_cons hnot',
      ih (Prod.ext (List.cons.inj hfirst).2 hrest)]

theorem textMode_of_modeOf {foreign : Nat} {tag : StartTag} (h : modeOf foreign tag = some mode) :
    textMode (String.ofList tag.name.toList) = some mode := by
  rw [modeOf] at h
  split at h
  · cases h
  · rwa [String.ofList_toList]

/-- An end tag of which only the name is there is not closed. -/
theorem errors_of_short {start foreign : Nat} {tail : List Char}
    (hmode : textMode (String.ofList name) = some mode) (hcloser : IsCloser name tail)
    (hshort : tail.length ≤ name.length + 2) : (scan start foreign tail).errors ≠ [] := by
  obtain ⟨rest, rfl, hcloses⟩ := hcloser
  obtain ⟨n, rest, rfl, hn, -⟩ := cut_of_closesElement hcloses
  have hlength : n.length = name.length := by simpa using congrArg List.length hn
  have hlower := isLower_of_textMode hmode
  obtain rfl : rest = [] := by
    simp only [List.length_cons, List.length_append] at hshort
    exact List.eq_nil_of_length_eq_zero (by omega)
  match n with
  | [] => exact absurd (List.eq_nil_of_length_eq_zero hlength.symm) (ne_nil_of_textMode hmode)
  | c :: n =>
    have hletter {d : Char} (hd : d ∈ c :: n) : d.toLower.isLower = true :=
      hlower _ (hn ▸ List.mem_map_of_mem hd)
    have hopen : breakOn ['>'] n = none := by
      cases hbreak : breakOn ['>'] n with
      | none => rfl
      | some cut =>
        obtain ⟨before, after⟩ := cut
        have hmem : '>' ∈ n := by
          rw [← append_of_breakOn hbreak]
          simp
        exact absurd (hletter (List.mem_cons_of_mem c hmem)) (by decide)
    have hnext : Lexeme.next '<' ('/' :: (c :: n ++ [])) = (.unterminated .endTag, n) := by
      have hc := isAlpha_of_isLower_toLower (hletter List.mem_cons_self)
      rw [List.append_nil, Lexeme.next, if_pos rfl]
      simp only [Lexeme.afterOpen, if_pos hc, hopen]
    rw [scan_unterminated hnext]
    exact List.cons_ne_nil _ _

/-- A tag behind markup without errors brings none. -/
theorem errors_append {more : List Char} {token : Token} (hafter : IsToken ('<' :: more) token)
    (hraw : ∀ name mode, textMode (String.ofList name) = some mode →
      breakAtEndTag name ('<' :: more) = ('<' :: more, []))
    {foreign : Nat} {cs : List Char} : ∀ start, (scan start foreign cs).errors = [] →
      (scan start foreign (cs ++ '<' :: more)).errors = [] := by
  -- The induction is that of `takesUp`; what it decides is of no interest here.
  fun_induction Lexing.takesUp ('<' :: more) foreign cs with
  | case1 foreign =>
    intro start _
    rw [List.nil_append, hafter]
  | case2 foreign c cs lexeme content hlexeme ih
  | case3 foreign c cs lexeme content hlexeme ih
  | case4 foreign c cs lexeme content hlexeme ih
  | case5 foreign c cs lexeme content hlexeme ih =>
    intro start h
    have hnext : Lexeme.next c cs = (_, lexeme.2) := Prod.ext hlexeme rfl
    have hmore := Lexeme.next_append_of_eq more hnext (by simp)
    rw [scan_token hnext rfl] at h
    rw [List.cons_append, scan_token hmore rfl, stop_append]
    exact ih _ h
  | case6 foreign c cs lexeme what hlexeme ih =>
    intro start h
    have hnext : Lexeme.next c cs = (_, lexeme.2) := Prod.ext hlexeme rfl
    rw [scan_unterminated hnext] at h
    cases h
  | case7 foreign c cs lexeme interior hlexeme errors hparse ih =>
    intro start h
    have hnext : Lexeme.next c cs = (_, lexeme.2) := Prod.ext hlexeme rfl
    rw [scan_illegible hnext hparse] at h
    exact absurd (List.map_eq_nil_iff.1 (List.append_eq_nil_iff.1 h).1) (StartTag.parse_error hparse)
  | case8 foreign c cs lexeme interior hlexeme tag hparse foreign' hmode ih =>
    intro start h
    have hnext : Lexeme.next c cs = (_, lexeme.2) := Prod.ext hlexeme rfl
    have hmore := Lexeme.next_append_of_eq more hnext (by simp)
    rw [scan_startTag hnext (parseAt_of_parse hparse) hmode] at h
    rw [List.cons_append, scan_startTag hmore (parseAt_of_parse hparse) hmode, stop_append]
    exact ih _ h
  | case9 foreign c cs lexeme interior hlexeme tag hparse foreign' mode hmode tail ih =>
    intro start h
    have hnext : Lexeme.next c cs = (_, lexeme.2) := Prod.ext hlexeme rfl
    have hmore := Lexeme.next_append_of_eq more hnext (by simp)
    obtain ⟨content, hcontent⟩ : ∃ content,
        content = (breakAtEndTag tag.name.toList lexeme.2).1 := ⟨_, rfl⟩
    have hsplit : content ++ tail = lexeme.2 := hcontent ▸ append_breakAtEndTag _ _
    have hbreak : breakAtEndTag tag.name.toList (content ++ tail) = (content, tail) := by
      rw [hsplit, hcontent]
    rw [← hsplit, List.append_assoc] at hmore
    rw [← hsplit] at hnext
    rw [scan_content hnext (parseAt_of_parse hparse) hmode hbreak] at h
    rw [List.cons_append]
    have htext := textMode_of_modeOf hmode
    rcases closes_of_breakAtEndTag hbreak with hnil | hcloser
    · rw [hnil, List.append_nil] at hbreak
      rw [hnil, List.nil_append] at hmore
      have hlower := isLower_of_textMode htext
      rw [scan_content hmore (parseAt_of_parse hparse) hmode
        (breakAtEndTag_openEnd hlower (hraw _ _ htext) hbreak), scan]
    · by_cases hshort : tail.length ≤ tag.name.toList.length + 2
      · exact absurd h (errors_of_short htext hcloser hshort)
      · have hlong := breakAtEndTag_append (by omega) hbreak ('<' :: more)
        have hcut := stop_append start c cs (content ++ tail) ('<' :: more)
        rw [List.append_assoc] at hcut
        rw [scan_content hmore (parseAt_of_parse hparse) hmode hlong]
        simp only [hcut]
        exact ih _ h

end Errors

theorem toList_svgClose : svgClose.toList = '<' :: "/svg>".toList := rfl

/-- The wrapper's end tag is a token wherever it stands. -/
theorem isToken_svgClose : IsToken svgClose.toList (.endTag "svg") := by
  intro start foreign
  have hnext : Lexeme.next '<' "/svg>".toList = (.endTag "svg".toList, []) := by decide
  rw [toList_svgClose, scan_token hnext rfl, scan]
  rfl

/-- No content that is one text ends at it. -/
theorem breakAtEndTag_svgClose (name : List Char) (mode : TextMode)
    (h : textMode (String.ofList name) = some mode) :
    breakAtEndTag name svgClose.toList = (svgClose.toList, []) := by
  have hmem := mem_of_textMode h
  rw [toLower_ofList] at hmem
  have hcase : closesElement name "svg>".toList =
      closesElement (name.map Char.toLower) "svg>".toList := by
    simp [closesElement, sameLetters, Function.comp_def]
  have hnone : (["script", "style", "xmp", "iframe", "noembed", "noframes", "noscript"] ++
      ["textarea", "title"]).all (fun name => !closesElement name.toList "svg>".toList) = true := by
    decide
  have hcloses : closesElement name "svg>".toList = false := by
    have hall := List.all_eq_true.1 hnone _ hmem
    rwa [String.toList_ofList, ← hcase, Bool.not_eq_true'] at hall
  change breakAtEndTag name ('<' :: '/' :: "svg>".toList) = _
  rw [breakAtEndTag_cons]
  · rfl
  · rintro ⟨rest, he, hrest⟩
    obtain rfl := (List.cons.inj (List.cons.inj he).2).2
    rw [hcloses] at hrest
    cases hrest

end Lexing

/-- Whether SVG content leaves a construct open that takes up the end tag of the wrapper. -/
def takesUpWrapper (markup : String) : Bool :=
  Lexing.takesUp svgClose.toList 1 markup.toList

theorem build_endTag (tree : Tree) (root : NodeId) (tokens : List (Token × Span)) (name : String)
    (span : Span) :
    (build tree root (tokens ++ [(.endTag name, span)])).tree = (build tree root tokens).tree := by
  rw [build, List.foldl_append]
  change ((build tree root tokens).endElement name).tree = _
  rw [Builder.endElement]
  split <;> rfl

section Wrapped

variable {markup : String}

theorem ofMarkup_svgOpen (markup : String) : Lexing.ofMarkup (svgOpen ++ markup) =
    (Lexing.scan svgOpen.utf8ByteSize 1 markup.toList).withToken (.startTag ⟨"svg", [], false⟩)
      ⟨0, svgOpen.utf8ByteSize⟩ := by
  rw [Lexing.ofMarkup, String.toList_append, Lexing.scan_svgOpen]

/-- Behind markup that takes nothing up stands the wrapper's end tag. -/
theorem ofMarkup_wrapped (h : takesUpWrapper markup = false) :
    ∃ span, Lexing.ofMarkup (svgOpen ++ markup ++ svgClose) =
      (Lexing.ofMarkup (svgOpen ++ markup)).withLast (.endTag "svg") span := by
  have htoken := Lexing.isToken_svgClose
  rw [takesUpWrapper] at h
  rw [Lexing.toList_svgClose] at htoken h
  rw [ofMarkup_svgOpen, Lexing.ofMarkup, String.toList_append, String.toList_append,
    List.append_assoc, Lexing.scan_svgOpen, Lexing.toList_svgClose, Lexing.scan_append htoken h]
  exact ⟨_, rfl⟩

theorem errors_wrapped (h : (Lexing.ofMarkup (svgOpen ++ markup)).errors = []) :
    (Lexing.ofMarkup (svgOpen ++ markup ++ svgClose)).errors = [] := by
  have htoken := Lexing.isToken_svgClose
  have hraw := Lexing.breakAtEndTag_svgClose
  rw [Lexing.toList_svgClose] at htoken hraw
  rw [ofMarkup_svgOpen] at h
  rw [Lexing.ofMarkup, String.toList_append, String.toList_append, List.append_assoc,
    Lexing.scan_svgOpen, Lexing.toList_svgClose]
  exact Lexing.errors_append htoken hraw _ h

/-- The outcome is that of the markup behind the wrapper's start tag. -/
theorem parseFragment_wrapped (h : takesUpWrapper markup = false) :
    (parseFragment (svgOpen ++ markup ++ svgClose)).outcome =
      (parseFragment (svgOpen ++ markup)).outcome := by
  obtain ⟨span, hlexing⟩ := ofMarkup_wrapped h
  simp only [parseFragment, parseRooted, parseInto, hlexing, Lexing.withLast]
  split
  · simp only [build_endTag]
  · rfl

theorem parseFragment_ok :
    (∃ r, (parseFragment markup).outcome = .ok r) ↔ (Lexing.ofMarkup markup).errors = [] := by
  simp only [parseFragment, parseRooted, parseInto]
  split <;> simp_all [Except.map]

theorem parseFragment_error {errors : List SyntaxError} :
    (parseFragment markup).outcome = .error errors ↔
      (Lexing.ofMarkup markup).errors = errors ∧ errors ≠ [] := by
  simp only [parseFragment, parseRooted, parseInto]
  split
  · next hempty =>
    refine ⟨fun h => (by cases h), fun h => ?_⟩
    exact absurd (h.1 ▸ List.isEmpty_iff.1 hempty) h.2
  · next hne =>
    refine ⟨fun h => ?_, fun h => congrArg Except.error h.1⟩
    obtain rfl := Except.error.inj h
    exact ⟨rfl, mt List.isEmpty_iff.2 hne⟩

end Wrapped

/-- SVG content is read as if nothing stood behind it, if it leaves nothing open that takes up the end
tag of the wrapper: its nodes, or its errors and their places, are those of the content alone. Content
that is markup without errors is always accepted. -/
theorem parseSvgFragment_outcome (markup : String) :
    ((tokenize (svgOpen ++ markup)).isOk = true → (parseSvgFragment markup).outcome.isOk = true) ∧
    (takesUpWrapper markup = false →
      ((parseSvgFragment markup).outcome.isOk = true ↔
        (tokenize (svgOpen ++ markup)).isOk = true) ∧
      (∀ r, (parseSvgFragment markup).outcome = .ok r →
        ∃ wrapped, (parseFragment (svgOpen ++ markup)).outcome = .ok wrapped ∧
          r = wrapped.unwrapSvg) ∧
      ∀ errors, (parseSvgFragment markup).outcome = .error errors →
        tokenize (svgOpen ++ markup) = .error (errors.map (·.later svgOpen.utf8ByteSize)) ∧
        ∀ e ∈ errors, e.span.Within 0 markup.utf8ByteSize) := by
  have hparse : (parseSvgFragment markup).outcome =
      ((parseFragment (svgOpen ++ markup ++ svgClose)).outcome.map Rooted.unwrapSvg).mapError
        (·.map (·.earlier svgOpen.utf8ByteSize)) := rfl
  have htokens : (tokenize (svgOpen ++ markup)).isOk = true ↔
      (Lexing.ofMarkup (svgOpen ++ markup)).errors = [] := by
    rw [tokenize]
    split <;> simp_all [Except.isOk, Except.toBool]
  refine ⟨fun h => ?_, fun h => ?_⟩
  · obtain ⟨r, hr⟩ := parseFragment_ok.2 (errors_wrapped (htokens.1 h))
    rw [hparse, hr]
    rfl
  rw [htokens, hparse, parseFragment_wrapped h]
  cases hr : (parseFragment (svgOpen ++ markup)).outcome with
  | ok wrapped =>
    refine ⟨⟨fun _ => parseFragment_ok.1 ⟨wrapped, hr⟩, fun _ => rfl⟩, fun r hr' => ?_, nofun⟩
    exact ⟨wrapped, rfl, (Except.ok.inj hr').symm⟩
  | error errors =>
    obtain ⟨rfl, hne⟩ := parseFragment_error.1 hr
    refine ⟨⟨nofun, fun hnil => absurd hnil hne⟩, nofun, fun errors' herrors => ?_⟩
    obtain rfl := Except.error.inj herrors
    -- The first byte that is reported is behind the wrapper's start tag.
    have hwithin : ∀ e ∈ (Lexing.ofMarkup (svgOpen ++ markup)).errors,
        e.span.Within svgOpen.utf8ByteSize (svgOpen.utf8ByteSize + markup.utf8ByteSize) := by
      rw [ofMarkup_svgOpen, ← byteSize_toList markup]
      exact Lexing.within_scan
    refine ⟨?_, fun e he => ?_⟩
    · have hback : (Lexing.ofMarkup (svgOpen ++ markup)).errors.map
          ((·.later svgOpen.utf8ByteSize) ∘ (·.earlier svgOpen.utf8ByteSize)) =
          (Lexing.ofMarkup (svgOpen ++ markup)).errors.map id :=
        List.map_congr_left fun e he => (hwithin e he).later_earlier
      rw [List.map_map, hback, List.map_id, tokenize, if_neg (by simpa using hne)]
    · obtain ⟨e', he', rfl⟩ := List.mem_map.1 he
      exact ((hwithin e' he').earlier _).mono (Nat.zero_le _) (by omega)

/-- A group that is left open, and a comment that is. -/
theorem parseSvgFragment_outcome_open :
    ((parseSvgFragment "<g id=a><text>x</g><g>").outcome.isOk = true ∧
      ∃ wrapped, (parseFragment "<svg><g id=a><text>x</g><g>").outcome = .ok wrapped ∧
        (parseSvgFragment "<g id=a><text>x</g><g>").outcome = .ok wrapped.unwrapSvg) ∧
    ∃ errors, (parseSvgFragment "<circle/><!-- y").outcome = .error errors ∧
      ∀ e ∈ errors, e.span.Within 0 "<circle/><!-- y".utf8ByteSize := by
  have hdrawing := parseSvgFragment_outcome "<g id=a><text>x</g><g>"
  have hcomment := (parseSvgFragment_outcome "<circle/><!-- y").2 (by decide +kernel)
  have hok := hdrawing.1 (by decide +kernel)
  have hrefused : (parseSvgFragment "<circle/><!-- y").outcome.isOk = false := by decide +kernel
  refine ⟨⟨hok, ?_⟩, ?_⟩
  · cases hr : (parseSvgFragment "<g id=a><text>x</g><g>").outcome with
    | error errors =>
      rw [hr] at hok
      cases hok
    | ok r =>
      obtain ⟨wrapped, hwrapped, rfl⟩ := (hdrawing.2 (by decide +kernel)).2.1 r hr
      exact ⟨wrapped, hwrapped, rfl⟩
  · cases hr : (parseSvgFragment "<circle/><!-- y").outcome with
    | ok r =>
      rw [hr] at hrefused
      cases hrefused
    | error errors => exact ⟨errors, rfl, (hcomment.2.2 errors hr).2⟩

/-- The end tag of the wrapper ends a start tag, an end tag and a declaration that are left open, it
gets into the content of a script behind the wrapper, and into the place of an error. -/
theorem parseSvgFragment_takesUp :
    (∀ markup ∈ ["<p", "</p", "<!", "<?x"], (parseSvgFragment markup).outcome.isOk = true ∧
      (tokenize (svgOpen ++ markup)).isOk = false) ∧
    (parseSvgFragment "</svg><script>x").outcome.toOption.map
      (fun r => r.tree.textContent r.root) = some "x</svg>" ∧
    ∃ errors, (parseSvgFragment "<p \"").outcome = .error errors ∧
      ∃ e ∈ errors, ¬ e.span.Within 0 "<p \"".utf8ByteSize := by
  have hcontent : (parseSvgFragment "</svg><script>x").outcome.toOption.map
      (fun r => r.tree.textContent r.root) = some "x</svg>" := by
    cbv
  have hrefused : (parseSvgFragment "<p \"").outcome.isOk = false := by decide +kernel
  have hlong : ∀ e ∈ (Lexing.ofMarkup (svgOpen ++ "<p \"" ++ svgClose)).errors,
      "<p \"".utf8ByteSize < (e.earlier 5).span.stop := by decide +kernel
  refine ⟨by decide +kernel, hcontent, ?_⟩
  rw [parseSvgFragment] at hrefused ⊢
  cases hr : (parseFragment (svgOpen ++ "<p \"" ++ svgClose)).outcome with
  | ok r =>
    rw [hr] at hrefused
    cases hrefused
  | error errors =>
    obtain ⟨rfl, hne⟩ := parseFragment_error.1 hr
    obtain ⟨e, he⟩ := List.exists_mem_of_ne_nil _ hne
    exact ⟨_, rfl, _, List.mem_map_of_mem he, fun h => absurd h.le_stop (Nat.not_le.2 (hlong e he))⟩

end Markup

end LiveMarkup
