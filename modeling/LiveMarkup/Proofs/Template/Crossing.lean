import LiveMarkup.Proofs.Markup.Lexed
import LiveMarkup.Proofs.Template.Seeing

set_option autoImplicit false

/-!
From the beginning of a token to its end, the scanner of holes sees the token that it is in.
-/

namespace LiveMarkup

open Markup
open Markup.TagPiece (valueSpan valueSpans)
open Text (byteSize isTagSpace breakOn)

namespace Hole

namespace Scanner

open Walker

variable {s : Scanner} {cs p q : List Char} {start : Nat}

/-- What is left of a comment behind `dashes` dashes does not end with the next characters. -/
structure Open (dashes : Nat) (cs : List Char) : Prop where
  one : 1 ≤ dashes → ¬ ['-', '>'] <+: cs
  two : 2 ≤ dashes → ¬ ['>'] <+: cs

theorem Open.zero (cs : List Char) : Open 0 cs := ⟨by simp, by simp⟩

/-- A comment, up to any place in it. -/
theorem walk_comment {dashes : Nat} {content rest : List Char}
    (hbreak : breakOn ['-', '-', '>'] cs = some (content, rest)) (hopen : Open dashes cs) :
    (∀ p q, content ++ ['-', '-', '>'] = p ++ q → q ≠ [] →
      ∃ d, walk ⟨s.goto (.comment dashes), 0⟩ p = ⟨s.goto (.comment d), 0⟩) ∧
    walk ⟨s.goto (.comment dashes), 0⟩ (content ++ ['-', '-', '>']) = ⟨s.goto .text, 0⟩ := by
  induction cs generalizing dashes content with
  | nil => cases hbreak
  | cons c cs ih =>
    rw [breakOn] at hbreak
    split at hbreak
    · obtain ⟨rfl, -⟩ := Prod.mk.inj (Option.some.inj hbreak)
      have hdash (d : Nat) (p : List Char) : walk ⟨s.goto (.comment d), 0⟩ ('-' :: p) =
          walk ⟨s.goto (.comment (d + 1)), 0⟩ p := rfl
      have hend (d : Nat) : walk ⟨s.goto (.comment (d + 2)), 0⟩ ['>'] = ⟨s.goto .text, 0⟩ := by
        simp [walk_cons, walk_nil, Walker.step, step, goto]
      refine ⟨fun p q hpq hq => ?_, by rw [List.nil_append, hdash, hdash, hend]⟩
      rcases p with _ | ⟨x, _ | ⟨y, _ | ⟨z, p⟩⟩⟩
      · exact ⟨dashes, rfl⟩
      · obtain ⟨rfl, -⟩ := List.cons.inj hpq
        exact ⟨dashes + 1, rfl⟩
      · obtain ⟨rfl, htail⟩ := List.cons.inj hpq
        obtain ⟨rfl, -⟩ := List.cons.inj htail
        exact ⟨dashes + 2, rfl⟩
      · have hnil : [] = p ++ q := (List.cons.inj (List.cons.inj (List.cons.inj hpq).2).2).2
        exact absurd (List.append_eq_nil_iff.1 hnil.symm).2 hq
    · next hc =>
      obtain ⟨⟨b, a⟩, hb, he⟩ := Option.map_eq_some_iff.1 hbreak
      obtain ⟨rfl, rfl⟩ := Prod.mk.inj he
      have hc : ¬ ['-', '-', '>'] <+: c :: cs := by simpa using hc
      -- A `>` does not end the comment here, by what is known of the dashes.
      obtain ⟨d, hstep, hopen'⟩ : ∃ d, (s.goto (.comment dashes)).step c = s.goto (.comment d) ∧
          Open d cs := by
        by_cases hdash : c = '-'
        · subst hdash
          refine ⟨dashes + 1, by simp [step, goto], fun _ h => hc ?_, fun hd h => ?_⟩
          · simpa using h
          · exact hopen.one (by omega) (by simpa using h)
        · refine ⟨0, ?_, .zero cs⟩
          have hgt : ¬ (c = '>' ∧ 2 ≤ dashes) := by
            rintro ⟨rfl, hd⟩
            exact hopen.two hd (by simp)
          simp only [step, goto, hdash, hgt, if_false]
      have hwalk (p : List Char) : walk ⟨s.goto (.comment dashes), 0⟩ (c :: p) =
          walk ⟨s.goto (.comment d), 0⟩ p := by
        rw [walk_cons, step_of_ne (by simp), hstep]
      obtain ⟨hcut, hend⟩ := ih hb hopen'
      refine ⟨fun p q hpq hq => ?_, by rw [List.cons_append, hwalk, hend]⟩
      cases p with
      | nil => exact ⟨dashes, rfl⟩
      | cons x p =>
        obtain ⟨rfl, hp⟩ := List.cons.inj hpq
        rw [hwalk]
        exact hcut p q hp hq

theorem walk_declaration (h : s.state = .declaration) (hcs : '>' ∉ cs) :
    walk ⟨s, 0⟩ cs = ⟨s, 0⟩ := by
  induction cs with
  | nil => rfl
  | cons c cs ih =>
    obtain ⟨hc, hcs⟩ := not_or.1 (mt List.mem_cons.2 hcs)
    rw [walk_cons, step_of_ne (by simp [h]), step_declaration h (Ne.symm hc), ih hcs]

theorem walk_endTag {text : List Char} (hcs : '>' ∉ cs) :
    walk ⟨s.goto (.endTag text), 0⟩ cs = ⟨s.goto (.endTag (text ++ cs)), 0⟩ := by
  induction cs generalizing text with
  | nil => simp [walk_nil]
  | cons c cs ih =>
    obtain ⟨hc, hcs⟩ := not_or.1 (mt List.mem_cons.2 hcs)
    have hstep : (s.goto (.endTag text)).step c = s.goto (.endTag (text ++ [c])) := by
      simp [step, goto, Ne.symm hc]
    rw [walk_cons, step_of_ne (by simp), hstep, ih hcs, List.append_assoc, List.singleton_append]

theorem not_prefix_of_ne {c : Char} (hc : c ≠ '<') : ¬ nodeMarker.toList <+: c :: cs := by
  intro h
  obtain ⟨rest, hrest⟩ := h
  have : '<' = c := (List.cons.inj (show '<' :: (nodeMarker.toList.tail ++ rest) = c :: cs from hrest)).1
  exact hc this.symm

theorem inside_of_cut {kind : Token → Prop} {t : Token} {u : List Char} (hkind : kind t)
    (hu : u = p ++ q) (hp : p ≠ []) (hq : q ≠ []) :
    Inside kind [(t, ⟨start, start + byteSize u⟩)] (start + byteSize p) := by
  have hp := Text.byteSize_pos hp
  have hq := Text.byteSize_pos hq
  refine ⟨_, List.mem_singleton_self _, hkind, ?_, ?_⟩
  · simp only
    omega
  · simp only [hu, Text.byteSize_append]
    omega

/-- Behind the `<` of a token. -/
theorem walk_lt (s : Scanner) (cs : List Char) :
    walk ⟨s.goto .text, 0⟩ ('<' :: cs) = walk ⟨s.goto .tagOpen, 0⟩ cs := rfl

variable {text u rest : List Char} {t : Token} {k o : Nat}

theorem walk_text (hcs : '<' ∉ cs) : walk ⟨s.goto .text, 0⟩ cs = ⟨s.goto .text, 0⟩ := by
  induction cs with
  | nil => rfl
  | cons c cs ih =>
    obtain ⟨hc, hcs⟩ := not_or.1 (mt List.mem_cons.2 hcs)
    have hstep : (s.goto .text).step c = s.goto .text := by simp [step, goto, Ne.symm hc]
    rw [walk_cons, step_of_ne (by simp), hstep, ih hcs]

theorem crosses_text {content : String} (hu : '<' ∉ u) :
    s.Crosses text (.text content, ⟨start, start + byteSize u⟩) u rest where
  sees p q hpq hp hq := by
    obtain ⟨c, q, rfl⟩ := List.exists_cons_of_ne_nil hq
    have hmem : c ∈ u := by simp [hpq]
    rw [walk_text fun h => hu (by simp [hpq, h])]
    intro hprefix
    exact absurd hprefix (not_prefix_of_ne fun h => hu (h ▸ hmem))
  elements := by rw [walk_text hu]; rfl

/-- A token that begins with a `<` and another character, which is no `<`. -/
theorem sees_construct {c : Char} {tail : List Char} {span : Span} (hc : c ≠ '<')
    (h : ∀ p q, tail = p ++ q → q ≠ [] → (walk ⟨s.goto .tagOpen, 0⟩ (c :: p)).scanner.Sees text
      [(t, span)] s.elements (span.start + byteSize ('<' :: c :: p)) (q ++ rest)) :
    ∀ p q, '<' :: c :: tail = p ++ q → p ≠ [] → q ≠ [] →
      (walk ⟨s.goto .text, 0⟩ p).scanner.Sees text [(t, span)] s.elements
        (span.start + byteSize p) (q ++ rest) := by
  intro p q hpq hp hq
  match p with
  | [x] =>
    obtain ⟨rfl, rfl⟩ := List.cons.inj hpq
    exact fun hprefix => absurd hprefix (not_prefix_of_ne hc)
  | x :: y :: p =>
    obtain ⟨rfl, htail⟩ := List.cons.inj hpq
    obtain ⟨rfl, hcut⟩ := List.cons.inj htail
    exact h p q hcut hq

/-- The beginning of a declaration. -/
theorem walk_mark (s : Scanner) {mark : Char} (hmark : mark = '!' ∨ mark = '?') (cs : List Char) :
    walk ⟨s.goto .tagOpen, 0⟩ (mark :: cs) =
      walk ⟨s.goto .declaration, if mark = '!' then 1 else 0⟩ cs := by
  rcases hmark with rfl | rfl <;> simp [walk_cons, Walker.step, step, goto]

theorem scanner_walk_declaration {mark : Char}
    (hmark : mark = '!' ∧ ¬ ['-', '-'] <+: cs ∨ mark = '?') (hcs : '>' ∉ cs) :
    (walk ⟨s.goto .tagOpen, 0⟩ (mark :: cs)).scanner = s.goto .declaration := by
  have hplain : walk ⟨s.goto .declaration, 0⟩ cs = ⟨s.goto .declaration, 0⟩ :=
    walk_declaration rfl hcs
  rw [walk_mark s (hmark.imp_left And.left)]
  rcases hmark with ⟨rfl, hdashes⟩ | rfl
  · rw [if_pos rfl, walk_bang rfl hdashes, hplain]
  · rw [if_neg (by decide), hplain]

theorem walk_whole_declaration {mark : Char} {body : List Char}
    (hmark : mark = '!' ∧ ¬ ['-', '-'] <+: body ∨ mark = '?') (hbody : '>' ∉ body) :
    walk ⟨s.goto .text, 0⟩ ('<' :: mark :: (body ++ ['>'])) = ⟨s.goto .text, 0⟩ := by
  rw [walk_lt, ← List.cons_append, walk_append, walk_cons, walk_nil, step_close,
    scanner_walk_declaration hmark hbody]
  rfl

theorem crosses_declaration {mark : Char} {body : List Char} (ht : t.IsDeclaration)
    (hmark : mark = '!' ∧ ¬ ['-', '-'] <+: body ∨ mark = '?') (hbody : '>' ∉ body) :
    s.Crosses text (t, ⟨start, start + byteSize ('<' :: mark :: (body ++ ['>']))⟩)
      ('<' :: mark :: (body ++ ['>'])) rest where
  sees := by
    refine sees_construct (by rcases hmark with ⟨rfl, -⟩ | rfl <;> decide) fun p q hpq hq => ?_
    obtain ⟨q', rfl, -⟩ := Text.exists_of_append_singleton hpq hq
    have hp : mark = '!' ∧ ¬ ['-', '-'] <+: p ∨ mark = '?' :=
      hmark.imp_left fun h => ⟨h.1, fun hp => h.2 (hp.trans (List.prefix_append p q'))⟩
    rw [scanner_walk_declaration hp fun h => hbody (List.mem_append_left _ h)]
    refine inside_of_cut (q := q) ht ?_ (List.cons_ne_nil _ _) hq
    rw [hpq]
    rfl
  elements := by
    rw [walk_whole_declaration hmark hbody]
    cases t with
    | comment | doctype => rfl
    | text | rawText | startTag | endTag => exact ht.elim

theorem walk_opener (s : Scanner) (cs : List Char) :
    walk ⟨s.goto .tagOpen, 0⟩ ('!' :: '-' :: '-' :: cs) = walk ⟨s.goto (.comment 0), 0⟩ cs := by
  simp [walk_cons, Walker.step, step, goto]

theorem walk_whole_comment {content : List Char}
    (hbreak : breakOn ['-', '-', '>'] (content ++ ['-', '-', '>'] ++ rest) = some (content, rest)) :
    walk ⟨s.goto .text, 0⟩ ('<' :: '!' :: '-' :: '-' :: (content ++ ['-', '-', '>'])) =
      ⟨s.goto .text, 0⟩ := by
  rw [walk_lt, walk_opener]
  exact (walk_comment hbreak (.zero _)).2

theorem crosses_comment {content : List Char}
    (hbreak : breakOn ['-', '-', '>'] (content ++ ['-', '-', '>'] ++ rest) = some (content, rest)) :
    s.Crosses text (.comment (String.ofList content), ⟨start, start +
        byteSize ('<' :: '!' :: '-' :: '-' :: (content ++ ['-', '-', '>']))⟩)
      ('<' :: '!' :: '-' :: '-' :: (content ++ ['-', '-', '>'])) rest where
  sees := by
    refine sees_construct (by decide) fun p q hpq hq => ?_
    have hinside (kind : Token → Prop) (hkind : kind (.comment (String.ofList content))) :
        Inside kind [(.comment (String.ofList content), ⟨start, start +
          byteSize ('<' :: '!' :: '-' :: '-' :: (content ++ ['-', '-', '>']))⟩)]
          (start + byteSize ('<' :: '!' :: p)) := by
      refine inside_of_cut (q := q) hkind ?_ (List.cons_ne_nil _ _) hq
      rw [hpq]
      rfl
    match p with
    | [] => exact hinside Token.IsDeclaration trivial
    | [x] =>
      obtain ⟨rfl, -⟩ := List.cons.inj hpq
      exact hinside Token.IsDeclaration trivial
    | x :: y :: p =>
      obtain ⟨rfl, htail⟩ := List.cons.inj hpq
      obtain ⟨rfl, hcut⟩ := List.cons.inj htail
      obtain ⟨d, hd⟩ := (walk_comment (s := s) hbreak (.zero _)).1 p q hcut hq
      rw [walk_opener, hd]
      exact hinside Token.IsComment trivial
  elements := by
    rw [walk_whole_comment hbreak]
    rfl

theorem walk_slash (hcs : '>' ∉ cs) :
    walk ⟨s.goto .tagOpen, 0⟩ ('/' :: cs) = ⟨s.goto (.endTag cs), 0⟩ := walk_endTag hcs

theorem not_mem_letter {c : Char} {body : List Char} (hc : c.isAlpha = true) (hbody : '>' ∉ body) :
    '>' ∉ c :: body := by
  rw [List.mem_cons, not_or]
  refine ⟨fun h => ?_, hbody⟩
  rw [← h] at hc
  cases hc

theorem crosses_endTag {name : String} {c : Char} {body : List Char} (hc : c.isAlpha = true)
    (hbody : '>' ∉ body) :
    s.Crosses text (.endTag name, ⟨start, start + byteSize ('<' :: '/' :: c :: (body ++ ['>']))⟩)
      ('<' :: '/' :: c :: (body ++ ['>'])) rest where
  sees := by
    refine sees_construct (by decide) fun p q hpq hq => ?_
    have hcut : (c :: body) ++ ['>'] = p ++ q := hpq
    obtain ⟨q', hinside, -⟩ := Text.exists_of_append_singleton hcut hq
    have hgt := not_mem_letter hc hbody
    rw [hinside] at hgt
    rw [walk_slash fun h => hgt (List.mem_append_left _ h)]
    have htag : (Token.endTag name).IsEndTag := trivial
    refine inside_of_cut (q := q) htag ?_ (List.cons_ne_nil _ _) hq
    rw [hpq]
    rfl
  elements := by
    rw [walk_lt, ← List.cons_append, ← List.cons_append, walk_append,
      walk_slash (not_mem_letter hc hbody)]
    rfl

theorem isTagSpace_of_isAlpha {c : Char} (hc : c.isAlpha = true) : isTagSpace c = false := by
  by_contra h
  simp only [isTagSpace, Bool.not_eq_false, Bool.or_eq_true, beq_iff_eq] at h
  rcases h with (((rfl | rfl) | rfl) | rfl) | rfl <;> cases hc

theorem takeWhile_eq_endTagName {c : Char} {body : List Char} (hc : c.isAlpha = true) :
    (c :: body).takeWhile (fun d => !(isTagSpace d || d == '/')) = endTagName c body := by
  have hslash : c ≠ '/' := fun h => by simp [h] at hc
  simp [endTagName, hslash, isTagSpace_of_isAlpha hc, bne]

/-- A name of letters, in front of what ends it. -/
theorem takeWhile_letters {n body : List Char} (hn : ∀ c ∈ n, c.isAlpha = true)
    (hbody : body = [] ∨ Starts (fun c => isTagSpace c || c == '/') body) :
    (n ++ body).takeWhile (fun d => !(isTagSpace d || d == '/')) = n := by
  rw [List.takeWhile_append_of_pos]
  · have hnil : body.takeWhile (fun d => !(isTagSpace d || d == '/')) = [] := by
      rcases hbody with rfl | ⟨c, body, rfl, hc⟩
      · rfl
      · have hc : (isTagSpace c || c == '/') = true := hc
        exact List.takeWhile_cons_of_neg (by rw [hc]; simp)
    rw [hnil, List.append_nil]
  · intro c hc
    have hslash : c ≠ '/' := fun h => by simpa [h] using hn c hc
    simp [isTagSpace_of_isAlpha (hn c hc), hslash]

/-- The whole of an end tag. -/
theorem walk_whole_endTag {c : Char} {body : List Char} (hc : c.isAlpha = true)
    (hbody : '>' ∉ body) :
    walk ⟨s.goto .text, 0⟩ ('<' :: '/' :: c :: (body ++ ['>'])) =
      ⟨{ s with
          foreign := (Token.endTag (String.ofList (endTagName c body))).foreignAfter s.foreign
          state := .text }, 0⟩ := by
  rw [walk_lt, ← List.cons_append, ← List.cons_append, walk_append,
    walk_slash (not_mem_letter hc hbody), walk_cons, walk_nil, step_close]
  simp only [step, goto, leave, takeWhile_eq_endTagName hc]
  rfl

/-- A scanner that has read the name of a start tag. -/
def opened (s : Scanner) (name : List Char) : Scanner :=
  { s with elements := s.elements + 1, tag := name.map Char.toLower }

theorem walk_tagName {c : Char} {name : List Char} (hc : c.isAlpha = true)
    (hname : ∀ d ∈ name, isWordChar d = true) :
    walk ⟨s.goto .tagOpen, 0⟩ (c :: name) = ⟨(s.opened (c :: name)).inTag .tagName false, 0⟩ := by
  have hrest (n m : List Char) (hm : ∀ d ∈ m, isWordChar d = true) :
      walk ⟨(s.opened n).inTag .tagName false, 0⟩ m =
        ⟨(s.opened (n ++ m)).inTag .tagName false, 0⟩ := by
    induction m generalizing n with
    | nil => simp [walk_nil]
    | cons d m ih =>
      have hd := isWordChar_ne (hm d List.mem_cons_self)
      have hstep : ((s.opened n).inTag .tagName false).step d =
          (s.opened (n ++ [d])).inTag .tagName false := by
        simp [step, inTag, opened, hd]
      rw [walk_cons, step_of_ne (by simp [inTag]), hstep,
        ih _ fun e he => hm e (List.mem_cons_of_mem _ he), List.append_assoc,
        List.singleton_append]
  have hne : c ≠ '!' ∧ c ≠ '?' ∧ c ≠ '/' ∧ c ≠ '<' := by
    refine ⟨?_, ?_, ?_, ?_⟩ <;> (rintro rfl; cases hc)
  have hopen : Walker.step ⟨s.goto .tagOpen, 0⟩ c = ⟨(s.opened [c]).inTag .tagName false, 0⟩ := by
    simp [Walker.step, step, goto, startTag, opened, inTag, hc, hne]
  rw [walk_cons, hopen]
  exact hrest [c] name hname

/-- What a state of a start tag says is what the scanner sees. -/
theorem sees_of_tells {name pieces} {state : State} {b : Bool} {tag : StartTag} {span : Span}
    {n : List Char} (hstart : span.start < o) (hstop : o < span.stop)
    (hspelt : tag.SpeltBy text span name pieces)
    (h : ∀ name pieces, tag.SpeltBy text span name pieces →
      state.Tells (valueSpans (span.start + byteSize ('<' :: name)) pieces) o rest) :
    ((s.opened n).inTag state b).Sees text [(.startTag tag, span)] s.elements o rest := by
  have htells := h _ _ hspelt
  have hsees : ∃ i tag' span', s.elements + 1 = s.elements + i + 1 ∧
      (startTags [(.startTag tag, span)])[i]? = some (tag', span') ∧
      span'.start < o ∧ o < span'.stop ∧ (∃ name pieces, tag'.SpeltBy text span' name pieces) ∧
      ∀ name pieces, tag'.SpeltBy text span' name pieces →
        state.Tells (valueSpans (span'.start + byteSize ('<' :: name)) pieces) o rest :=
    ⟨0, tag, span, rfl, rfl, hstart, hstop, ⟨_, _, hspelt⟩, h⟩
  match state with
  | .tagName | .beforeName | .name _ | .afterName _ | .beforeValue _ | .value _ _ => exact hsees
  | .text | .tagOpen | .endTag _ | .comment _ | .declaration | .rawText _ _ => exact htells.elim

section StartTag

variable {name interior pre : List Char} {pieces : List TagPiece}

theorem walk_interior (hname : IsWord name) (halpha : Starts Char.isAlpha name) (cs : List Char) :
    walk ⟨s.goto .tagOpen, 0⟩ (name ++ cs) = (s.opened name).walkTag .tagName false cs := by
  obtain ⟨c, name, rfl, hc⟩ := halpha
  rw [walk_append, walk_tagName hc fun d hd => hname.2 d (List.mem_cons_of_mem _ hd), walkTag]

theorem walk_whole_startTag (hname : IsWord name) (halpha : Starts Char.isAlpha name)
    (hstop : ¬ Starts isWordChar interior) (hpieces : Spells pieces interior) :
    ∃ state : State, state.Ready (StartTag.ofPieces name pieces).selfClosing [] ∧
      walk ⟨s.goto .text, 0⟩ ('<' :: (name ++ interior)) =
        ⟨(s.opened name).inTag state (StartTag.ofPieces name pieces).selfClosing, 0⟩ ∧
      walk ⟨s.goto .text, 0⟩ ('<' :: (name ++ interior ++ ['>'])) =
        ⟨((s.opened name).inTag .text (StartTag.ofPieces name pieces).selfClosing).enterContent,
          0⟩ := by
  have hready : State.tagName.Ready false interior := hstop
  obtain ⟨state, b, hwalk, -, hend⟩ :=
    walkTag_pieces (s := s.opened name) hpieces hready 0 (List.append_nil interior).symm
  obtain ⟨hclosed, hb⟩ := hend rfl
  rw [← TagItem.closes_eq_foldl] at hb
  obtain rfl : b = (StartTag.ofPieces name pieces).selfClosing := hb
  have hinside := (walk_interior (s := s) hname halpha interior).trans hwalk
  refine ⟨state, hclosed, hinside, ?_⟩
  rw [walk_lt, walk_append, hinside, walk_cons, walk_nil, step_close]
  match state with
  | .tagName | .beforeName | .name _ | .afterName _ | .value _ none => rfl
  | .text | .tagOpen | .endTag _ | .beforeValue _ | .value _ (some _) | .comment _
  | .declaration | .rawText _ _ => exact hclosed.elim

theorem crosses_startTag (hname : IsWord name) (halpha : Starts Char.isAlpha name)
    (hstop : ¬ Starts isWordChar interior) (hpieces : Spells pieces interior)
    (htext : text = pre ++ ('<' :: (name ++ interior ++ ['>']) ++ rest)) :
    s.Crosses text (.startTag (.ofPieces name pieces), ⟨byteSize pre,
        byteSize pre + byteSize ('<' :: (name ++ interior ++ ['>']))⟩)
      ('<' :: (name ++ interior ++ ['>'])) rest where
  sees := by
    have hspelt : (StartTag.ofPieces name pieces).SpeltBy text ⟨byteSize pre,
        byteSize pre + byteSize ('<' :: (name ++ interior ++ ['>']))⟩ name pieces :=
      ⟨pre, interior, rest, htext, rfl, hname, hstop, hpieces, rfl⟩
    obtain ⟨c, name, rfl, hc⟩ := halpha
    refine sees_construct (fun h => by rw [h] at hc; cases hc) fun p q hpq hq => ?_
    have hcut : (c :: name) ++ interior ++ ['>'] = (c :: p) ++ q := congrArg (c :: ·) hpq
    have hsize := congrArg byteSize hcut
    have hqpos := Text.byteSize_pos hq
    obtain ⟨q', hinside, rfl⟩ := Text.exists_of_append_singleton hcut hq
    have hlt : byteSize pre < byteSize pre + byteSize ('<' :: c :: p) :=
      Nat.lt_add_of_pos_right (Text.byteSize_pos (List.cons_ne_nil _ _))
    have hgt : byteSize pre + byteSize ('<' :: c :: p) <
        byteSize pre + byteSize ('<' :: (c :: name ++ interior ++ ['>'])) := by
      rw [Text.byteSize_cons, Text.byteSize_cons '<', hcut, Text.byteSize_append]
      omega
    rcases Text.cut_cases hinside with ⟨n, hn, rfl⟩ | ⟨d, hd, hp, rfl⟩
    · -- In the name all values are still to come.
      obtain rfl : name = p ++ n := (List.cons.inj hn).2
      rw [walk_tagName hc fun d hd => hname.2 d (by simp [hd])]
      refine sees_of_tells hlt hgt hspelt fun name' pieces' h v hv => .inl ?_
      obtain ⟨rfl, -⟩ := (htext ▸ h).spells hname hstop
      have := TagPiece.start_lt_of_mem hv
      simp only [Text.byteSize_cons, Text.byteSize_append] at this ⊢
      omega
    · rw [hp] at hlt hgt
      rw [hp, walk_interior hname ⟨c, name, rfl, hc⟩]
      have hready : State.tagName.Ready false (d ++ q') := hstop
      have hword : ¬ Starts isWordChar (['>'] ++ rest) := by
        rintro ⟨x, xs, hx, hword⟩
        obtain ⟨rfl, -⟩ := List.cons.inj hx
        cases hword
      have hpass (pieces' : List TagPiece) (hpieces' : Spells pieces' (d ++ q')) :=
        walkTag_pieces (s := s.opened (c :: name)) hpieces' hready
          (byteSize pre + byteSize ('<' :: c :: name)) rfl
      obtain ⟨state, b, hwalk, -⟩ := hpass pieces hpieces
      have hplace : byteSize pre + byteSize ('<' :: (c :: name ++ d)) =
          byteSize pre + byteSize ('<' :: c :: name) + byteSize d := by
        simp only [Text.byteSize_cons, Text.byteSize_append]
        omega
      rw [hwalk]
      refine sees_of_tells hlt hgt hspelt fun name' pieces' h => ?_
      obtain ⟨rfl, hpieces'⟩ := (htext ▸ h).spells hname hstop
      -- Other pieces that spell the tag lead to the same state.
      obtain ⟨state', b', hwalk', htells, -⟩ := hpass pieces' hpieces'
      obtain rfl : state = state' := congrArg (·.scanner.state) (hwalk.symm.trans hwalk')
      have hextended := State.Tells.extend htells hword
      rwa [← hplace, ← List.append_assoc] at hextended
  elements := by
    obtain ⟨state, -, -, hwalk⟩ := walk_whole_startTag (s := s) hname halpha hstop hpieces
    rw [hwalk]
    simp only [enterContent]
    split
    · split <;> rfl
    · split <;> rfl

end StartTag

end Scanner

end Hole

end LiveMarkup
