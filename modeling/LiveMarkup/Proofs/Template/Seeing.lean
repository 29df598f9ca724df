import LiveMarkup.Proofs.Template.Walking

set_option autoImplicit false

/-!
What the state of the scanner of holes says about the tokens of the markup. The scanner goes with the
tokens as long as it is never at one of three places where it goes another way.
-/

namespace LiveMarkup

open Markup
open Markup.TagPiece (valueSpan valueSpans)
open Text (byteSize isTagSpace)

namespace Hole

/-- What ends the name of an end tag. -/
def EndsName (cs : List Char) : Prop :=
  cs = [] ∨ Starts (fun c => isTagSpace c || c == '/' || c == '>') cs

theorem endsName_of_head? {cs : List Char}
    (h : cs.head?.all (fun c => isTagSpace c || c == '/' || c == '>') = true) : EndsName cs := by
  cases cs with
  | nil => exact .inl rfl
  | cons c cs => exact .inr ⟨c, cs, rfl, h⟩

namespace Walker

/-- Where the scanner goes another way than the tokens. -/
def astray (w : Walker) : List Char → Bool
  | [] => false
  | c :: rest =>
    match w.scanner.state, (w.step c).scanner.state with
    -- It takes `</` for an end tag that no letter follows.
    | .tagOpen, .endTag _ => !rest.head?.any Char.isAlpha
    -- It takes a longer name for the name of the element.
    | .rawText _ _, .endTag _ => !rest.head?.all fun c => isTagSpace c || c == '/' || c == '>'
    | .rawText _ _, _ => false
    -- It expects content though the start tag closes itself.
    | _, .rawText _ _ => w.scanner.selfClosing
    | _, _ => false

/-- Nowhere in what follows the scanner goes astray. -/
def Follows (w : Walker) (cs : List Char) : Prop :=
  Text.AtCuts cs fun p q => (w.walk p).astray q = false

instance (w : Walker) (cs : List Char) : Decidable (w.Follows cs) :=
  inferInstanceAs (Decidable (Text.AtCuts cs fun p q => (w.walk p).astray q = false))

variable {w : Walker} {u rest : List Char} {foreign : Nat}

theorem Follows.cut {cs : List Char} (h : w.Follows cs) (p q : List Char) (hpq : cs = p ++ q) :
    (w.walk p).astray q = false := h p q hpq

theorem Follows.after (h : w.Follows (u ++ rest)) : (w.walk u).Follows rest := by
  intro p q hpq
  rw [← walk_append]
  exact h (u ++ p) q (by rw [hpq, List.append_assoc])

/-- Between two tokens, in front of `rest`. -/
structure Outside (w : Walker) (foreign : Nat) (rest : List Char) : Prop where
  bang : w.bang = 0
  foreign : w.scanner.foreign = foreign
  state : w.scanner.state = .text ∨ w.scanner.state = .tagOpen ∧
    ¬ Starts (fun c => c == '!' || c == '?' || c == '/' || c.isAlpha) rest

/-- A `<` that opens nothing is forgotten. -/
theorem Outside.walk_eq {cs : List Char} (h : w.Outside foreign cs) (hcs : cs = u ++ rest)
    (hu : u ≠ []) : w.walk u = walk ⟨w.scanner.goto .text, 0⟩ u := by
  subst hcs
  obtain ⟨c, u, rfl⟩ := List.exists_cons_of_ne_nil hu
  obtain ⟨s, bang⟩ := w
  obtain rfl : bang = 0 := h.bang
  rw [walk_cons, walk_cons]
  congr 1
  rcases h.state with hs | ⟨hs, hc⟩
  · simp only at hs
    simp [Scanner.goto, ← hs]
  · simp only at hs
    have hplain : ¬ (c = '!' ∨ c = '?' ∨ c = '/' ∨ c.isAlpha = true) := fun h =>
      hc ⟨c, u ++ rest, rfl, by simpa [or_assoc] using h⟩
    simp only [not_or] at hplain
    obtain ⟨state, elements, tag, foreign, selfClosing⟩ := s
    obtain rfl : state = .tagOpen := hs
    by_cases hlt : c = '<'
    · simp [step, Scanner.step, Scanner.goto, hlt]
    · simp [step, Scanner.step, Scanner.goto, hlt, hplain]

theorem step_close (w : Walker) : w.step '>' = ⟨w.scanner.step '>', 0⟩ := by simp [step]

end Walker

namespace Scanner

open Walker

variable {s : Scanner} {cs p q : List Char} {start : Nat}

@[simp] theorem goto_state (s : Scanner) (state : State) : (s.goto state).state = state := rfl

@[simp] theorem goto_goto (s : Scanner) (state state' : State) :
    (s.goto state).goto state' = s.goto state' := rfl

/-- What the state of a scanner says about byte `o` of a text, in front of `rest`, when `k` start
tags were read before the tokens. -/
def Sees (text : List Char) (tokens : List (Token × Span)) (k o : Nat) (rest : List Char)
    (s : Scanner) : Prop :=
  match s.state with
  | .text | .tagOpen =>
    nodeMarker.toList <+: rest →
      (Token.comment marker, (⟨o, o + nodeMarker.utf8ByteSize⟩ : Span)) ∈ tokens
  | .comment _ => Inside Token.IsComment tokens o
  | .declaration => Inside Token.IsDeclaration tokens o
  | .endTag _ => Inside Token.IsEndTag tokens o
  | .rawText close seen =>
    (seen ≠ 0 → ¬ close.drop seen <+: rest.map Char.toLower) → InContent text tokens o
  | state =>
    ∃ i tag span, s.elements = k + i + 1 ∧ (startTags tokens)[i]? = some (tag, span) ∧
      span.start < o ∧ o < span.stop ∧ (∃ name pieces, tag.SpeltBy text span name pieces) ∧
      ∀ name pieces, tag.SpeltBy text span name pieces →
        state.Tells (valueSpans (span.start + byteSize ('<' :: name)) pieces) o rest

/-- More tokens, before and behind. -/
theorem Sees.append {text : List Char} {tokens : List (Token × Span)} {k o : Nat}
    {rest : List Char} (before after : List (Token × Span))
    (h : s.Sees text tokens (k + (startTags before).length) o rest) :
    s.Sees text (before ++ (tokens ++ after)) k o rest := by
  have hmem {t : Token × Span} (ht : t ∈ tokens) : t ∈ before ++ (tokens ++ after) := by simp [ht]
  have hinside {kind : Token → Prop} (h : Inside kind tokens o) :
      Inside kind (before ++ (tokens ++ after)) o := by
    obtain ⟨t, ht, hkind⟩ := h
    exact ⟨t, hmem ht, hkind⟩
  unfold Sees at h ⊢
  split at h
  · exact fun hp => hmem (h hp)
  · exact fun hp => hmem (h hp)
  · exact hinside h
  · exact hinside h
  · exact hinside h
  · intro hp
    obtain ⟨tag, span, stop, ht, hmode, hstop, hnext, hle⟩ := h hp
    exact ⟨tag, span, stop, hmem ht, hmode, hstop.imp_right fun ⟨content, hc⟩ => ⟨content, hmem hc⟩,
      hnext.imp_right fun ⟨t, ht, hend⟩ => ⟨t, hmem ht, hend⟩, hle⟩
  · obtain ⟨i, tag, span, helements, hi, hstart, hstop, hspelt⟩ := h
    refine ⟨(startTags before).length + i, tag, span, by omega, ?_, hstart, hstop, hspelt⟩
    have hlt := (List.getElem?_eq_some_iff.1 hi).1
    rw [startTags_append, startTags_append, List.getElem?_append_right (Nat.le_add_right _ _),
      Nat.add_sub_cancel_left, List.getElem?_append_left hlt, hi]

/-- From the beginning of a token the scanner sees it at every place inside, and counts it. -/
structure Crosses (s : Scanner) (text : List Char) (t : Token × Span) (u rest : List Char) : Prop
    where
  sees : ∀ p q, u = p ++ q → p ≠ [] → q ≠ [] →
    (walk ⟨s.goto .text, 0⟩ p).scanner.Sees text [t] s.elements (t.2.start + byteSize p) (q ++ rest)
  elements : (walk ⟨s.goto .text, 0⟩ u).scanner.elements =
    s.elements + (startTags [t]).length

end Scanner

end Hole

end LiveMarkup
