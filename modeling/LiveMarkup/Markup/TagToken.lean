import LiveMarkup.Markup.Span
import LiveMarkup.Text.Ascii

set_option autoImplicit false

/-!
The inside of a start tag, cut into tokens. A quoted value runs to the next quote of its kind; if
there is none it takes the rest of the tag with it. A word is whatever holds no blank, quote, `=`,
`/` or `>`.
-/

namespace LiveMarkup.Markup

inductive TagToken where
  /-- A run of blanks. -/
  | space
  | equals
  | slash
  /-- The text between two quotes. -/
  | quoted (value : String)
  | word (text : String)
  deriving DecidableEq, Repr

/-- A piece of a tag: a token, or something that is none. -/
inductive TagLexeme where
  | token (token : TagToken)
  /-- A quote that nothing closes. -/
  | openQuote
  /-- A character that no token starts with, which is `>`. -/
  | stray
  deriving DecidableEq, Repr

def isWordChar (c : Char) : Bool :=
  !(Text.isTagSpace c || c == '"' || c == '\'' || c == '=' || c == '/' || c == '>')

/-- The piece that starts with `c`, and the text after it. -/
def TagLexeme.next (c : Char) (cs : List Char) : TagLexeme × List Char :=
  if Text.isTagSpace c then (.token .space, cs.dropWhile Text.isTagSpace)
  else if c = '=' then (.token .equals, cs)
  else if c = '/' then (.token .slash, cs)
  else if c = '"' ∨ c = '\'' then
    match Text.breakOn [c] cs with
    | some (value, rest) => (.token (.quoted (String.ofList value)), rest)
    | none => (.openQuote, [])
  else if c = '>' then (.stray, cs)
  else (.token (.word (String.ofList (c :: cs.takeWhile isWordChar))), cs.dropWhile isWordChar)

theorem TagLexeme.length_next (c : Char) (cs : List Char) :
    (TagLexeme.next c cs).2.length ≤ cs.length := by
  unfold TagLexeme.next
  have hd (p : Char → Bool) : (cs.dropWhile p).length ≤ cs.length :=
    (List.dropWhile_suffix p).length_le
  split
  · exact hd _
  split
  · exact Nat.le_refl _
  split
  · exact Nat.le_refl _
  split
  · split
    · rename_i h
      exact Text.length_after_of_breakOn h
    · exact Nat.zero_le _
  split
  · exact Nat.le_refl _
  · exact hd _

/-- The pieces of a tag whose text starts at byte `start`. -/
def TagLexeme.scan (start : Nat) : List Char → List (TagLexeme × Span)
  | [] => []
  | c :: cs =>
    let piece := TagLexeme.next c cs
    let stop := start + (Text.byteSize (c :: cs) - Text.byteSize piece.2)
    (piece.1, ⟨start, stop⟩) :: TagLexeme.scan stop piece.2
termination_by s => s.length
decreasing_by
  have := TagLexeme.length_next c cs
  simp only [List.length_cons]
  omega

/-- The pieces of a tag, with positions relative to its beginning. -/
def TagLexeme.ofInterior (interior : String) : List (TagLexeme × Span) :=
  TagLexeme.scan 0 interior.toList

end LiveMarkup.Markup
