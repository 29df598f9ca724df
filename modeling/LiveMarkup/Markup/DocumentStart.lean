import LiveMarkup.Text.Ascii
import LiveMarkup.Text.Blank

set_option autoImplicit false

/-!
Telling a full document from a fragment by how its markup starts.
-/

namespace LiveMarkup.Markup

open LiveMarkup.Text

def startsWithLetters (letters s : List Char) : Bool :=
  sameLetters (s.take letters.length) letters

/-- Skips blanks and comments; there is no rest if a comment is never closed. -/
def skipComments (s : List Char) : Option (List Char) :=
  match _hs : trimStart s with
  | '<' :: '!' :: '-' :: '-' :: inside =>
    match _hb : breakOn ['-', '-', '>'] inside with
    | some (_, rest) => skipComments rest
    | none => none
  | rest => some rest
termination_by s.length
decreasing_by
  have h₁ := trimStart_length s
  have h₂ := length_after_of_breakOn _hb
  simp only [_hs, List.length_cons] at h₁
  omega

/-- Whether a tag name ends before the text. -/
def endsName : List Char → Bool
  | [] => true
  | c :: _ => isTagSpace c || c == '>' || c == '/'

/-- Whether, after blanks and comments, markup opens with a doctype or with an `html` tag. -/
def looksLikeDocument (markup : String) : Bool :=
  match skipComments markup.toList with
  | none => false
  | some s =>
    startsWithLetters ['<', '!', 'd', 'o', 'c', 't', 'y', 'p', 'e'] s ||
      (startsWithLetters ['<', 'h', 't', 'm', 'l'] s && endsName (s.drop 5))

end LiveMarkup.Markup
