import LiveMarkup.Markup.Lexeme
import LiveMarkup.Markup.Names
import LiveMarkup.Markup.StartTag

set_option autoImplicit false

/-!
Tokens: markup ready for building a tree. Start tags are read, character references are decoded,
and the content of elements that hold no markup is one token. Such elements exist only outside
foreign content, which is counted by its start and end tags. All errors are collected.
-/

namespace LiveMarkup.Markup

open LiveMarkup.Text

inductive Token where
  /-- Text with its character references decoded. -/
  | text (content : String)
  /-- The content of the element `element`, which is not markup. -/
  | rawText (element content : String)
  | startTag (tag : StartTag)
  | endTag (name : String)
  | comment (content : String)
  | doctype (name : String)
  deriving DecidableEq, Repr

/-- Whether `</` is followed by the end of an end tag's name that closes `name`. -/
def closesElement (name afterSlash : List Char) : Bool :=
  sameLetters (afterSlash.take name.length) name &&
    match afterSlash.drop name.length with
    | [] => true
    | c :: _ => isTagSpace c || c == '/' || c == '>'

/-- The content of an element without markup, and the text from its end tag on. -/
def breakAtEndTag (name : List Char) : List Char → List Char × List Char
  | [] => ([], [])
  | c :: cs =>
    if c == '<' && cs.head? == some '/' && closesElement name cs.tail then ([], c :: cs)
    else
      let broken := breakAtEndTag name cs
      (c :: broken.1, broken.2)

theorem append_breakAtEndTag (name s : List Char) :
    (breakAtEndTag name s).1 ++ (breakAtEndTag name s).2 = s := by
  induction s with
  | nil => rfl
  | cons c cs ih =>
    unfold breakAtEndTag
    split <;> simp [ih]

theorem length_breakAtEndTag (name s : List Char) :
    (breakAtEndTag name s).2.length ≤ s.length := by
  have := congrArg List.length (append_breakAtEndTag name s)
  simp only [List.length_append] at this
  omega

/-- What scanning found: the tokens with their places, and everything that is wrong. -/
structure Lexing where
  tokens : List (Token × Span) := []
  errors : List SyntaxError := []
  deriving DecidableEq, Repr

namespace Lexing

def withToken (token : Token) (span : Span) (l : Lexing) : Lexing :=
  { l with tokens := (token, span) :: l.tokens }

def withErrors (errors : List SyntaxError) (l : Lexing) : Lexing :=
  { l with errors := errors ++ l.errors }

/-- The text mode of an element that has just been opened. -/
def modeOf (foreign : Nat) (tag : StartTag) : Option TextMode :=
  if tag.selfClosing || foreign != 0 then none else textMode tag.name

def contentOf (mode : TextMode) (content : List Char) : String :=
  match mode with
  | .raw => String.ofList content
  | .escapable => CharacterReference.decode (String.ofList content)

/-- Scans markup from byte `start` on, inside `foreign` open elements of foreign content. -/
def scan (start foreign : Nat) : List Char → Lexing
  | [] => {}
  | c :: cs =>
    let lexeme := Lexeme.next c cs
    let rest := lexeme.2
    let stop := start + (byteSize (c :: cs) - byteSize rest)
    let span : Span := ⟨start, stop⟩
    match lexeme.1 with
    | .text content =>
      (scan stop foreign rest).withToken
        (.text (CharacterReference.decode (String.ofList content))) span
    | .comment content => (scan stop foreign rest).withToken (.comment (String.ofList content)) span
    | .doctype name => (scan stop foreign rest).withToken (.doctype (String.ofList name)) span
    | .endTag name =>
      let name := String.ofList name
      (scan stop (if isForeignRoot name then foreign - 1 else foreign) rest).withToken
        (.endTag name) span
    | .unterminated what => (scan stop foreign rest).withErrors [⟨span, .unterminated what⟩]
    | .startTag interior =>
      match StartTag.parseAt (start + 1) (String.ofList interior) with
      | .error errors => (scan stop foreign rest).withErrors errors
      | .ok tag =>
        let foreign := if isForeignRoot tag.name && !tag.selfClosing then foreign + 1 else foreign
        match modeOf foreign tag with
        | none => (scan stop foreign rest).withToken (.startTag tag) span
        | some mode =>
          let broken := breakAtEndTag tag.name.toList rest
          let after := stop + byteSize broken.1
          let tail := scan after foreign broken.2
          let tail :=
            if broken.1.isEmpty then tail
            else tail.withToken (.rawText tag.name (contentOf mode broken.1)) ⟨stop, after⟩
          tail.withToken (.startTag tag) span
termination_by s => s.length
decreasing_by
  all_goals
    have h := Lexeme.length_next c cs
    simp only [List.length_cons]
  any_goals omega
  exact Nat.lt_succ_of_le (Nat.le_trans (length_breakAtEndTag _ _) h)

def ofMarkup (markup : String) : Lexing := scan 0 0 markup.toList

end Lexing

/-- The tokens of markup, or every error in it. -/
def tokenize (markup : String) : Except (List SyntaxError) (List (Token × Span)) :=
  let lexing := Lexing.ofMarkup markup
  if lexing.errors.isEmpty then .ok lexing.tokens else .error lexing.errors

end LiveMarkup.Markup
