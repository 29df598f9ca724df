import LiveMarkup.Markup.TagToken

set_option autoImplicit false

/-!
What can be wrong with markup, where, and in which words it is reported.
-/

namespace LiveMarkup.Markup

/-- Constructs that have to be closed. -/
inductive Construct where
  | comment
  | declaration
  | endTag
  | startTag
  | quotedValue
  deriving DecidableEq, Repr

def Construct.name : Construct → String
  | .comment => "comment"
  | .declaration => "declaration"
  | .endTag => "end tag"
  | .startTag => "start tag"
  | .quotedValue => "quoted value"

/-- What could have stood in a start tag instead. -/
inductive Expectation where
  | space
  | equals
  | slash
  | endOfTag
  deriving DecidableEq, Repr

def TagToken.describe : TagToken → String
  | .space => "whitespace"
  | .equals => "'='"
  | .slash => "'/'"
  | .quoted value => "quoted value \"" ++ value ++ "\""
  | .word text => "name '" ++ text ++ "'"

def Expectation.describe : Expectation → String
  | .space => TagToken.space.describe
  | .equals => TagToken.equals.describe
  | .slash => TagToken.slash.describe
  | .endOfTag => "end of tag"

/-- Why markup is refused. -/
inductive Fault where
  | unterminated (what : Construct)
  | strayCharacter
  /-- A token, or the end of the tag, where the grammar of start tags has no use for it. -/
  | unexpected (found : Option TagToken) (expected : List Expectation)
  deriving DecidableEq, Repr

def Fault.message : Fault → String
  | .unterminated what => "Unterminated " ++ what.name
  | .strayCharacter => "Unexpected character"
  | .unexpected found _ =>
    "Unexpected " ++ (found.elim Expectation.endOfTag.describe TagToken.describe) ++ " in tag"

def Fault.expected : Fault → List Expectation
  | .unexpected _ expected => expected
  | _ => []

/-- A fault at its place. -/
structure SyntaxError where
  span : Span
  fault : Fault
  deriving DecidableEq, Repr

namespace SyntaxError

def later (e : SyntaxError) (bytes : Nat) : SyntaxError := { e with span := e.span.later bytes }

def earlier (e : SyntaxError) (bytes : Nat) : SyntaxError :=
  { e with span := e.span.earlier bytes }

def message (e : SyntaxError) : String := e.fault.message

/-- What was expected instead, in words. -/
def expected (e : SyntaxError) : List String := e.fault.expected.map Expectation.describe

/-- The error in one line. -/
def text (e : SyntaxError) : String :=
  "Parse error at " ++ toString e.span.start ++ ".." ++ toString e.span.stop ++ ": " ++ e.message

end SyntaxError

end LiveMarkup.Markup
