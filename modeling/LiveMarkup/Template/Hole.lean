import LiveMarkup.Markup.Names
import LiveMarkup.Template.Strings
import LiveMarkup.Text.Ascii

set_option autoImplicit false

/-!
Where the holes of a template are. A small automaton walks the fragments and knows at each hole
whether it stands between nodes, in the value of an attribute, or where no value can go. The
fragments are joined to the markup that gets parsed: a hole between nodes becomes a comment, a hole
in a value becomes the bare marker, and any other hole leaves nothing.
-/

namespace LiveMarkup

open Markup (isForeignRoot textMode)
open Text (isTagSpace)

inductive Hole where
  /-- Between nodes. -/
  | node
  /-- In the value of the attribute `name` of a start tag, start tags being counted from 0. -/
  | attribute (element : Nat) (name : String)
  | closed (place : ClosedPlace)
  deriving DecidableEq, Repr

namespace Hole

inductive State where
  | text
  | tagOpen
  | tagName
  /-- An end tag, with its text so far. -/
  | endTag (text : List Char)
  | beforeName
  | name (name : List Char)
  | afterName (name : List Char)
  | beforeValue (name : List Char)
  | value (name : List Char) (quote : Option Char)
  | comment (dashes : Nat)
  | declaration
  /-- Content that is not markup, with the characters of its end tag and how many were just seen. -/
  | rawText (close : List Char) (seen : Nat)
  deriving DecidableEq, Repr

structure Scanner where
  state : State := .text
  /-- Start tags so far. -/
  elements : Nat := 0
  /-- The name of the current start tag, in lower case. -/
  tag : List Char := []
  /-- Open elements of foreign content. -/
  foreign : Nat
  /-- The last thing in the current start tag was a slash. -/
  selfClosing : Bool := false
  deriving DecidableEq, Repr

namespace Scanner

/-- At the end of a start tag. -/
def enterContent (s : Scanner) : Scanner :=
  let tag := String.ofList s.tag
  let opened := { s with selfClosing := false, state := .text }
  if isForeignRoot tag then
    if s.selfClosing then opened else { opened with foreign := s.foreign + 1 }
  else if s.foreign > 0 || (textMode tag).isNone then opened
  else { opened with state := .rawText ('<' :: '/' :: s.tag) 0 }

def goto (s : Scanner) (state : State) : Scanner := { s with state }

/-- At a slash in a start tag. -/
def slash (s : Scanner) : Scanner := { s with selfClosing := true, state := .beforeName }

def startTag (s : Scanner) (c : Char) : Scanner :=
  { s with elements := s.elements + 1, selfClosing := false, tag := [c.toLower], state := .tagName }

/-- At the end of an end tag whose text is given. -/
def leave (s : Scanner) (text : List Char) : Scanner :=
  let name := String.ofList (text.takeWhile fun c => !(isTagSpace c || c == '/'))
  { s with
    foreign := if isForeignRoot name then s.foreign - 1 else s.foreign
    state := .text }

def step (s : Scanner) (c : Char) : Scanner :=
  match s.state with
  | .text => if c = '<' then s.goto .tagOpen else s
  | .tagOpen =>
    if c = '!' ∨ c = '?' then s.goto .declaration
    else if c = '/' then s.goto (.endTag [])
    else if c = '<' then s
    else if c.isAlpha then s.startTag c
    else s.goto .text
  | .tagName =>
    if c = '>' then s.enterContent
    else if c = '/' then s.slash
    else if isTagSpace c then s.goto .beforeName
    else { s with tag := s.tag ++ [c.toLower] }
  | .endTag text => if c = '>' then s.leave text else s.goto (.endTag (text ++ [c]))
  | .beforeName =>
    if c = '>' then s.enterContent
    else if c = '/' then s.slash
    else if isTagSpace c then s
    else { s with selfClosing := false, state := .name [c] }
  | .name name =>
    if c = '>' then s.enterContent
    else if c = '=' then s.goto (.beforeValue name)
    else if c = '/' then s.slash
    else if isTagSpace c then s.goto (.afterName name)
    else s.goto (.name (name ++ [c]))
  | .afterName name =>
    if c = '>' then s.enterContent
    else if c = '=' then s.goto (.beforeValue name)
    else if c = '/' then s.slash
    else if isTagSpace c then s
    else s.goto (.name [c])
  | .beforeValue name =>
    if c = '>' then s.enterContent
    else if c = '"' ∨ c = '\'' then s.goto (.value name (some c))
    else if isTagSpace c then s
    else s.goto (.value name none)
  | .value _ (some quote) => if c = quote then s.goto .beforeName else s
  | .value _ none =>
    if c = '>' then s.enterContent
    else if isTagSpace c then s.goto .beforeName
    else s
  | .comment dashes =>
    if c = '-' then s.goto (.comment (dashes + 1))
    else if c = '>' ∧ 2 ≤ dashes then s.goto .text
    else s.goto (.comment 0)
  | .declaration => if c = '>' then s.goto .text else s
  | .rawText close seen =>
    if close[seen]? = some c.toLower then
      if seen + 1 = close.length then s.goto (.endTag []) else s.goto (.rawText close (seen + 1))
    else s.goto (.rawText close (if c = '<' then 1 else 0))

/-- Walks over a fragment. A comment opens only if its dashes are in the same fragment. -/
def feed (s : Scanner) : List Char → Scanner
  | [] => s
  | '!' :: '-' :: '-' :: rest =>
    if s.state = .tagOpen then (s.goto (.comment 0)).feed rest
    else (s.step '!').feed ('-' :: '-' :: rest)
  | c :: cs => (s.step c).feed cs

/-- The hole at the current position, what is put into the markup for it, and how to go on. -/
def hole (s : Scanner) : Hole × String × Scanner :=
  match s.state with
  | .text | .tagOpen => (.node, nodeMarker, s.goto .text)
  | .beforeValue name =>
    (.attribute (s.elements - 1) (String.ofList name), marker, s.goto (.value name none))
  | .value name _ => (.attribute (s.elements - 1) (String.ofList name), marker, s)
  | .rawText close _ => (.closed .rawText, "", s.goto (.rawText close 0))
  | .comment _ => (.closed .comment, "", s)
  | .declaration | .endTag _ => (.closed .declaration, "", s)
  | .tagName | .beforeName | .name _ | .afterName _ => (.closed .tag, "", s)

end Scanner

end Hole

/-- The markup of a template and its holes in order. -/
structure Scan where
  markup : String
  holes : List Hole
  deriving DecidableEq, Repr

namespace Scan

def ofFragments (s : Hole.Scanner) (first : String) : List String → Scan
  | [] => ⟨first, []⟩
  | next :: rest =>
    let (hole, written, s) := (s.feed first.toList).hole
    let tail := ofFragments s next rest
    ⟨first ++ written ++ tail.markup, hole :: tail.holes⟩

/-- Scans a template; SVG templates start inside foreign content. -/
def ofStrings (strings : TemplateStrings) (kind : TemplateKind) : Scan :=
  ofFragments { foreign := if kind = .svg then 1 else 0 } strings.first strings.rest

end Scan

end LiveMarkup
