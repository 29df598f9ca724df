import LiveMarkup.Markup.Error
import LiveMarkup.Text.Columns

set_option autoImplicit false

/-!
A syntax error shown in its markup: a heading, the place, and the lines it touches with the faulty
text underlined or, if it spans lines, bracketed in the margin. Places are counted in characters
here; an error whose place lies beyond the text shows its heading only.
-/

namespace LiveMarkup.Markup.Report

open LiveMarkup.Text

/-- A line of the source with its terminator, and the number of characters before it. -/
structure Line where
  start : Nat
  chars : List Char
  deriving Repr

namespace Line

def stop (l : Line) : Nat := l.start + l.chars.length

def holds (l : Line) (place : Nat) : Bool := l.start ≤ place && place < l.stop

/-- The line as it is shown. -/
def shown (l : Line) : List Char := trimEnd l.chars

end Line

/-- Line feed, carriage return, vertical tab, form feed, next line, line and paragraph separator. -/
def endsLine (c : Char) : Bool :=
  c == '\n' || c == '\r' || c == '\x0b' || c == '\x0c' || c == '\u0085' || c == '\u2028' ||
    c == '\u2029'

/-- Cuts text after each line end; a carriage return and the line feed after it are one. -/
def cut : List Char → List (List Char)
  | [] => []
  | '\r' :: '\n' :: s => ['\r', '\n'] :: cut s
  | c :: s =>
    if endsLine c then [c] :: cut s
    else
      match cut s with
      | [] => [[c]]
      | l :: ls => (c :: l) :: ls

def place (start : Nat) : List (List Char) → List Line
  | [] => []
  | l :: ls => ⟨start, l⟩ :: place (start + l.length) ls

/-- The lines of a source; an empty one has an empty line. -/
def linesOf (source : String) : List Line :=
  match cut source.toList with
  | [] => [⟨0, []⟩]
  | ls => place 0 ls

/-- The index of the line in which a place lies; the end of the text belongs to the last one. -/
def lineIndex (lines : List Line) (at_ : Nat) : Option Nat :=
  if at_ ≤ lines.foldr (fun l length => l.chars.length + length) 0 then
    some ((lines.takeWhile (·.start ≤ at_)).length - 1)
  else none

/-- What a report draws: the marked places, the message, and how wide line numbers are. -/
structure Sketch where
  span : Span
  multiline : Bool
  message : String
  numberWidth : Nat

namespace Sketch

/-- The last marked place. -/
def last (s : Sketch) : Nat := max (s.span.stop - 1) s.span.start

/-- The parts of the margin beside a line. -/
inductive Row where
  /-- The line itself, with its number. -/
  | line
  /-- A stretch of lines that is left out. -/
  | gap
  /-- The mark below the line, first its stems and then its arrow. -/
  | stems
  | arrow
  deriving DecidableEq

/-- Line number and bar. -/
def numberMargin (s : Sketch) (index : Nat) (row : Row) : List Char :=
  let blank := List.replicate (s.numberWidth + 1) ' '
  let number := (toString (index + 1)).toList
  ' ' :: (match row with
    | .line => List.replicate (s.numberWidth - number.length) ' ' ++ number ++ [' ', '│']
    | .gap => blank ++ ['┆']
    | _ => blank ++ ['│']) ++ [' ']

/-- The bracket that joins the lines of a mark which spans several. -/
def bracket (s : Sketch) (line : Line) (row : Row) : List Char :=
  if !s.multiline then []
  else if line.stop < s.span.start || s.span.stop ≤ line.start then [' ', ' ', ' ', ' ']
  else
    match row with
    | .line =>
      if line.holds s.span.start then ['╭', '─', '▶', ' ']
      else if line.holds s.last then ['├', '─', '▶', ' ']
      else ['│', ' ', ' ', ' ']
    | .gap => ['┆', ' ', ' ', ' ']
    | .stems => ['│', ' ', ' ', ' ']
    | .arrow => ['╰', '─', '─', '─']

def margin (s : Sketch) (index : Nat) (line : Line) (row : Row) : List Char :=
  s.numberMargin index row ++ s.bracket line row

/-- The characters of a line, tabs filled with spaces. -/
def expand (chars : List Char) : List Char :=
  chars.zipIdx.flatMap fun (c, column) =>
    if isBlank c then List.replicate (columnsAt column c) ' ' else [c]

/-- Draws a row below a line: at each column a character and what fills the rest of its width. -/
def drawBelow (line : Line) (length : Nat) (draw : Nat → Char × Char) : List Char :=
  (List.range length).flatMap fun column =>
    let width := (line.shown[column]?).elim 1 (columnsAt column)
    let (c, tail) := draw column
    if width = 0 then [] else c :: List.replicate (width - 1) tail

/-- The column at which the message hangs. -/
def hook (s : Sketch) (line : Line) : Nat :=
  max ((s.span.start + s.span.stop) / 2) s.span.start - line.start

def underlined (s : Sketch) (line : Line) (column : Nat) : Bool :=
  s.span.start ≤ line.start + column && line.start + column < s.span.stop

/-- The two rows that mark a text within one line. -/
def inlineMark (s : Sketch) (index : Nat) (line : Line) : List (List Char) :=
  let length := s.span.stop - line.start + 2
  let hook := s.hook line
  [s.margin index line .stems ++ drawBelow line length fun column =>
      if column = hook then if s.underlined line column then ('┬', '─') else ('│', ' ')
      else if s.underlined line column then ('─', '─')
      else (' ', ' '),
    s.margin index line .arrow ++ (drawBelow line length fun column =>
      if column < hook then (' ', ' ') else if column = hook then ('╰', '─') else ('─', '─')) ++
      ' ' :: s.message.toList]

/-- The two rows below the last line of a text that spans several. -/
def multilineMark (s : Sketch) (index : Nat) (line : Line) : List (List Char) :=
  let length := line.chars.length + 2
  [s.margin index line .stems ++ drawBelow line length fun _ => (' ', ' '),
    s.margin index line .arrow ++ (drawBelow line length fun _ => ('─', '─')) ++
      ' ' :: s.message.toList]

/-- Whether the mark begins or ends on a line, so that the line is shown. -/
def touches (s : Sketch) (line : Line) : Bool :=
  if s.multiline then line.holds s.span.start || line.holds s.last
  else line.start ≤ s.span.start && s.span.stop ≤ line.stop

/-- The rows of a line that is shown. -/
def shownLine (s : Sketch) (index : Nat) (line : Line) : List (List Char) :=
  (s.margin index line .line ++ expand line.shown) ::
    if s.multiline then if line.holds s.last then s.multilineMark index line else []
    else s.inlineMark index line

/-- The rows of the lines; `skipping` says that the line before was left out. -/
def body (s : Sketch) (skipping : Bool) : List (Line × Nat) → List (List Char)
  | [] => []
  | (line, index) :: ls =>
    if s.touches line then s.shownLine index line ++ s.body false ls
    else if skipping then s.body true ls
    else if s.multiline && s.span.start ≤ line.start && line.start < s.span.stop then
      s.margin index line .gap :: s.body true ls
    else s.numberMargin index .stems :: s.body true ls

end Sketch

/-- The message with what was expected, if anything was. -/
def labelOf (e : SyntaxError) : String :=
  e.message ++
    if e.expected.isEmpty then "" else "\nExpected: " ++ String.intercalate ", " e.expected

def unlines (rows : List (List Char)) : String :=
  String.join (rows.map fun row => String.ofList row ++ "\n")

def heading (e : SyntaxError) : List Char := "Error: ".toList ++ e.message.toList

/-- The report of an error in a source that goes by the name `file`. -/
def render (file source : String) (e : SyntaxError) : String :=
  let lines := linesOf source
  let final := max (e.span.stop - 1) e.span.start
  match lineIndex lines e.span.start, lineIndex lines final with
  | some first, some last =>
    let sketch : Sketch :=
      { span := e.span, multiline := first != last, message := labelOf e,
        numberWidth := (Nat.toDigits 10 (last + 1)).length }
    let indent := List.replicate (sketch.numberWidth + 2) ' '
    let column := e.span.start - ((lines[first]?).elim 0 (·.start)) + 1
    let where_ := file ++ ":" ++ toString (first + 1) ++ ":" ++ toString column
    unlines ([heading e,
        indent ++ ['╭', '─', '['] ++ where_.toList ++ [']'],
        indent ++ ['│']] ++
      sketch.body false ((lines.zipIdx.take (last + 1)).drop first) ++
      [List.replicate (sketch.numberWidth + 2) '─' ++ ['╯']])
  | _, _ => unlines [heading e]

end LiveMarkup.Markup.Report

namespace LiveMarkup.Markup

/-- The error shown in its markup. -/
def SyntaxError.report (e : SyntaxError) (file source : String) : String :=
  Report.render file source e

end LiveMarkup.Markup
