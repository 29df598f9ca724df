import LiveMarkup.Toml.Scalar

set_option autoImplicit false

/-!
Documents in TOML: the assignments before the first header, and those below each header. Of the
values only truth values, arrays and tables matter here; every other one is checked and forgotten.
-/

namespace LiveMarkup.Toml

/-- A value. -/
inductive Value where
  | bool (b : Bool)
  /-- A string, a number or a time. -/
  | scalar
  | array (items : List Value)
  /-- A table; `dotted` says that it came about by a dotted key, so another may add to it. -/
  | table (dotted : Bool) (entries : List (String × Value))

abbrev Entries := List (String × Value)

/-- A header with the assignments below it. -/
structure Section where
  path : List String
  /-- The header is in double brackets. -/
  repeated : Bool
  entries : Entries

structure Document where
  entries : Entries
  sections : List Section

/-- Adds a value under a path of keys; no key may be given twice. -/
def insert : List String → Value → Entries → Option Entries
  | [], _, _ => none
  | [key], value, [] => some [(key, value)]
  | key :: keys, value, [] => (insert keys value []).map fun below => [(key, .table true below)]
  | key :: keys, value, (k, v) :: entries =>
    if k = key then
      match keys, v with
      | _ :: _, .table true below =>
        (insert keys value below).map fun below => (k, .table true below) :: entries
      | _, _ => none
    else (insert (key :: keys) value entries).map ((k, v) :: ·)

/-- Skips blanks, line ends and comments, as they may stand between the items of an array. -/
def skipLines : Nat → List Char → Option (List Char)
  | 0, _ => none
  | fuel + 1, s =>
    match skipBlanks s with
    | [] => some []
    | c :: rest =>
      if c = '#' ∨ c = '\n' ∨ c = '\r' then (endOfLine (c :: rest)).bind (skipLines fuel)
      else some (c :: rest)

mutual

/-- A value with at most `depth` brackets around anything inside. `fuel` bounds the length of the
text. -/
def value (depth : Nat) : Nat → Reader Value
  | 0, _ => none
  | fuel + 1, s =>
    match s with
    | 't' :: 'r' :: 'u' :: 'e' :: rest => some (.bool true, rest)
    | 'f' :: 'a' :: 'l' :: 's' :: 'e' :: rest => some (.bool false, rest)
    | '"' :: '"' :: '"' :: rest => (longString '"' true fuel rest).map (.scalar, ·)
    | '\'' :: '\'' :: '\'' :: rest => (longString '\'' false fuel rest).map (.scalar, ·)
    | '"' :: rest => (basicString fuel rest).map fun (_, rest) => (.scalar, rest)
    | '\'' :: rest => (literalString rest).map fun (_, rest) => (.scalar, rest)
    | '[' :: rest =>
      if depth = 0 then none
      else (items (depth - 1) fuel rest).map fun (vs, rest) => (.array vs, rest)
    | '\x7b' :: rest =>
      if depth = 0 then none
      else
        match skipBlanks rest with
        | '\x7d' :: rest => some (.table false [], rest)
        | rest =>
          (pairs (depth - 1) fuel [] rest).map fun (entries, rest) => (.table false entries, rest)
    | _ => (skipScalar s).map (.scalar, ·)

/-- The items of an array, up to its closing bracket. -/
def items (depth : Nat) : Nat → Reader (List Value)
  | 0, _ => none
  | fuel + 1, s =>
    match skipLines (s.length + 1) s with
    | some (']' :: rest) => some ([], rest)
    | some s =>
      match value depth fuel s with
      | some (v, rest) =>
        match skipLines (rest.length + 1) rest with
        | some (']' :: rest) => some ([v], rest)
        | some (',' :: rest) => (items depth fuel rest).map fun (vs, rest) => (v :: vs, rest)
        | _ => none
      | none => none
    | none => none

/-- The assignments of a table in braces, up to its closing brace. -/
def pairs (depth : Nat) : Nat → Entries → Reader Entries
  | 0, _, _ => none
  | fuel + 1, entries, s =>
    match path s with
    | some (keys, '=' :: rest) =>
      match value depth fuel (skipBlanks rest) with
      | some (v, rest) =>
        match insert keys v entries, skipBlanks rest with
        | some entries, '\x7d' :: rest => some (entries, rest)
        | some entries, ',' :: rest => pairs depth fuel entries rest
        | _, _ => none
      | none => none
    | _ => none

end

/-- A line of a document. -/
inductive Line where
  | blank
  | header (path : List String) (repeated : Bool)
  | assignment (path : List String) (value : Value)

/-- Reads one line, or several if a value takes them. -/
def line : Reader Line := fun s =>
  match skipBlanks s with
  | '[' :: '[' :: rest =>
    match path rest with
    | some (keys, ']' :: ']' :: rest) => (endOfLine rest).map (.header keys true, ·)
    | _ => none
  | '[' :: rest =>
    match path rest with
    | some (keys, ']' :: rest) => (endOfLine rest).map (.header keys false, ·)
    | _ => none
  | s =>
    match endOfLine s with
    | some rest => some (.blank, rest)
    | none =>
      match path s with
      | some (keys, '=' :: rest) =>
        match value maxDepth (rest.length + 1) (skipBlanks rest) with
        | some (v, rest) => (endOfLine rest).map (.assignment keys v, ·)
        | none => none
      | _ => none

/-- Adds a line to a document that is read so far; its sections have the latest first. -/
def Document.add (d : Document) : Line → Option Document
  | .blank => some d
  | .header path repeated => some { d with sections := ⟨path, repeated, []⟩ :: d.sections }
  | .assignment path value =>
    match d.sections with
    | [] => (insert path value d.entries).map fun entries => { d with entries }
    | s :: ss =>
      (insert path value s.entries).map fun entries =>
        { d with sections := { s with entries } :: ss }

def Document.readFrom (d : Document) : Nat → List Char → Option Document
  | _, [] => some d
  | 0, _ => none
  | fuel + 1, s =>
    match line s with
    | some (l, rest) => (d.add l).bind fun d => d.readFrom fuel rest
    | none => none

/-- Reads a document. A byte order mark in front is skipped. -/
def Document.parse (text : String) : Option Document :=
  let s := text.toList
  let s := if s.head? = some '\ufeff' then s.tail else s
  Document.readFrom ⟨[], []⟩ (s.length + 1) s

end LiveMarkup.Toml
