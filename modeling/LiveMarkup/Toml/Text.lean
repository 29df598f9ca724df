set_option autoImplicit false

/-!
The texts of TOML: blanks, comments and line ends, strings and keys. A reader takes what it is
named for from the front of a text.
-/

namespace LiveMarkup.Toml

/-- Takes a value from the front of a text, if one is there, and leaves the rest. -/
abbrev Reader (α : Type) := List Char → Option (α × List Char)

def skipBlanks (s : List Char) : List Char := s.dropWhile fun c => c == ' ' || c == '\t'

def isControl (c : Char) : Bool := (c.toNat < 0x20 && c != '\t') || c.toNat == 0x7f

/-- After blanks and a comment, the end of the line or of the text. -/
def endOfLine (s : List Char) : Option (List Char) :=
  let rest :=
    match skipBlanks s with
    | '#' :: comment => comment.dropWhile fun c => !isControl c
    | rest => rest
  match rest with
  | [] => some []
  | '\n' :: rest => some rest
  | '\r' :: '\n' :: rest => some rest
  | _ => none

def hexValue (digits : List Char) : Option Nat :=
  digits.foldl (fun n c => n.bind fun n =>
    if c.isDigit then some (16 * n + (c.toNat - '0'.toNat))
    else if 'a' ≤ c && c ≤ 'f' then some (16 * n + (c.toNat - 'a'.toNat + 10))
    else if 'A' ≤ c && c ≤ 'F' then some (16 * n + (c.toNat - 'A'.toNat + 10))
    else none) (some 0)

def unicodeEscape (count : Nat) (s : List Char) : Option (Char × List Char) :=
  let digits := s.take count
  match hexValue digits with
  | some n =>
    if digits.length = count ∧ n.isValidChar then some (Char.ofNat n, s.drop count) else none
  | none => none

/-- The character of an escape, after its backslash. -/
def escape : Reader Char
  | 'b' :: s => some ('\x08', s)
  | 't' :: s => some ('\t', s)
  | 'n' :: s => some ('\n', s)
  | 'f' :: s => some ('\x0c', s)
  | 'r' :: s => some ('\r', s)
  | '"' :: s => some ('"', s)
  | '\\' :: s => some ('\\', s)
  | 'u' :: s => unicodeEscape 4 s
  | 'U' :: s => unicodeEscape 8 s
  | _ => none

/-- The rest of a string in double quotes. `fuel` bounds its length. -/
def basicString : Nat → Reader (List Char)
  | 0, _ => none
  | _, [] => none
  | _, '"' :: s => some ([], s)
  | fuel + 1, '\\' :: s =>
    (escape s).bind fun (c, s) => (basicString fuel s).map fun (cs, s) => (c :: cs, s)
  | fuel + 1, c :: s =>
    if isControl c then none else (basicString fuel s).map fun (cs, s) => (c :: cs, s)

/-- The rest of a string in single quotes. -/
def literalString : Reader (List Char)
  | [] => none
  | '\'' :: s => some ([], s)
  | c :: s => if isControl c then none else (literalString s).map fun (cs, s) => (c :: cs, s)

/-- Drops blanks and line ends. -/
def skipBreaks : List Char → List Char
  | ' ' :: s => skipBreaks s
  | '\t' :: s => skipBreaks s
  | '\n' :: s => skipBreaks s
  | '\r' :: '\n' :: s => skipBreaks s
  | s => s

/-- Whether a text starts with a line end. -/
def breaksLine : List Char → Bool
  | '\n' :: _ => true
  | '\r' :: '\n' :: _ => true
  | _ => false

/-- Skips the rest of a string of several lines, up to its three closing quotes. Up to two quotes
more belong to the string. -/
def longString (quote : Char) (escapes : Bool) : Nat → List Char → Option (List Char)
  | 0, _ => none
  | _, [] => none
  | fuel + 1, c :: s =>
    if c = quote ∧ s.take 2 = [quote, quote] then
      let rest := s.drop 2
      let extra := (rest.take 2).takeWhile (· == quote)
      some (rest.drop extra.length)
    else if escapes ∧ c = '\\' then
      match escape s with
      | some (_, s) => longString quote escapes fuel s
      | none =>
        let blank := skipBlanks s
        if breaksLine blank then longString quote escapes fuel (skipBreaks blank) else none
    else if isControl c ∧ !breaksLine (c :: s) then none
    else if c = '\r' then longString quote escapes fuel (s.drop 1)
    else longString quote escapes fuel s

def isBareKey (c : Char) : Bool := c.isAlphanum || c == '_' || c == '-'

/-- One key: bare, or a string of one line. -/
def key : Reader String
  | '"' :: s => (basicString (s.length + 1) s).map fun (cs, s) => (String.ofList cs, s)
  | '\'' :: s => (literalString s).map fun (cs, s) => (String.ofList cs, s)
  | s =>
    let name := s.takeWhile isBareKey
    if name.isEmpty then none else some (String.ofList name, s.dropWhile isBareKey)

/-- Keys joined by dots, with blanks around them. -/
def dottedKeys : Nat → Reader (List String)
  | 0, _ => none
  | fuel + 1, s =>
    (key (skipBlanks s)).bind fun (first, s) =>
      match skipBlanks s with
      | '.' :: s => (dottedKeys fuel s).map fun (rest, s) => (first :: rest, s)
      | s => some ([first], s)

/-- How deep values may be nested, and how long a path of keys may be. -/
def maxDepth : Nat := 79

/-- A path of keys. -/
def path : Reader (List String) := fun s =>
  (dottedKeys (s.length + 1) s).filter fun (keys, _) => keys.length ≤ maxDepth

end LiveMarkup.Toml
