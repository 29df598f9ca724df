import LiveMarkup.Text.Ascii

set_option autoImplicit false

/-!
Character references: six names, and numbers in decimal or hexadecimal. A reference is `&`, a
body of at most ten bytes and `;`. Whatever does not read as one is literal text. The second half
is the writer's side: what has to be written as a reference in text and in a quoted attribute.
-/

namespace LiveMarkup.Markup.CharacterReference

/-- The named references. -/
def named : List (List Char × Char) :=
  [(['a', 'm', 'p'], '&'), (['l', 't'], '<'), (['g', 't'], '>'), (['q', 'u', 'o', 't'], '"'),
    (['a', 'p', 'o', 's'], '\''), (['n', 'b', 's', 'p'], '\u00a0')]

/-- Most bytes between `&` and `;`: those of `#x10FFFF` and two leading zeros. -/
def longestBody : Nat := 10

def digitValue (c : Char) : Option Nat :=
  if c.isDigit then some (c.toNat - '0'.toNat)
  else if 'a' ≤ c && c ≤ 'f' then some (c.toNat - 'a'.toNat + 10)
  else if 'A' ≤ c && c ≤ 'F' then some (c.toNat - 'A'.toNat + 10)
  else none

/-- The number that the digits write after `n`. -/
def readDigits (base n : Nat) : List Char → Option Nat
  | [] => some n
  | c :: cs =>
    match digitValue c with
    | some d => if d < base then readDigits base (n * base + d) cs else none
    | none => none

/-- A number in `base`: one plus sign is allowed, at least one digit is required. -/
def readNumber (base : Nat) : List Char → Option Nat
  | [] => none
  | ['+'] => none
  | '+' :: cs => readDigits base 0 cs
  | cs => readDigits base 0 cs

/-- The character of a number; zero, surrogates and what lies beyond Unicode give U+FFFD. -/
def ofNumber (n : Nat) : Char :=
  if n ≠ 0 ∧ n.isValidChar then Char.ofNat n else '\ufffd'

/-- The character that a body, the text between `&` and `;`, stands for. -/
def ofBody : List Char → Option Char
  | '#' :: 'x' :: digits => (readNumber 16 digits).map ofNumber
  | '#' :: 'X' :: digits => (readNumber 16 digits).map ofNumber
  | '#' :: digits => (readNumber 10 digits).map ofNumber
  | body => named.lookup body

/-- Reads a reference after its `&`; returns the character and the text after its `;`. -/
def read (s : List Char) : Option (Char × List Char) :=
  let body := (s.take (longestBody + 1)).takeWhile (· != ';')
  if Text.byteSize body ≤ longestBody then
    match s.drop body.length with
    | ';' :: rest => (ofBody body).map (·, rest)
    | _ => none
  else none

theorem length_of_read {s rest : List Char} {c : Char} (h : read s = some (c, rest)) :
    rest.length ≤ s.length := by
  simp only [read] at h
  split at h
  · split at h
    · rename_i after hs
      obtain ⟨_, _, he⟩ := Option.map_eq_some_iff.1 h
      simp only [Prod.mk.injEq] at he
      have := congrArg List.length hs
      simp only [List.length_drop, List.length_cons] at this
      rw [← he.2]
      omega
    · simp at h
  · simp at h

/-- Replaces every character reference by its character, from left to right. -/
def decodeChars : List Char → List Char
  | [] => []
  | '&' :: s =>
    match _h : read s with
    | some (c, rest) => c :: decodeChars rest
    | none => '&' :: decodeChars s
  | c :: s => c :: decodeChars s
termination_by s => s.length
decreasing_by
  · have := length_of_read _h
    simp only [List.length_cons]
    omega
  · simp
  · simp

def decode (s : String) : String := String.ofList (decodeChars s.toList)

/-- A character of text content as it is written. -/
def escapeTextChar (c : Char) : List Char :=
  if c = '&' then ['&', 'a', 'm', 'p', ';']
  else if c = '\u00a0' then ['&', 'n', 'b', 's', 'p', ';']
  else if c = '<' then ['&', 'l', 't', ';']
  else if c = '>' then ['&', 'g', 't', ';']
  else [c]

/-- A character of a double-quoted attribute value as it is written. -/
def escapeAttributeChar (c : Char) : List Char :=
  if c = '&' then ['&', 'a', 'm', 'p', ';']
  else if c = '\u00a0' then ['&', 'n', 'b', 's', 'p', ';']
  else if c = '"' then ['&', 'q', 'u', 'o', 't', ';']
  else [c]

def escapeText (s : String) : String := String.ofList (s.toList.flatMap escapeTextChar)

def escapeAttribute (s : String) : String := String.ofList (s.toList.flatMap escapeAttributeChar)

end LiveMarkup.Markup.CharacterReference
