import LiveMarkup.Decimal.Binary64
import LiveMarkup.Toml.Text

set_option autoImplicit false

/-!
The values of TOML that are written without quotes and brackets: numbers, dates and times. What
they denote does not matter here, so each is only checked.
-/

namespace LiveMarkup.Toml

/-- Digits that single underscores may separate. -/
def isDigitRun (isDigit : Char → Bool) : List Char → Bool
  | [] => false
  | [c] => isDigit c
  | c :: '_' :: cs => isDigit c && isDigitRun isDigit cs
  | c :: cs => isDigit c && isDigitRun isDigit cs

def unsigned : List Char → List Char
  | '+' :: cs => cs
  | '-' :: cs => cs
  | cs => cs

/-- A decimal integer without its sign, which has no leading zero. -/
def isWhole (cs : List Char) : Bool :=
  isDigitRun Char.isDigit cs && (cs.head? != some '0' || cs.length == 1)

def wholeValue (cs : List Char) (base : Nat) : Nat :=
  (hexDigits cs).foldl (fun n d => base * n + d) 0
where
  hexDigits (cs : List Char) : List Nat := cs.filterMap fun c => hexValue [c]

/-- The first whole number that does not fit in 64 bits with a sign. -/
def integerBound : Nat := Nat.pow 2 63

/-- An integer of 64 bits with its sign. -/
def isInteger (cs : List Char) : Bool :=
  match cs with
  | '0' :: 'x' :: ds => isDigitRun (fun c => (hexValue [c]).isSome) ds && wholeValue ds 16 < integerBound
  | '0' :: 'o' :: ds => isDigitRun (fun c => '0' ≤ c && c ≤ '7') ds && wholeValue ds 8 < integerBound
  | '0' :: 'b' :: ds => isDigitRun (fun c => c == '0' || c == '1') ds && wholeValue ds 2 < integerBound
  | _ =>
    let ds := unsigned cs
    isWhole ds && wholeValue ds 10 < integerBound + if cs.head? = some '-' then 1 else 0

def isExponent : List Char → Bool
  | [] => true
  | 'e' :: cs => isDigitRun Char.isDigit (unsigned cs)
  | 'E' :: cs => isDigitRun Char.isDigit (unsigned cs)
  | _ => false

/-- Whether a decimal number, written without its sign, is rounded to infinity. -/
def isHuge (cs : List Char) : Bool :=
  let isMark := fun c : Char => c == 'e' || c == 'E'
  let cs := cs.filter (· != '_')
  let mantissa := cs.takeWhile fun c => !isMark c
  let exponent := (cs.dropWhile fun c => !isMark c).tail
  let power : Int := wholeValue exponent 10
  let places := (mantissa.dropWhile (· != '.')).tail.length
  Decimal.Binary64.overflows (wholeValue mantissa 10)
    ((if exponent.head? = some '-' then -power else power) - places)

/-- The form of a number with a fraction or an exponent, without its sign. -/
def isDecimal (cs : List Char) : Bool :=
  let inMantissa := fun c : Char => c.isDigit || c == '_'
  let whole := cs.takeWhile inMantissa
  match cs.dropWhile inMantissa with
  | '.' :: rest =>
    isWhole whole && isDigitRun Char.isDigit (rest.takeWhile inMantissa) &&
      isExponent (rest.dropWhile inMantissa)
  | [] => false
  | rest => isWhole whole && isExponent rest

/-- A floating point number with its sign. A positive one must not be too large for its format; a
negative one may be. -/
def isFloat (cs : List Char) : Bool :=
  let ds := unsigned cs
  ds == ['i', 'n', 'f'] || ds == ['n', 'a', 'n'] ||
    (isDecimal ds && (cs.head? == some '-' || !isHuge ds))

/-- A number of exactly `count` digits from `low` to `high`. -/
def twoDigits (count low high : Nat) (s : List Char) : Option (Nat × List Char) :=
  let ds := s.take count
  let n := wholeValue ds 10
  if ds.length = count ∧ ds.all Char.isDigit ∧ low ≤ n ∧ n ≤ high then some (n, s.drop count)
  else none

def expect (c : Char) (s : List Char) : Option (List Char) :=
  if s.head? = some c then some s.tail else none

def daysIn (year month : Nat) : Nat :=
  if month = 2 then
    if (year % 4 = 0 ∧ year % 100 ≠ 0) ∨ year % 400 = 0 then 29 else 28
  else if month = 4 ∨ month = 6 ∨ month = 9 ∨ month = 11 then 30 else 31

def date (s : List Char) : Option (List Char) := do
  let (year, s) ← twoDigits 4 0 9999 s
  let (month, s) ← twoDigits 2 1 12 (← expect '-' s)
  let (_, s) ← twoDigits 2 1 (daysIn year month) (← expect '-' s)
  some s

def time (s : List Char) : Option (List Char) := do
  let (_, s) ← twoDigits 2 0 23 s
  let (_, s) ← twoDigits 2 0 59 (← expect ':' s)
  let (_, s) ← twoDigits 2 0 60 (← expect ':' s)
  match s with
  | '.' :: s => if (s.takeWhile Char.isDigit).isEmpty then none else some (s.dropWhile Char.isDigit)
  | s => some s

/-- Nothing, `Z`, or a distance from it. -/
def isOffset : List Char → Bool
  | [] => true
  | ['Z'] | ['z'] => true
  | c :: s =>
    (c == '+' || c == '-') &&
      ((do
        let (_, s) ← twoDigits 2 0 23 s
        let (_, s) ← twoDigits 2 0 59 (← expect ':' s)
        some s : Option (List Char)) == some [])

def isTime (cs : List Char) : Bool :=
  match date cs with
  | some [] => true
  | some (c :: rest) =>
    (c == 'T' || c == 't' || c == ' ') && ((time rest).map isOffset).getD false
  | none => time cs == some []

/-- The characters of a number or a time; a blank may stand between date and time. -/
def scalarText (s : List Char) : List Char × List Char :=
  let inScalar := fun c : Char => c.isAlphanum || c == '_' || c == '+' || c == '-' || c == '.' ||
    c == ':'
  let first := s.takeWhile inScalar
  match s.dropWhile inScalar with
  | ' ' :: c :: rest =>
    if c.isDigit && date first == some [] then
      (first ++ ' ' :: (c :: rest).takeWhile inScalar, (c :: rest).dropWhile inScalar)
    else (first, ' ' :: c :: rest)
  | rest => (first, rest)

/-- Skips a number or a time. -/
def skipScalar (s : List Char) : Option (List Char) :=
  let (text, rest) := scalarText s
  if isInteger text || isFloat text || isTime text then some rest else none

end LiveMarkup.Toml
