import LiveMarkup.Decimal.Shortest

set_option autoImplicit false

/-!
Two written forms of a number. In output text the digits stand in plain notation for exponents from
-6 to 20 and before `e+` or `e-` otherwise. The literal form, which shows a value to a developer,
keeps a fraction (`1.0`) and the sign of zero, and leaves plain notation at -4 and 15.
-/

namespace LiveMarkup.Decimal

def digitChars (digits : List Nat) : List Char := digits.map fun d => Char.ofNat ('0'.toNat + d)

def zeros (n : Nat) : List Char := List.replicate n '0'

/-- Digits and exponent with the point set; `fraction` adds `.0` to an integer. -/
def Scientific.plain (s : Scientific) (fraction : Bool) : List Char :=
  let digits := digitChars s.digits
  let point := s.exponent + 1
  if point ≤ 0 then '0' :: '.' :: (zeros (-point).toNat ++ digits)
  else if (digits.length : Int) ≤ point then
    digits ++ zeros (point - digits.length).toNat ++ if fraction then ['.', '0'] else []
  else digits.take point.toNat ++ '.' :: digits.drop point.toNat

/-- `d.ddde` and the exponent; `plus` writes the sign of a positive exponent. -/
def Scientific.exponential (s : Scientific) (plus : Bool) : List Char :=
  let mantissa :=
    match digitChars s.digits with
    | [] => []
    | [d] => [d]
    | d :: ds => d :: '.' :: ds
  let sign := if s.exponent < 0 then ['-'] else if plus then ['+'] else []
  mantissa ++ 'e' :: (sign ++ (toString s.exponent.natAbs).toList)

/-- The text of the digits in output. -/
def Scientific.text (s : Scientific) : List Char :=
  if -7 < s.exponent ∧ s.exponent < 21 then s.plain false else s.exponential true

/-- A number as output text: `3`, `0.5`, `1e+21`, `1e-7`, `NaN`, `-Infinity`; both zeros are `0`. -/
def Binary64.text (x : Binary64) : String :=
  if x.isNaN then "NaN"
  else if x.isInfinite then if x.isNegative then "-Infinity" else "Infinity"
  else if x.isZero then "0"
  else String.ofList ((if x.isNegative then ['-'] else []) ++ x.shortest.text)

/-- A number as a literal: `3.0`, `0.5`, `1e16`, `1e-5`, `NaN`, `-inf`, `-0.0`. -/
def Binary64.literal (x : Binary64) : String :=
  if x.isNaN then "NaN"
  else
    let sign := if x.isNegative then ['-'] else []
    let body :=
      if x.isInfinite then ['i', 'n', 'f']
      else if x.isZero then ['0', '.', '0']
      else
        let s := x.shortest
        if -5 < s.exponent ∧ s.exponent < 16 then s.plain true else s.exponential false
    String.ofList (sign ++ body)

end LiveMarkup.Decimal
