import LiveMarkup.Decimal.Binary64

set_option autoImplicit false

/-!
The fewest decimal digits that read back to a number. The reals that round to a finite number form
an interval; for one digit, two digits and so on the two neighbours of the number on that decimal
grid are tested against it in exact arithmetic, and the first grid with a hit wins. Of two hits the
nearer is taken, and of two equally near ones the larger.
-/

namespace LiveMarkup.Decimal

/-- The number `d₁.d₂…dₙ * 10 ^ exponent`, by its digits. -/
structure Scientific where
  digits : List Nat
  exponent : Int
  deriving DecidableEq, Repr

/-- The reals that round to a number, and the number, over one denominator. -/
structure RoundingInterval where
  low : Nat
  value : Nat
  high : Nat
  denominator : Nat
  /-- Whether the two ends round to the number themselves. -/
  closed : Bool
  deriving DecidableEq, Repr

/-- The ends lie half way to the neighbours; an end is a tie, which goes to the even significand. -/
def Binary64.roundingInterval (x : Binary64) : RoundingInterval :=
  let m := 4 * x.significand
  let unit := Nat.pow 2 (x.scale - 2).toNat
  { low := (m - if x.hasNarrowBelow then 1 else 2) * unit
    value := m * unit
    high := (m + 2) * unit
    denominator := Nat.pow 2 (2 - x.scale).toNat
    closed := x.significand % 2 == 0 }

namespace RoundingInterval

/-- The interval in units of `10 ^ grid`. -/
def onGrid (i : RoundingInterval) (grid : Int) : RoundingInterval :=
  let up := Nat.pow 10 (-grid).toNat
  { i with
    low := i.low * up
    value := i.value * up
    high := i.high * up
    denominator := i.denominator * Nat.pow 10 grid.toNat }

def contains (i : RoundingInterval) (n : Nat) : Bool :=
  let scaled := n * i.denominator
  if i.closed then i.low ≤ scaled && scaled ≤ i.high else i.low < scaled && scaled < i.high

/-- The integer of the interval nearest to the value, among the two around it. -/
def nearest? (i : RoundingInterval) : Option Nat :=
  let below := i.value / i.denominator
  let above := below + 1
  match i.contains below, i.contains above with
  | true, true =>
    if 2 * i.value < (below + above) * i.denominator then some below else some above
  | true, false => some below
  | false, true => some above
  | false, false => none

/-- The exponent of the leading decimal digit of the value. -/
def magnitude (i : RoundingInterval) : Int :=
  if i.denominator ≤ i.value then
    ((Nat.toDigits 10 (i.value / i.denominator)).length : Int) - 1
  else
    let places := (Nat.toDigits 10 (i.denominator / i.value)).length - 1
    if i.denominator ≤ i.value * Nat.pow 10 places then -(places : Int) else -(places : Int) - 1

/-- The first hit on the grids of `count`, `count + 1`, … digits, with its grid. -/
def search (i : RoundingInterval) (count : Nat) : Nat → Option (Nat × Int)
  | 0 => none
  | tries + 1 =>
    let grid := i.magnitude + 1 - count
    match (i.onGrid grid).nearest? with
    | some n => some (n, grid)
    | none => i.search (count + 1) tries

end RoundingInterval

def digitsOf (n : Nat) : List Nat := (Nat.toDigits 10 n).map fun c => c.toNat - '0'.toNat

def dropTrailingZeros (digits : List Nat) : List Nat := (digits.reverse.dropWhile (· == 0)).reverse

/-- The shortest digits of a finite number other than zero, its sign left aside. Seventeen always
suffice. -/
def Binary64.shortest (x : Binary64) : Scientific :=
  let (n, grid) := (x.roundingInterval.search 1 17).getD (x.significand, 0)
  let digits := digitsOf n
  { digits := dropTrailingZeros digits, exponent := grid + digits.length - 1 }

end LiveMarkup.Decimal
