set_option autoImplicit false

/-!
Double precision numbers as their 64 bits, read exactly: sign, and for a finite number the
magnitude `significand * 2 ^ scale`.
-/

namespace LiveMarkup.Decimal

/-- A number of the binary64 format, given by its bits. -/
structure Binary64 where
  bits : UInt64
  deriving DecidableEq, Repr

namespace Binary64

def isNegative (x : Binary64) : Bool := Nat.pow 2 63 ≤ x.bits.toNat

/-- The eleven exponent bits. -/
def biased (x : Binary64) : Nat := x.bits.toNat / Nat.pow 2 52 % Nat.pow 2 11

/-- The 52 bits after the exponent. -/
def fraction (x : Binary64) : Nat := x.bits.toNat % Nat.pow 2 52

def isNaN (x : Binary64) : Bool := x.biased == 2047 && x.fraction != 0

def isInfinite (x : Binary64) : Bool := x.biased == 2047 && x.fraction == 0

def isZero (x : Binary64) : Bool := x.biased == 0 && x.fraction == 0

def significand (x : Binary64) : Nat :=
  if x.biased = 0 then x.fraction else Nat.pow 2 52 + x.fraction

def scale (x : Binary64) : Int :=
  if x.biased = 0 then -1074 else (x.biased : Int) - 1075

/-- Whether the neighbour below is half as far away as the one above. -/
def hasNarrowBelow (x : Binary64) : Bool := x.fraction == 0 && 1 < x.biased

/-- Equality of the numbers denoted: NaN equals nothing, both zeros are equal. -/
def sameNumber (x y : Binary64) : Bool :=
  !x.isNaN && !y.isNaN && (x.bits == y.bits || (x.isZero && y.isZero))

def assemble (negative : Bool) (biased fraction : Nat) : Binary64 :=
  ⟨UInt64.ofNat ((if negative then Nat.pow 2 63 else 0) + biased * Nat.pow 2 52 + fraction)⟩

/-- The number whose binary32 bits are given; every such number is a binary64 number too. -/
def ofBinary32 (bits : UInt32) : Binary64 :=
  let negative := decide (Nat.pow 2 31 ≤ bits.toNat)
  let biased := bits.toNat / Nat.pow 2 23 % Nat.pow 2 8
  let fraction := bits.toNat % Nat.pow 2 23
  if biased = 255 then assemble negative 2047 (fraction * Nat.pow 2 29)
  else if biased = 0 then
    if fraction = 0 then assemble negative 0 0
    else
      let top := fraction.log2
      assemble negative (top + 874) ((fraction - Nat.pow 2 top) * Nat.pow 2 (52 - top))
  else assemble negative (biased + 896) (fraction * Nat.pow 2 29)

/-- Half a unit above the largest finite number. Numbers from here on are rounded to infinity. -/
def infinityBound : Nat := Nat.pow 2 1024 - Nat.pow 2 970

/-- Whether `digits * 10 ^ exponent` is rounded to infinity. No number with up to 308 places before
the point is, and every one with more than 309 is, so no power larger than that is computed. -/
def overflows (digits : Nat) (exponent : Int) : Bool :=
  let places := (Nat.toDigits 10 digits).length + exponent
  if digits = 0 ∨ places ≤ 308 then false
  else if 309 < places then true
  else infinityBound * Nat.pow 10 (-exponent).toNat ≤ digits * Nat.pow 10 exponent.toNat

end Binary64

end LiveMarkup.Decimal
