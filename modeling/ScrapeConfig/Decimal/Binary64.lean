import ScrapeConfig.Decimal.Power

/-!
# Binary floating point numbers of 64 bits

A number is kept as its word and taken apart in exact arithmetic: a finite one is
`± significand · 2 ^ exponent`. `ofScaled` rounds a decimal to the nearest number.
-/

namespace ScrapeConfig

structure Binary64 where
  bits : UInt64
  deriving DecidableEq, Repr, Inhabited

namespace Binary64

/-- What a word stands for. -/
inductive Reading where
  | nan
  | infinite (negative : Bool)
  | finite (negative : Bool) (significand : Nat) (exponent : Int)
  deriving DecidableEq, Repr

/-- The least exponent of a finite number. -/
def minExponent : Int := -1074

def read (x : Binary64) : Reading :=
  let word := x.bits.toNat
  let negative := word.testBit 63
  let biased := word / twoTo 52 % twoTo 11
  let fraction := word % twoTo 52
  if biased = 2047 then (if fraction = 0 then .infinite negative else .nan)
  else if biased = 0 then .finite negative fraction minExponent
  else .finite negative (twoTo 52 + fraction) (minExponent + (biased - 1 : Nat))

def signBits (negative : Bool) : Nat :=
  if negative then twoTo 63 else 0

def ofWord (word : Nat) : Binary64 := ⟨UInt64.ofNat word⟩

def zero (negative : Bool) : Binary64 := ofWord (signBits negative)

def infinity (negative : Bool) : Binary64 := ofWord (signBits negative + 2047 * twoTo 52)

def nan : Binary64 := ofWord (2047 * twoTo 52 + twoTo 51)

def isFinite (x : Binary64) : Bool :=
  match x.read with
  | .finite .. => true
  | _ => false

/-- Equality of numbers: NaN differs from itself, and the two zeros are equal. -/
def numEq (x y : Binary64) : Bool :=
  match x.read, y.read with
  | .nan, _ => false
  | _, .nan => false
  | .finite _ 0 _, .finite _ 0 _ => true
  | a, b => a == b

/-- The integer nearest to `num / den`; a half goes to the even neighbour. -/
def divNearest (num den : Nat) : Nat :=
  let q := num / den
  let twice := 2 * (num % den)
  if den < twice ∨ (twice = den ∧ q % 2 = 1) then q + 1 else q

/-- The number nearest to the fraction `num / den`. -/
def ofFraction (negative : Bool) (num den : Nat) : Binary64 :=
  if num = 0 then zero negative else
  -- 2 ^ exponent is the distance of neighbours around the fraction
  let estimate : Int := (Nat.log2 num : Int) - (Nat.log2 den : Int) - 53
  let scaled (e : Int) : Nat × Nat := (num * twoTo (-e).toNat, den * twoTo e.toNat)
  let small (e : Int) : Bool := let (n, d) := scaled e; n < d * twoTo 53
  let exponent := max minExponent (if small estimate then estimate else estimate + 1)
  let (n, d) := scaled exponent
  let word := (exponent - minExponent).toNat * twoTo 52 + divNearest n d
  if 2047 * twoTo 52 ≤ word then infinity negative else ofWord (signBits negative + word)

/-- The number nearest to `± digits · 10 ^ exponent`. A value far outside of the range is not
spelled out. -/
def ofScaled (negative : Bool) (digits : Nat) (exponent : Int) : Binary64 :=
  let size : Int := (Nat.toDigits 10 digits).length + exponent
  if digits = 0 ∨ size < -400 then zero negative
  else if 400 < size then infinity negative
  else ofFraction negative (digits * tenTo exponent.toNat) (tenTo (-exponent).toNat)

/-- The number nearest to an integer. -/
def ofInt (i : Int) : Binary64 := ofFraction (i < 0) i.natAbs 1

/-- The exact value of a finite number without its sign, as a numerator and a denominator. -/
def magnitude (x : Binary64) : Nat × Nat :=
  match x.read with
  | .finite _ significand exponent => (significand * twoTo exponent.toNat, twoTo (-exponent).toNat)
  | _ => (0, 1)

def isNegative (x : Binary64) : Bool := x.bits.toNat.testBit 63

/-- The product of two finite numbers, rounded to the nearest number. -/
def times (x y : Binary64) : Binary64 :=
  let (a, b) := x.magnitude
  let (c, d) := y.magnitude
  ofFraction (x.isNegative != y.isNegative) (a * c) (b * d)

/-- The quotient of two finite numbers, of which the second is not zero, rounded to the nearest
number. -/
def dividedBy (x y : Binary64) : Binary64 :=
  let (a, b) := x.magnitude
  let (c, d) := y.magnitude
  ofFraction (x.isNegative != y.isNegative) (a * d) (b * c)

def negate (x : Binary64) : Binary64 :=
  ofWord ((x.bits.toNat + twoTo 63) % twoTo 64)

end Binary64

end ScrapeConfig
