import ScrapeConfig.Datum.Basic
import ScrapeConfig.Decimal.Reader

/-!
# JSON numbers

A number is a whole number if it is written as one and fits into 64 bits, and a floating point
number otherwise. A floating point number is read with two roundings: as many leading digits as fit
into 64 bits become a significand, which is rounded and then multiplied or divided by a rounded
power of ten. So the result may differ from the nearest one in its last digit.
-/

namespace ScrapeConfig.Datum

/-- The parts of a number as it is written. -/
structure Numeral where
  negative : Bool
  whole : List Char
  /-- The digits behind the point, if there is one. -/
  fraction : Option (List Char)
  exponent : Option Int

namespace Numeral

/-- Digits without a leading zero. -/
def isWhole : List Char → Bool
  | [] => false
  | ['0'] => true
  | '0' :: _ => false
  | _ => true

def read (cs : List Char) : Option Numeral := do
  let (negative, cs) := match cs with
    | '-' :: cs => (true, cs)
    | cs => (false, cs)
  let (whole, cs) := Decimal.spanDigits cs
  let (fraction, cs) := match cs with
    | '.' :: cs => (Decimal.spanDigits cs).map some id
    | cs => (none, cs)
  if isWhole whole && fraction != some [] then
    return {
      negative, whole, fraction
      exponent := ← if cs.isEmpty then some none else (Decimal.readExponent cs).map some }
  else none

/-- Appends digits to a significand as long as it stays below `2 ^ 64`; the others are left. -/
def extend : Nat → List Char → Nat × List Char
  | n, [] => (n, [])
  | n, c :: cs =>
    let next := 10 * n + (c.toNat - '0'.toNat)
    if next < twoTo 64 then extend next cs else (n, c :: cs)

/-- The significand and the power of ten that it is multiplied by. Digits of the whole part that do
not fit count for the power only, those behind the point do not count at all. -/
def scaled (n : Numeral) : Nat × Int :=
  let (significand, spare) := extend 0 n.whole
  let digits := n.fraction.getD []
  let (significand, dropped) := extend significand digits
  let places : Int := digits.length - dropped.length
  (significand, n.exponent.getD 0 + spare.length - places)

/-- The greatest power of ten that is a floating point number. -/
def maxPower : Nat := 308

def powerOfTen (k : Nat) : Binary64 := .ofScaled false 1 k

/-- Divides by ten to the power `k`, in steps of at most `maxPower`. -/
def shrink (x : Binary64) (k : Nat) : Binary64 :=
  if k ≤ maxPower then x.dividedBy (powerOfTen k)
  else if x.numEq (.zero false) then x
  else shrink (x.dividedBy (powerOfTen maxPower)) (k - maxPower)
termination_by k
decreasing_by simp only [maxPower] at *; omega

/-- Multiplies by ten to the power `k`; none if the product is out of range. -/
def grow (x : Binary64) (k : Nat) : Option Binary64 :=
  if x.numEq (.zero false) then some x
  else if k ≤ maxPower then
    let y := x.times (powerOfTen k)
    if y.isFinite then some y else none
  else none

/-- The floating point number without its sign. -/
def magnitude (n : Numeral) : Option Binary64 :=
  match n.scaled with
  | (significand, .ofNat k) => grow (.ofInt significand) k
  | (significand, .negSucc k) => some (shrink (.ofInt significand) (k + 1))

/-- The whole number that is written, if it is one and fits. There is no negative zero. -/
def whole? (n : Numeral) : Option Int :=
  if n.fraction.isSome || n.exponent.isSome then none
  else
    let k := Decimal.ofDigits n.whole
    if n.negative then (if 0 < k ∧ k ≤ twoTo 63 then some (-k) else none)
    else if k < twoTo 64 then some k else none

def toDatum (n : Numeral) : Datum :=
  match n.whole? with
  | some i => .int i
  | none => match n.magnitude with
    | some x => .float (if n.negative then x.negate else x)
    | none => .unreadable

end Numeral

end ScrapeConfig.Datum
