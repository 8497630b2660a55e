import ScrapeConfig.Decimal.Binary64

/-!
# Shortest decimals

The decimal of fewest digits that reads back as a given number, and the nearest of those. For one
digit, two digits and so on the two neighbours of the number among the decimals with so many
digits are tested in exact arithmetic.
-/

namespace ScrapeConfig

/-- The decimal `digits · 10 ^ exponent`. -/
structure Decimal where
  digits : Nat
  exponent : Int
  deriving DecidableEq, Repr, Inhabited

namespace Decimal

/-- The same value without zeros at the end of its digits. -/
def trim : (fuel : Nat) → Decimal → Decimal
  | 0, d => d
  | fuel + 1, d =>
    if d.digits ≠ 0 ∧ d.digits % 10 = 0 then trim fuel ⟨d.digits / 10, d.exponent + 1⟩ else d

/-- Exponent of the highest power of ten that is not above the positive fraction `num / den`. -/
def leadingPower (num den : Nat) : Int :=
  let bits : Int := (Nat.log2 num : Int) - (Nat.log2 den : Int) - 1
  let estimate := bits * 30103 / 100000
  let fits (e : Int) : Bool := den * tenTo e.toNat ≤ num * tenTo (-e).toNat
  ([estimate + 2, estimate + 1, estimate].find? fits).getD (estimate - 1)

/-- The fractions that round to `significand · 2 ^ exponent`, all over one denominator: the value
itself, the two ends, and whether the ends belong to them. -/
structure Interval where
  value : Nat
  low : Nat
  high : Nat
  closed : Bool
  den : Nat

def Interval.around (significand : Nat) (exponent : Int) : Interval :=
  let unit := twoTo exponent.toNat
  let below := if significand = twoTo 52 ∧ Binary64.minExponent < exponent then 1 else 2
  ⟨4 * significand * unit, (4 * significand - below) * unit, (4 * significand + 2) * unit,
    significand % 2 = 0, 4 * twoTo (-exponent).toNat⟩

/-- Whether `digits · 10 ^ power` lies in the interval. -/
def Interval.holds (i : Interval) (power : Int) (digits : Nat) : Bool :=
  let v := digits * tenTo power.toNat * i.den
  let scale := tenTo (-power).toNat
  if i.closed then i.low * scale ≤ v && v ≤ i.high * scale
  else i.low * scale < v && v < i.high * scale

/-- The better of the two neighbours with this last power of ten; `tieUp` says which one an exact
tie goes to. -/
def Interval.nearest (i : Interval) (tieUp : Bool) (power : Int) : Option Decimal :=
  let num := i.value * tenTo (-power).toNat
  let den := i.den * tenTo power.toNat
  let floor := num / den
  let rest := 2 * (num % den)
  let up := den < rest || (rest = den && (tieUp || floor % 2 = 1))
  match i.holds power floor, i.holds power (floor + 1) with
  | true, true => some ⟨if up then floor + 1 else floor, power⟩
  | true, false => some ⟨floor, power⟩
  | false, true => some ⟨floor + 1, power⟩
  | false, false => none

/-- The shortest decimal that reads back as `significand · 2 ^ exponent`. Seventeen digits always
do. -/
def shortest (tieUp : Bool) (significand : Nat) (exponent : Int) : Decimal :=
  if significand = 0 then ⟨0, 0⟩
  else
    let i := Interval.around significand exponent
    let lead := leadingPower i.value i.den
    let hit := (List.range 17).findSome? fun (n : Nat) => i.nearest tieUp (lead - n)
    trim 20 (hit.getD ⟨0, 0⟩)

/-- The digits as text. -/
def digitChars (d : Decimal) : List Char :=
  Nat.toDigits 10 d.digits

/-- Number of digits before the point when written positionally; may be negative. -/
def pointPlace (d : Decimal) : Int :=
  d.digitChars.length + d.exponent

/-- Positional notation: zeros fill up to the point, and there is a point only before digits. -/
def positional (d : Decimal) : List Char :=
  let ds := d.digitChars
  let point := d.pointPlace
  if 0 ≤ d.exponent then ds ++ List.replicate d.exponent.toNat '0'
  else if 0 < point then ds.take point.toNat ++ '.' :: ds.drop point.toNat
  else '0' :: '.' :: List.replicate (-point).toNat '0' ++ ds

/-- Scientific notation with one digit before the point and a bare exponent. -/
def scientific (d : Decimal) : List Char :=
  let mantissa := match d.digitChars with
    | c :: c' :: cs => c :: '.' :: c' :: cs
    | cs => cs
  mantissa ++ 'e' :: (toString (d.pointPlace - 1)).toList

end Decimal

/-- How a number is written. -/
structure NumberFormat where
  /-- An exact tie between two shortest decimals goes up, else to the even one. -/
  tieUp : Bool
  /-- Written positionally when the power of ten of the first digit lies between these two. -/
  positionalFrom : Option Int
  positionalTo : Option Int
  /-- An integer written positionally ends in `.0`. -/
  keepPoint : Bool

namespace NumberFormat

/-- Option values are shown without an exponent, and whole numbers without a point. -/
def shown : NumberFormat := ⟨true, none, none, false⟩

/-- Numbers in JSON text: an exponent below 10^-5 and from 10^16 on, whole numbers with a point. -/
def inJson : NumberFormat := ⟨false, some (-5), some 15, true⟩

/-- Numbers in a dump of the tree: an exponent below 10^-4 and from 10^16 on. -/
def dumped : NumberFormat := ⟨true, some (-4), some 15, true⟩

end NumberFormat

namespace Binary64

def render (f : NumberFormat) (x : Binary64) : String :=
  match x.read with
  | .nan => "NaN"
  | .infinite negative => if negative then "-inf" else "inf"
  | .finite negative m q =>
    let d := Decimal.shortest f.tieUp m q
    let power := d.pointPlace - 1
    let plain := (f.positionalFrom.all (· ≤ power) && f.positionalTo.all (power ≤ ·)) || m = 0
    let text := if plain then d.positional else d.scientific
    let text := if plain && f.keepPoint && 0 ≤ d.exponent then text ++ ['.', '0'] else text
    String.ofList (if negative then '-' :: text else text)

end Binary64

end ScrapeConfig
