import ScrapeConfig.Decimal.Binary64

/-!
# Reading decimal numbers

A decimal is an optional sign, digits with an optional point among them, and an optional exponent.
-/

namespace ScrapeConfig.Decimal

/-- The number that a list of decimal digits spells. -/
def ofDigits (cs : List Char) : Nat :=
  cs.foldl (fun n c => 10 * n + (c.toNat - '0'.toNat)) 0

/-- The digits at the front and the rest. -/
def spanDigits (cs : List Char) : List Char × List Char :=
  (cs.takeWhile Char.isDigit, cs.dropWhile Char.isDigit)

/-- A sign at the front, `true` for minus, and the rest. -/
def splitSign : List Char → Bool × List Char
  | '-' :: cs => (true, cs)
  | '+' :: cs => (false, cs)
  | cs => (false, cs)

/-- The exponent part that a decimal may end in. -/
def readExponent : List Char → Option Int
  | [] => some 0
  | c :: cs =>
    if c = 'e' ∨ c = 'E' then
      let (negative, cs) := splitSign cs
      if cs ≠ [] ∧ cs.all Char.isDigit then
        some (if negative then -(ofDigits cs : Int) else ofDigits cs)
      else none
    else none

/-- A decimal without its sign: digits and the power of ten that they are multiplied by. -/
def readUnsigned (cs : List Char) : Option (Nat × Int) := do
  let (whole, rest) := spanDigits cs
  let (fraction, rest) := match rest with
    | '.' :: rest => spanDigits rest
    | rest => ([], rest)
  if whole = [] ∧ fraction = [] then none
  else
    let exponent ← readExponent rest
    return (ofDigits (whole ++ fraction), exponent - fraction.length)

/-- The number that a text spells; infinity and NaN may be written in any case. -/
def readBinary64 (text : String) : Option Binary64 :=
  let (negative, cs) := splitSign text.toList
  let word := String.ofList (cs.map Char.toLower)
  if word = "inf" ∨ word = "infinity" then some (.infinity negative)
  else if word = "nan" then some .nan
  else (readUnsigned cs).map fun (digits, exponent) => .ofScaled negative digits exponent

end ScrapeConfig.Decimal
