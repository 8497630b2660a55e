import ScrapeConfig.Datum.Basic
import ScrapeConfig.Text.Split
import ScrapeConfig.Toml.Datetime

/-!
# TOML numbers, booleans, dates and times

Each of these is one word. Digits may be grouped by single underscores.
-/

namespace ScrapeConfig.Toml

/-- Digits without their underscores; each underscore stands between two digits. -/
def ungroup (isDigit : Char → Bool) (cs : List Char) : Option (List Char) :=
  let groups := Text.pieces '_' cs
  if groups.all fun g => !g.isEmpty && g.all isDigit then some groups.flatten else none

/-- Decimal digits that do not begin with a zero, unless that is all. -/
def wholeDigits (cs : List Char) : Option (List Char) := do
  let digits ← ungroup Char.isDigit cs
  match digits with
  | ['0'] => some digits
  | '0' :: _ => none
  | _ => some digits

/-- Whole numbers have 64 bits. -/
def ofInt64? (i : Int) : Option Datum :=
  if Int64.minValue.toInt ≤ i ∧ i ≤ Int64.maxValue.toInt then some (.int i)
  else none

/-- A whole number in a base other than ten. -/
def basedInteger (base : Nat) (cs : List Char) : Option Datum := do
  let isDigit (c : Char) : Bool := (Text.digitValue c).any (· < base)
  ofInt64? (← Text.readNat base (← ungroup isDigit cs))

def integer : List Char → Option Datum
  | '0' :: 'x' :: cs => basedInteger 16 cs
  | '0' :: 'o' :: cs => basedInteger 8 cs
  | '0' :: 'b' :: cs => basedInteger 2 cs
  | cs => do
    let (negative, cs) := Decimal.splitSign cs
    let n := Decimal.ofDigits (← wholeDigits cs)
    ofInt64? (if negative then -n else n)

def specialFloat (negative : Bool) (cs : List Char) : Option Datum :=
  if cs = "inf".toList then some (.float (.infinity negative))
  else if cs = "nan".toList then some (.float .nan)
  else none

def isExponentMark (c : Char) : Bool := c == 'e' || c == 'E'

/-- The exponent behind its mark. -/
def exponent (cs : List Char) : Option Int := do
  let (negative, cs) := Decimal.splitSign cs
  let n := Decimal.ofDigits (← ungroup Char.isDigit cs)
  return if negative then -n else n

/-- A number with a fraction, an exponent or both. One that is too large is refused; a negative one
reads as infinite. -/
def decimalFloat (negative : Bool) (cs : List Char) : Option Datum := do
  let (number, power) := (cs.takeWhile (!isExponentMark ·), cs.dropWhile (!isExponentMark ·))
  let (whole, rest) := (number.takeWhile (· != '.'), number.dropWhile (· != '.'))
  let fraction ← match rest with
    | [] => some []
    | _ :: digits => ungroup Char.isDigit digits
  let power ← match power with
    | [] => if rest.isEmpty then none else some 0
    | _ :: cs => exponent cs
  let digits := Decimal.ofDigits ((← wholeDigits whole) ++ fraction)
  let x := Binary64.ofScaled negative digits (power - fraction.length)
  if x = .infinity false then none else some (.float x)

def float (cs : List Char) : Option Datum :=
  let (negative, cs) := Decimal.splitSign cs
  specialFloat negative cs <|> decimalFloat negative cs

/-- A date or time as data. -/
def presentDatetime (text : List Char) : Datum := .obj [(datetimeField, .str (String.ofList text))]

def scalar (word : List Char) : Option Datum :=
  if word = "true".toList then some (.bool true)
  else if word = "false".toList then some (.bool false)
  else (datetime word).map presentDatetime <|> float word <|> integer word

end ScrapeConfig.Toml
