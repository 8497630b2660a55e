import ScrapeConfig.Decimal.Reader

/-!
# Dates and times

A date or time is checked and brought into canonical form: `T` between the two, a fraction of at
most nine digits without zeros at its end, and `Z` or a signed offset. In TOML text it is a word of
its own; as data it is an object with a single field, whose text may be a little freer.
-/

namespace ScrapeConfig.Toml

/-- Two digits that spell a number of a range. -/
def twoDigits (lo hi : Nat) (a b : Char) : Option Nat :=
  let n := Decimal.ofDigits [a, b]
  if a.isDigit && b.isDigit && lo ≤ n && n ≤ hi then some n else none

def isLeapYear (year : Nat) : Bool := year % 4 == 0 && (year % 100 != 0 || year % 400 == 0)

def daysOfMonth (year month : Nat) : Nat :=
  if month = 2 then (if isLeapYear year then 29 else 28)
  else if month ∈ [4, 6, 9, 11] then 30
  else 31

/-- A date at the front, and the rest. -/
def date : List Char → Option (List Char × List Char)
  | y₁ :: y₂ :: y₃ :: y₄ :: '-' :: m₁ :: m₂ :: '-' :: d₁ :: d₂ :: rest => do
    let year := [y₁, y₂, y₃, y₄]
    if !year.all Char.isDigit then none
    let month ← twoDigits 1 12 m₁ m₂
    let _ ← twoDigits 1 (daysOfMonth (Decimal.ofDigits year) month) d₁ d₂
    return (year ++ ['-', m₁, m₂, '-', d₁, d₂], rest)
  | _ => none

def trimZeros (cs : List Char) : List Char := (cs.reverse.dropWhile (· == '0')).reverse

/-- The fraction of a second at the front, which may be missing, and the rest. -/
def secondFraction : List Char → Option (List Char × List Char)
  | '.' :: cs =>
    let (digits, rest) := Decimal.spanDigits cs
    let kept := trimZeros (digits.take 9)
    if digits.isEmpty then none else some (if kept.isEmpty then [] else '.' :: kept, rest)
  | cs => some ([], cs)

/-- A time of day at the front, and the rest. -/
def time (lastHour : Nat) : List Char → Option (List Char × List Char)
  | h₁ :: h₂ :: ':' :: m₁ :: m₂ :: ':' :: s₁ :: s₂ :: rest => do
    let _ ← twoDigits 0 lastHour h₁ h₂
    let _ ← twoDigits 0 59 m₁ m₂
    let _ ← twoDigits 0 60 s₁ s₂
    let (fraction, rest) ← secondFraction rest
    return ([h₁, h₂, ':', m₁, m₂, ':', s₁, s₂] ++ fraction, rest)
  | _ => none

/-- An offset from universal time, which may be missing. An offset of zero has a plus sign. -/
def offset : List Char → Option (List Char)
  | [] => some []
  | [c] => if c = 'Z' ∨ c = 'z' then some ['Z'] else none
  | [sign, h₁, h₂, ':', m₁, m₂] => do
    let hours ← twoDigits 0 23 h₁ h₂
    let minutes ← twoDigits 0 59 m₁ m₂
    if sign ≠ '+' ∧ sign ≠ '-' then none
    return (if hours + minutes = 0 then '+' else sign) :: [h₁, h₂, ':', m₁, m₂]
  | _ => none

/-- A date, a time, or a date and a time with a letter in between. -/
def datetime (cs : List Char) : Option (List Char) :=
  match date cs with
  | some (day, []) => some day
  | some (day, c :: rest) =>
    if c = 'T' ∨ c = 't' then do
      let (clock, rest) ← time 23 rest
      return day ++ 'T' :: clock ++ (← offset rest)
    else none
  | none => match time 23 cs with
    | some (clock, []) => some clock
    | _ => none

def isDate (cs : List Char) : Bool :=
  match date cs with
  | some (_, []) => true
  | _ => false

/-- The name under which a date or time is presented as data. -/
def datetimeField : String := "$__toml_private_datetime"

/-- Two digits that spell a number below a hundred. -/
def twoDigitText (n : Nat) : List Char := (Nat.toDigits 10 (100 + n)).drop 1

/-- An offset of a day at most, which may be missing, with any number of minutes. -/
def presentedOffset : List Char → Option (List Char)
  | [sign, h₁, h₂, ':', m₁, m₂] => do
    let minutes := (← twoDigits 0 99 h₁ h₂) * 60 + (← twoDigits 0 99 m₁ m₂)
    if (sign ≠ '+' ∧ sign ≠ '-') ∨ 24 * 60 < minutes then none
    let sign := if minutes = 0 then '+' else sign
    return sign :: twoDigitText (minutes / 60) ++ ':' :: twoDigitText (minutes % 60)
  | cs => offset cs

/-- A date or time that is presented as data: the hour may be 24, a blank may stand in front of the
time, and an offset may follow a date directly. -/
def presentedDatetime (cs : List Char) : Option (List Char) :=
  match date cs with
  | some (day, c :: rest) =>
    if c = 'T' ∨ c = 't' ∨ c = ' ' then do
      let (clock, rest) ← time 24 rest
      return day ++ 'T' :: clock ++ (← presentedOffset rest)
    else (presentedOffset (c :: rest)).map (day ++ ·)
  | some (day, []) => some day
  | none => match time 24 cs with
    | some (clock, []) => some clock
    | _ => none

end ScrapeConfig.Toml
