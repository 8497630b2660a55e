import ScrapeConfig.Text.Blank
import ScrapeConfig.Text.Split
import Std.Data.HashMap

/-!
# Tables over code points

Properties of characters are written down as text. A set lists its ranges as hexadecimal numbers:
`5BE 5C0-5C4`. A map lists a first character with a colon and then what belongs to it and to each
character behind it: `C0: 41+300 41+301` gives two characters to each of the code points C0 and C1.
There `61-7A` gives one character to each of as many neighbours.
-/

namespace ScrapeConfig.Text

/-- A set of code points: the first number of every range and the one behind its last, ascending. -/
structure CodeSet where
  bounds : Array Nat

/-- How many of ascending numbers are at most `n`, given that those before `lo` are and those from
`hi` on are not. -/
def countUpTo (bounds : Array Nat) (n lo hi : Nat) : Nat :=
  if lo < hi then
    let mid := (lo + hi) / 2
    if bounds[mid]?.any (· ≤ n) then countUpTo bounds n (mid + 1) hi
    else countUpTo bounds n lo mid
  else lo
termination_by hi - lo

namespace CodeSet

/-- A character is in a range if an odd number of bounds has been passed. -/
def contains (s : CodeSet) (c : Char) : Bool :=
  countUpTo s.bounds c.toNat 0 s.bounds.size % 2 = 1

/-- The hexadecimal numbers in a word, which stand apart from each other by `sep`. -/
def numbers (sep : Char) (word : List Char) : List Nat :=
  (pieces sep word).filterMap (readNat 16)

/-- The bounds of a range that is written as one number or two. -/
def rangeBounds (word : List Char) : List Nat :=
  match numbers '-' word with
  | [n] => [n, n + 1]
  | [first, last] => [first, last + 1]
  | _ => []

def ofText (text : String) : CodeSet :=
  ⟨((words text.toList).flatMap rangeBounds).toArray⟩

end CodeSet

/-- What the characters with some code points are replaced by, or made of. -/
abbrev CodeMap := Std.HashMap Nat (List Char)

namespace CodeMap

/-- The values that a word gives to a code point and those behind it. -/
def values (word : List Char) : List (List Char) :=
  match CodeSet.numbers '-' word with
  | [first, last] => (List.range (last + 1 - first)).map fun i => [Char.ofNat (first + i)]
  | _ => [(CodeSet.numbers '+' word).map Char.ofNat]

/-- Reads a word when the next value is for the code point `key`. -/
def addWord : Nat × CodeMap → List Char → Nat × CodeMap
  | (key, m), word => match word.reverse with
    | ':' :: digits => ((readNat 16 digits.reverse).getD key, m)
    | _ => (values word).foldl (fun (key, m) v => (key + 1, m.insert key v)) (key, m)

def ofText (text : String) : CodeMap :=
  ((words text.toList).foldl addWord (0, ∅)).2

end CodeMap

end ScrapeConfig.Text
