import ScrapeConfig.Location.Mapping
import ScrapeConfig.Location.Punycode
import ScrapeConfig.Text.Composition
import ScrapeConfig.Text.Direction
import ScrapeConfig.Text.Joining

/-!
# Labels of domain names

A domain name is a row of labels between dots. A label may be written in Punycode behind `xn--`, all
of it in ASCII; it is then looked at as the text it stands for, which must not have another written
form. A label must not begin with a mark, joiners must have something to join, and where text runs
from right to left the characters must not leave its direction open.
-/

namespace ScrapeConfig.Location

/-- Characters that no prepared domain name holds. -/
def isForbidden (c : Char) : Bool :=
  c.toNat ≤ 0x20 || c.toNat = 0x7F || "%#/:<>?@[\\]^|".toList.contains c

/-- The form of text in which domain names are compared; none if a character has no place in one. -/
def prepare (cs : List Char) : Option (List Char) := do
  let prepared := Text.compose (← cs.mapM form?).flatten
  if prepared.any isForbidden then none else prepared

/-- Whether the first character that is no mark joins in one of the ways. -/
def joins (ways : List Text.Joining) (cs : List Char) : Bool :=
  match cs.dropWhile (Text.joining · = .transparent) with
  | [] => false
  | c :: _ => ways.contains (Text.joining c)

/-- Whether every joiner follows a virama and every non-joiner a virama or a letter that would join
the one behind it; `before` is the text before, reversed. -/
def joinersFit (before : List Char) : List Char → Bool
  | [] => true
  | c :: rest =>
    let afterVirama := before.head?.any Text.isVirama
    let fits := match c.toNat with
      | 0x200C => afterVirama || (joins [.left, .both] before && joins [.right, .both] rest)
      | 0x200D => afterVirama
      | _ => true
    fits && joinersFit (c :: before) rest

def isAscii (c : Char) : Bool := c.toNat < 0x80

/-- The most characters in a label that is not all ASCII. -/
def longestLabel : Nat := 1000

/-- The most characters of Punycode in a label. -/
def longestPunycode : Nat := 2000

/-- Whether text can be a label, Punycode and the writing direction apart. -/
def isLabel (label : List Char) : Bool :=
  label.all isAscii ||
    (label.length ≤ longestLabel && !label.head?.any Text.isMark && joinersFit [] label)

/-- The text that a label of a prepared domain name shows; none if it is no label. -/
def shownLabel? : List Char → Option (List Char)
  | 'x' :: 'n' :: '-' :: '-' :: code => do
    let label ←
      if code.all isAscii && code.length ≤ longestPunycode then Punycode.decode code else none
    if prepare label = some label && isLabel label then label else none
  | label => if isLabel label then some label else none

open Text (Direction direction)

/-- Where text runs from right to left, what a label in the other direction ends with and holds. -/
def leftToRightFits (last : Direction) (inner : List Direction) : Bool :=
  [.leftToRight, .europeanNumber].contains last &&
    inner.all [.leftToRight, .europeanNumber, .europeanSeparator, .commonSeparator,
      .europeanTerminator, .otherNeutral, .boundaryNeutral, .nonspacingMark].contains

/-- What a label that runs from right to left ends with and holds: digits of one kind only. -/
def rightToLeftFits (last : Direction) (inner : List Direction) : Bool :=
  [.rightToLeft, .arabicLetter, .europeanNumber, .arabicNumber].contains last &&
    inner.all [.rightToLeft, .arabicLetter, .arabicNumber, .europeanNumber, .europeanSeparator,
      .commonSeparator, .europeanTerminator, .otherNeutral, .boundaryNeutral,
      .nonspacingMark].contains &&
    !((last :: inner).contains .europeanNumber && (last :: inner).contains .arabicNumber)

/-- Whether a label keeps one direction next to labels that run from right to left. The first
character sets it, and marks at the end do not count. -/
def keepsDirection (label : List Char) : Bool :=
  match label.map direction with
  | [] => true
  | first :: rest =>
    let fits := if first = .leftToRight then leftToRightFits else rightToLeftFits
    [.leftToRight, .rightToLeft, .arabicLetter].contains first &&
      match rest.reverse.dropWhile (· = .nonspacingMark) with
      | [] => true
      | last :: inner => fits last inner

end ScrapeConfig.Location
