/-!
# White space

The characters with the Unicode property White_Space, and what texts look like without them.
-/

namespace ScrapeConfig.Text

/-- The code points of white space, in ascending order. -/
def blankRanges : List (Nat × Nat) := [
  (0x09, 0x0D), (0x20, 0x20), (0x85, 0x85), (0xA0, 0xA0), (0x1680, 0x1680), (0x2000, 0x200A),
  (0x2028, 0x2029), (0x202F, 0x202F), (0x205F, 0x205F), (0x3000, 0x3000)]

def isBlank (c : Char) : Bool :=
  blankRanges.any fun (lo, hi) => lo ≤ c.toNat && c.toNat ≤ hi

/-- Whether a text holds nothing but white space. -/
def onlyBlanks (s : String) : Bool := s.toList.all isBlank

/-- The word at the front of a text, which may be empty, and the words behind it. -/
def splitWords (cs : List Char) : List Char × List (List Char) :=
  cs.foldr
    (fun c (word, words) =>
      if isBlank c then ([], if word.isEmpty then words else word :: words)
      else (c :: word, words))
    ([], [])

/-- The words of a text: its longest stretches without white space. -/
def words (cs : List Char) : List (List Char) :=
  let (word, words) := splitWords cs
  if word.isEmpty then words else word :: words

end ScrapeConfig.Text
