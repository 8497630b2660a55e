/-!
# Ranges of code points

A character class is a list of inclusive ranges of code points. `normalize` brings such a list
into its only sorted form without overlaps or neighbours that touch, `complement` turns a
normalized list around, and `foldCase` adds the other ASCII case of every letter.
-/

namespace ScrapeConfig

/-- The code points from `lo` to `hi`, both included. -/
structure CodeRange where
  lo : Nat
  hi : Nat
  deriving DecidableEq, Repr, Inhabited

namespace CodeRange

/-- The highest code point. -/
def last : Nat := 0x10FFFF

def contains (r : CodeRange) (c : Nat) : Bool :=
  r.lo ≤ c && c ≤ r.hi

/-- Membership in a list of ranges. -/
def covers (rs : List CodeRange) (c : Nat) : Bool :=
  rs.any (·.contains c)

def single (c : Char) : CodeRange := ⟨c.toNat, c.toNat⟩

/-- Adds `r` to a normalized list: ranges that overlap or touch `r` are absorbed by it. -/
def insert (r : CodeRange) : List CodeRange → List CodeRange
  | [] => [r]
  | x :: xs =>
    if r.hi + 1 < x.lo then r :: x :: xs
    else if x.hi + 1 < r.lo then x :: insert r xs
    else insert ⟨min r.lo x.lo, max r.hi x.hi⟩ xs

/-- The same code points as sorted ranges that neither overlap nor touch. -/
def normalize (rs : List CodeRange) : List CodeRange :=
  rs.foldr insert []

/-- The code points from `next` on that a normalized list leaves out. -/
def gaps (next : Nat) : List CodeRange → List CodeRange
  | [] => if next ≤ last then [⟨next, last⟩] else []
  | r :: rs => if next < r.lo then ⟨next, r.lo - 1⟩ :: gaps (r.hi + 1) rs else gaps (r.hi + 1) rs

/-- The code points that a normalized list leaves out. -/
def complement (rs : List CodeRange) : List CodeRange :=
  gaps 0 rs

/-- The part of `r` among the 26 letters from `letters` on, moved to those from `others` on. -/
def recased (letters others : Nat) (r : CodeRange) : List CodeRange :=
  let lo := max r.lo letters
  let hi := min r.hi (letters + 25)
  if lo ≤ hi then [⟨lo - letters + others, hi - letters + others⟩] else []

/-- The ranges together with the other ASCII case of every letter in them. -/
def foldCase (rs : List CodeRange) : List CodeRange :=
  rs ++ rs.flatMap fun r => r.recased 'a'.toNat 'A'.toNat ++ r.recased 'A'.toNat 'a'.toNat

end CodeRange

end ScrapeConfig
