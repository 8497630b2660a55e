/-!
# Positions in a source text

A position counts the UTF-8 bytes before it and says in which line and column it lies. Lines and
columns start at one, a column is one code point wide, and only a line feed ends a line.
-/

namespace ScrapeConfig

/-- A place between two characters of a source text. -/
structure Position where
  offset : Nat := 0
  line : Nat := 1
  column : Nat := 1
  deriving DecidableEq, Repr, Inhabited

namespace Position

/-- The place behind the character `c`. -/
def next (p : Position) (c : Char) : Position where
  offset := p.offset + c.utf8Size
  line := if c = '\n' then p.line + 1 else p.line
  column := if c = '\n' then 1 else p.column + 1

/-- The place behind the text `cs`. -/
def past (p : Position) (cs : List Char) : Position :=
  cs.foldl next p

@[simp] theorem past_nil (p : Position) : p.past [] = p := rfl

@[simp] theorem past_cons (p : Position) (c : Char) (cs : List Char) :
    p.past (c :: cs) = (p.next c).past cs := rfl

theorem past_append (p : Position) (xs ys : List Char) :
    p.past (xs ++ ys) = (p.past xs).past ys := by
  simp [past, List.foldl_append]

end Position

/-- The stretch of source text that a token was read from: its first byte, the byte behind its
last one, and the line and column of its first character. -/
structure Span where
  start : Nat := 0
  stop : Nat := 0
  line : Nat := 1
  column : Nat := 1
  deriving DecidableEq, Repr, Inhabited

namespace Span

/-- The span of the text `cs` that begins at `p`. -/
def covering (p : Position) (cs : List Char) : Span where
  start := p.offset
  stop := (p.past cs).offset
  line := p.line
  column := p.column

end Span

end ScrapeConfig
