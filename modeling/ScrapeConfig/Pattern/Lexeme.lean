import ScrapeConfig.Pattern.Expr

/-!
# Reading a pattern source into lexemes

A pattern source is read in two steps. First every backslash is joined with the character that it
escapes (`glyphs`), then bracket classes are collected and the remaining characters get their
meaning (`lexemes`). What is wrong with a source is itself a lexeme, a `fault`, so that the
leftmost problem is found by whoever reads the lexemes from the left.
-/

namespace ScrapeConfig

/-- What can be wrong with a pattern source. -/
inductive PatternFault where
  | emptySource
  | unmatched (c : Char)
  | unclosedGroup
  | nothingToRepeat (c : Char)
  | unknownEscape (c : Char)
  | danglingEscape
  | unclosedClass
  | invalidRange (lo hi : Char)
  deriving DecidableEq, Repr

def PatternFault.message : PatternFault → String
  | .emptySource => "empty pattern"
  | .unmatched c => s!"unmatched '{c}'"
  | .unclosedGroup => "unclosed group '('"
  | .nothingToRepeat c => s!"nothing to repeat before '{c}'"
  | .unknownEscape c => s!"unknown escape '\\" ++ c.toString ++ "'"
  | .danglingEscape => "dangling escape '\\'"
  | .unclosedClass => "unclosed character class"
  | .invalidRange lo hi => s!"invalid range '{lo}-{hi}'"

/-- A fault and the number of code points of the source before it. -/
structure PatternError where
  position : Nat
  fault : PatternFault
  deriving DecidableEq, Repr

/-- The text that reports a problem at `position` of a pattern source. -/
def PatternError.report (position : Nat) (message : String) : String :=
  s!"Invalid pattern at position {position}: {message}"

def PatternError.message (e : PatternError) : String :=
  PatternError.report e.position e.fault.message

namespace Pattern

/-- A character of the source, a backslash taken together with what it escapes. -/
inductive Glyph where
  | plain (c : Char)
  | escaped (c : Char)
  | unknown (c : Char)
  | dangling
  deriving DecidableEq, Repr

namespace Glyph

/-- Number of source characters. -/
def width : Glyph → Nat
  | .plain _ => 1
  | .dangling => 1
  | _ => 2

/-- The glyph of a backslash before `c`: four letters name control characters, and any character
that is no ASCII letter or digit stands for itself. -/
def escape : Char → Glyph
  | 'n' => .escaped '\n'
  | 't' => .escaped '\t'
  | 'r' => .escaped '\r'
  | '0' => .escaped '\x00'
  | c => if c.isAlphanum then .unknown c else .escaped c

/-- The character that a glyph at `position` denotes. -/
def char (position : Nat) : Glyph → Except PatternError Char
  | .plain c => .ok c
  | .escaped c => .ok c
  | .unknown c => .error ⟨position, .unknownEscape c⟩
  | .dangling => .error ⟨position, .danglingEscape⟩

end Glyph

/-- The glyphs of a source, each with its position; the first character stands at `position`. -/
def glyphs (position : Nat) : List Char → List (Nat × Glyph)
  | [] => []
  | ['\\'] => [(position, .dangling)]
  | '\\' :: c :: rest => (position, .escape c) :: glyphs (position + 2) rest
  | c :: rest => (position, .plain c) :: glyphs (position + 1) rest

/-- The three postfix quantifiers. -/
inductive Quantifier where
  | star
  | plus
  | opt
  deriving DecidableEq, Repr

namespace Quantifier

def symbol : Quantifier → Char
  | .star => '*'
  | .plus => '+'
  | .opt => '?'

def apply : Quantifier → Expr → Expr
  | .star => .star
  | .plus => .plus
  | .opt => .opt

end Quantifier

/-- A piece of a pattern source that has a meaning of its own. -/
inductive Lexeme where
  | leaf (e : Expr)
  | openGroup (position : Nat)
  | closeGroup (position : Nat)
  | bar
  | repeated (how : Quantifier) (position : Nat)
  | fault (e : PatternError)
  deriving Repr

/-- How far an open bracket class has been read: just behind its bracket, before its first item,
before a later item, behind a character that may begin a range, or behind the `-` of a range. -/
inductive ClassPhase where
  | opening
  | first
  | item
  | low (c : Char)
  | high (lo : Char)
  deriving DecidableEq, Repr

/-- A bracket class that is being read: its ranges so far, the latest one first. -/
structure OpenClass where
  start : Nat
  negated : Bool := false
  phase : ClassPhase := .opening
  ranges : List CodeRange := []

namespace OpenClass

def add (k : OpenClass) (lo hi : Char) : OpenClass :=
  { k with phase := .item, ranges := ⟨lo.toNat, hi.toNat⟩ :: k.ranges }

def expr (fold : Bool) (k : OpenClass) : Expr :=
  .bracket fold k.negated k.ranges.reverse

/-- A `-` makes a range of the character before it and the one behind it, unless nothing or the
end of the class is behind it. -/
def rangeFollows (g : Glyph) (next : Option Glyph) : Bool :=
  g = .plain '-' && next.any (· ≠ .plain ']')

/-- The class behind a character that may begin a range. -/
def low (k : OpenClass) (position : Nat) (g : Glyph) : Except PatternError (OpenClass × Bool) :=
  (g.char position).map fun c => ({ k with phase := .low c }, false)

/-- The class behind a glyph that stands where a later item may begin: a `]` ends the class. -/
def item (k : OpenClass) (position : Nat) (g : Glyph) : Except PatternError (OpenClass × Bool) :=
  if g = .plain ']' then .ok (k, true) else k.low position g

/-- The class behind one more glyph, with `next` to follow, and whether the glyph ends the class. -/
def step (k : OpenClass) (position : Nat) (g : Glyph) (next : Option Glyph) :
    Except PatternError (OpenClass × Bool) :=
  match k.phase with
  | .opening =>
    if g = .plain '^' then .ok ({ k with negated := true, phase := .first }, false)
    else k.low position g
  | .first => k.low position g
  | .item => k.item position g
  | .low lo =>
    if rangeFollows g next then .ok ({ k with phase := .high lo }, false)
    else (k.add lo lo).item position g
  | .high lo => do
    let hi ← g.char position
    if hi < lo then .error ⟨position + g.width, .invalidRange lo hi⟩
    else .ok (k.add lo hi, false)

end OpenClass

/-- The lexeme of a glyph outside of bracket classes. -/
def lexeme (fold : Bool) (position : Nat) : Glyph → Lexeme
  | .plain '(' => .openGroup position
  | .plain ')' => .closeGroup position
  | .plain '|' => .bar
  | .plain '*' => .repeated .star position
  | .plain '+' => .repeated .plus position
  | .plain '?' => .repeated .opt position
  | .plain '.' => .leaf .anySymbol
  | .plain '^' => .leaf .startAnchor
  | .plain '$' => .leaf .endAnchor
  | g => match g.char position with
    | .ok c => .leaf (.literal fold c)
    | .error e => .fault e

/-- The lexemes of a list of glyphs, the first of which stand inside the bracket class `k` if there
is one. -/
def lexemes (fold : Bool) : (k : Option OpenClass) → List (Nat × Glyph) → List Lexeme
  | none, [] => []
  | none, (n, g) :: rest =>
    if g = .plain '[' then lexemes fold (some ⟨n, false, .opening, []⟩) rest
    else lexeme fold n g :: lexemes fold none rest
  | some k, [] => [.fault ⟨k.start, .unclosedClass⟩]
  | some k, (n, g) :: rest =>
    match k.step n g (rest.head?.map (·.2)) with
    | .error e => [.fault e]
    | .ok (k, true) => .leaf (k.expr fold) :: lexemes fold none rest
    | .ok (k, false) => lexemes fold (some k) rest

end Pattern

end ScrapeConfig
