import ScrapeConfig.Pattern.Lexeme

/-!
# From lexemes to a pattern expression

Groups nest, so the reader keeps the groups that are still open, the innermost first. A quantifier
applies to the item just before it in its own branch.
-/

namespace ScrapeConfig.Pattern

/-- A group under construction: its finished branches and the items of the current one, the latest
first in both. -/
structure OpenGroup where
  start : Nat := 0
  branches : List Expr := []
  items : List Expr := []

namespace OpenGroup

def push (g : OpenGroup) (e : Expr) : OpenGroup :=
  { g with items := e :: g.items }

/-- Ends the current branch and begins another one. -/
def branch (g : OpenGroup) : OpenGroup :=
  { g with branches := .sequence g.items.reverse :: g.branches, items := [] }

def expr (g : OpenGroup) : Expr :=
  .choice g.branch.branches.reverse

end OpenGroup

/-- Reads lexemes into the group `g`, which stands inside the groups `outer`. -/
def assemble : (outer : List OpenGroup) → (g : OpenGroup) → List Lexeme → Except PatternError Expr
  | [], g, [] => .ok g.expr
  | _ :: _, g, [] => .error ⟨g.start, .unclosedGroup⟩
  | outer, g, .leaf e :: rest => assemble outer (g.push e) rest
  | outer, g, .openGroup n :: rest => assemble (g :: outer) ⟨n, [], []⟩ rest
  | [], _, .closeGroup n :: _ => .error ⟨n, .unmatched ')'⟩
  | g' :: outer, g, .closeGroup _ :: rest => assemble outer (g'.push g.expr) rest
  | outer, g, .bar :: rest => assemble outer g.branch rest
  | outer, g, .repeated how n :: rest => match g.items with
    | [] => .error ⟨n, .nothingToRepeat how.symbol⟩
    | e :: es => assemble outer { g with items := how.apply e :: es } rest
  | _, _, .fault e :: _ => .error e

/-- The expression that a pattern source stands for; `fold` makes ASCII letters match either
case. -/
def read (source : List Char) (fold : Bool) : Except PatternError Expr :=
  if source.isEmpty then .error ⟨0, .emptySource⟩
  else assemble [] {} (lexemes fold none (glyphs 0 source))

end ScrapeConfig.Pattern
