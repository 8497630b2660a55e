import ScrapeConfig.Pattern.Reader
import ScrapeConfig.Pattern.Automaton

/-!
# Patterns

A pattern is compiled from its source once and then asked for the longest beginning of a text that
it matches.
-/

namespace ScrapeConfig

structure Pattern where
  source : String
  foldsCase : Bool
  expr : Expr
  automaton : Automaton
  deriving Inhabited

namespace Pattern

def compile (source : String) (fold : Bool) : Except PatternError Pattern := do
  let expr ← read source.toList fold
  return ⟨source, fold, expr, expr.machine.determinize⟩

/-- Runs an automaton that has read `count` symbols over the rest of the input. `best` is the
longest match so far. -/
def run (a : Automaton) : (state count : Nat) → (best : Option Nat) → List Char → Option Nat
  | _, _, best, [] => best
  | state, count, best, c :: rest => match a.next? state c with
    | none => best
    | some state =>
      let best := if a.accepts state rest.isEmpty then some (count + 1) else best
      run a state (count + 1) best rest

/-- Number of code points of the longest beginning of `input` that the pattern matches, where `^`
and `$` hold at the two ends of `input`. -/
def longestPrefix (p : Pattern) (input : List Char) : Option Nat :=
  let state := p.automaton.opening
  run p.automaton state 0 (if p.automaton.accepts state input.isEmpty then some 0 else none) input

end Pattern

/-- An ordered list of patterns: of two matches of the same length the pattern that comes first
wins. -/
structure PatternSet where
  patterns : List Pattern
  deriving Inhabited

namespace PatternSet

/-- Compiles sources in order, up to the first that is no pattern. -/
def compile (sources : List (String × Bool)) : Except PatternError PatternSet := do
  let patterns ← sources.mapM fun (source, fold) => Pattern.compile source fold
  return ⟨patterns⟩

end PatternSet

end ScrapeConfig
