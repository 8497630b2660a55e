import ScrapeConfig.Pattern.Basic

/-!
# The longest match of several patterns

All patterns of a set read the input side by side, each on a lane of its own, until every lane is
dead or the input ends. The longest match wins, and of matches of the same length the one of the
pattern that comes first. A match of the empty text never wins.
-/

namespace ScrapeConfig

/-- A pattern, by its index, and the number of code points that it matched. -/
structure Match where
  pattern : Nat
  length : Nat
  deriving DecidableEq, Repr, Inhabited

namespace Match

/-- The better one of the best match so far and a new one. -/
def better (best : Option Match) (pattern length : Nat) : Option Match :=
  if length = 0 then best
  else match best with
    | none => some ⟨pattern, length⟩
    | some m =>
      if m.length < length ∨ (m.length = length ∧ pattern < m.pattern) then some ⟨pattern, length⟩
      else some m

end Match

namespace Race

/-- The state of a pattern's automaton, or none once the pattern can match no more. -/
abbrev Lane := Option Nat

/-- The lanes before the first symbol; `^` holds only at the start of the input. -/
def lanes (automata : List Automaton) (fresh : Bool) : List Lane :=
  automata.map fun a => some (if fresh then a.opening else Automaton.start)

/-- Lets every lane read `c`. -/
def advance (c : Char) (automata : List Automaton) (ls : List Lane) : List Lane :=
  automata.zipWith (fun a l => l.bind (a.next? · c)) ls

/-- Enters every lane that satisfies `won` as a match of the given length. The patterns are counted
from `index` on. -/
def judge (won : Automaton → Nat → Bool) (length : Nat) :
    (index : Nat) → List Automaton → List Lane → Option Match → Option Match
  | index, a :: as, l :: ls, best =>
    let best := if l.any (won a) then Match.better best index length else best
    judge won length (index + 1) as ls best
  | _, _, _, best => best

/-- Whether a match that `$` completes ends here. -/
def wonAtEnd (a : Automaton) (state : Nat) : Bool :=
  (a.onEnd? state).any a.isAccepting

/-- Continues a race in which `count` symbols have been read. -/
def run (automata : List Automaton) :
    (ls : List Lane) → (count : Nat) → (best : Option Match) → List Char → Option Match
  | ls, count, best, [] => judge wonAtEnd count 0 automata ls best
  | ls, count, best, c :: rest =>
    let ls := advance c automata ls
    let best := judge Automaton.isAccepting (count + 1) 0 automata ls best
    if ls.any Option.isSome then run automata ls (count + 1) best rest else best

end Race

/-- The longest match that is not empty at the front of `rest`; `fresh` says that nothing stands
before it in the input. -/
def PatternSet.longestMatch (set : PatternSet) (fresh : Bool) (rest : List Char) : Option Match :=
  let automata := set.patterns.map (·.automaton)
  Race.run automata (Race.lanes automata fresh) 0 none rest

namespace Race

theorem better_pos {best : Option Match} {pattern length : Nat}
    (h : ∀ m, best = some m → 0 < m.length)
    {m : Match} (hm : Match.better best pattern length = some m) : 0 < m.length := by
  unfold Match.better at hm
  split at hm
  · exact h m hm
  · split at hm
    · cases hm; simp only; omega
    · split at hm
      · cases hm; simp only; omega
      · cases hm; exact h _ rfl

theorem judge_pos (won : Automaton → Nat → Bool) (length : Nat) (index : Nat) (as : List Automaton)
    (ls : List Lane) (best : Option Match) (h : ∀ m, best = some m → 0 < m.length)
    {m : Match} (hm : judge won length index as ls best = some m) : 0 < m.length := by
  induction as generalizing index ls best with
  | nil => simp only [judge] at hm; exact h m hm
  | cons a as ih =>
    cases ls with
    | nil => simp only [judge] at hm; exact h m hm
    | cons l ls =>
      simp only [judge] at hm
      refine ih _ _ _ (fun m hm => ?_) hm
      split at hm
      · exact better_pos h hm
      · exact h m hm

theorem run_pos (automata : List Automaton) (ls : List Lane) (count : Nat) (best : Option Match)
    (rest : List Char) (h : ∀ m, best = some m → 0 < m.length)
    {m : Match} (hm : run automata ls count best rest = some m) : 0 < m.length := by
  induction rest generalizing ls count best with
  | nil => exact judge_pos _ _ _ _ _ _ h hm
  | cons c rest ih =>
    simp only [run] at hm
    have hbest := fun m (hm : judge Automaton.isAccepting (count + 1) 0 automata
      (advance c automata ls) best = some m) => judge_pos _ _ _ _ _ _ h hm
    split at hm
    · exact ih _ _ _ hbest hm
    · exact hbest m hm

end Race

/-- A match is never empty. -/
theorem PatternSet.longestMatch_pos {set : PatternSet} {fresh : Bool} {rest : List Char} {m : Match}
    (h : set.longestMatch fresh rest = some m) : 0 < m.length :=
  Race.run_pos _ _ _ _ _ (by simp) h

end ScrapeConfig
