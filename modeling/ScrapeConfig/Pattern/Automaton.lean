import ScrapeConfig.Decimal.Power
import ScrapeConfig.Pattern.Machine

/-!
# Deterministic automata

An automaton is built from a machine by the subset construction: each of its states stands for a
set of machine states. State 0 is the start state, and further states are numbered in the order in
which they are met when the states are worked through one after the other: first the targets of
the symbols in ascending order, then the target of the start anchor, then that of the end anchor.

The two anchors are transitions of their own, taken between symbols: `^` before the first symbol
of the input, `$` behind its last one.
-/

namespace ScrapeConfig

/-- A way to leave a state by reading a symbol of a range. -/
structure Transition where
  range : CodeRange
  target : Nat
  deriving DecidableEq, Repr, Inhabited

structure AutomatonState where
  accepting : Bool
  /-- Sorted by their ranges, which are disjoint. -/
  transitions : Array Transition
  onStart : Option Nat
  onEnd : Option Nat
  deriving DecidableEq, Repr, Inhabited

structure Automaton where
  states : Array AutomatonState
  deriving DecidableEq, Repr, Inhabited

namespace Transition

/-- Binary search for the transition on `c` among those with an index from `lo` to below `hi`. -/
def search (ts : Array Transition) (c : Nat) : (fuel lo hi : Nat) → Option Transition
  | 0, _, _ => none
  | fuel + 1, lo, hi =>
    if lo < hi then
      let mid := (lo + hi) / 2
      match ts[mid]? with
      | none => none
      | some t =>
        if t.range.hi < c then search ts c fuel (mid + 1) hi
        else if c < t.range.lo then search ts c fuel lo mid
        else some t
    else none

/-- The transition on `c`; each step of the search drops one transition at least. -/
def find? (ts : Array Transition) (c : Nat) : Option Transition :=
  search ts c ts.size 0 ts.size

end Transition

namespace Automaton

def start : Nat := 0

def size (a : Automaton) : Nat := a.states.size

def isAccepting (a : Automaton) (state : Nat) : Bool :=
  match a.states[state]? with
  | some s => s.accepting
  | none => false

/-- The state after reading `c`, if the pattern can still match. -/
def next? (a : Automaton) (state : Nat) (c : Char) : Option Nat := do
  let s ← a.states[state]?
  let t ← Transition.find? s.transitions c.toNat
  return t.target

/-- The state after passing every `^` that can be passed here. -/
def onStart? (a : Automaton) (state : Nat) : Option Nat := do
  (← a.states[state]?).onStart

/-- The state after passing every `$` that can be passed here. -/
def onEnd? (a : Automaton) (state : Nat) : Option Nat := do
  (← a.states[state]?).onEnd

/-- The state at the start of the input, behind the start anchors if there are any. -/
def opening (a : Automaton) : Nat :=
  (a.onStart? start).getD start

/-- Whether the text read so far is matched when `state` is reached; `atEnd` says that nothing is
left to read. -/
def accepts (a : Automaton) (state : Nat) (atEnd : Bool) : Bool :=
  a.isAccepting state || (atEnd && match a.onEnd? state with
    | some s => a.isAccepting s
    | none => false)

end Automaton

namespace Subset

/-- Adds a code point to a strictly ascending list. -/
def insertCut (c : Nat) : List Nat → List Nat
  | [] => [c]
  | d :: ds => if c < d then c :: d :: ds else if c = d then d :: ds else d :: insertCut c ds

/-- The code points at which some range begins or has just ended. -/
def cuts (ranges : List CodeRange) : List Nat :=
  ranges.foldr (fun r cs =>
    insertCut r.lo (if r.hi < CodeRange.last then insertCut (r.hi + 1) cs else cs)) []

/-- The stretches between neighbouring cuts and behind the last one. Every range lies over a
stretch entirely or not at all. -/
def stretches : List Nat → List CodeRange
  | [] => []
  | [c] => [⟨c, CodeRange.last⟩]
  | c :: d :: rest => ⟨c, d - 1⟩ :: stretches (d :: rest)

/-- What the construction needs to know of a machine. -/
structure Source where
  accept : Nat
  /-- For every state the symbols read there and their targets. -/
  symbols : Array (List (CodeRange × Nat))
  /-- For every state the targets of its silent edges. -/
  silent : Array (List Nat)

/-- One of the two anchors: its edges, and for every state the targets of silent edges and of edges
for this anchor. -/
structure Anchor where
  edges : List (Nat × Nat)
  links : Array (List Nat)

/-- The machine states reached from `s` by the symbols of each stretch, where there are any. -/
def moves (m : Source) (s : StateSet) : List (CodeRange × StateSet) :=
  let open_ := s.toList.flatMap fun i => m.symbols[i]?.getD []
  (stretches (cuts (open_.map (·.1)))).filterMap fun r =>
    match (open_.filter fun e => e.1.lo ≤ r.lo && r.hi ≤ e.1.hi).map (·.2) with
    | [] => none
    | targets => some (r, .closure m.silent targets)

/-- The number of `s` among the sets met so far, which it joins if it is new. -/
def intern (sets : Array StateSet) (s : StateSet) : Nat × Array StateSet :=
  match sets.idxOf? s with
  | some i => (i, sets)
  | none => (sets.size, sets.push s)

/-- Numbers the targets of a list of moves in their order. -/
def internMoves (sets : Array StateSet) :
    List (CodeRange × StateSet) → List Transition × Array StateSet
  | [] => ([], sets)
  | (r, s) :: rest =>
    let (i, sets) := intern sets s
    let (ts, sets) := internMoves sets rest
    (⟨r, i⟩ :: ts, sets)

/-- Joins neighbouring ranges that touch and lead to the same state. -/
def join : List Transition → List Transition
  | [] => []
  | t :: ts => match join ts with
    | u :: us =>
      if u.target = t.target ∧ t.range.hi + 1 = u.range.lo then
        ⟨⟨t.range.lo, u.range.hi⟩, t.target⟩ :: us
      else t :: u :: us
    | [] => [t]

/-- The number of the set that passing an anchor any number of times leads to, unless it leads
nowhere new. The set has to be closed under silent edges. -/
def internAnchor (sets : Array StateSet) (anchor : Anchor) (s : StateSet) :
    Option Nat × Array StateSet :=
  let targets := anchor.edges.filterMap fun (source, target) =>
    if s.contains source then some target else none
  let t := s.extend anchor.links targets
  if t = s then (none, sets)
  else
    let (i, sets) := intern sets t
    (some i, sets)

/-- The automaton state that stands for the set `s`, and the sets met up to then. -/
def expand (m : Source) (onStart onEnd : Anchor) (s : StateSet) (sets : Array StateSet) :
    AutomatonState × Array StateSet :=
  let (ts, sets) := internMoves sets (moves m s)
  let (start, sets) := internAnchor sets onStart s
  let (stop, sets) := internAnchor sets onEnd s
  (⟨s.contains m.accept, (join ts).toArray, start, stop⟩, sets)

/-- Works through the sets in the order of their numbers until none is left. -/
def explore (m : Source) (onStart onEnd : Anchor) :
    (fuel : Nat) → (sets : Array StateSet) → (done : Array AutomatonState) → Array AutomatonState
  | 0, _, done => done
  | fuel + 1, sets, done => match sets[done.size]? with
    | none => done
    | some s =>
      let (state, sets) := expand m onStart onEnd s sets
      explore m onStart onEnd fuel sets (done.push state)

end Subset

/-- One of the two anchors of a machine. -/
def Machine.anchor (m : Machine) (label : Label) : Subset.Anchor :=
  ⟨m.edgesWith label, m.links fun l => l == .silent || l == label⟩

/-- The automaton that accepts what the machine accepts. It has no more states than there are sets
of machine states. -/
def Machine.determinize (m : Machine) : Automaton :=
  let source : Subset.Source := ⟨m.accept, m.symbols, m.links (· == .silent)⟩
  let first := .closure source.silent [m.start]
  ⟨Subset.explore source (m.anchor .startOfInput) (m.anchor .endOfInput) (twoTo m.size)
    #[first] #[]⟩

end ScrapeConfig
