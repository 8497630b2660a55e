import ScrapeConfig.Pattern.Expr
import ScrapeConfig.Pattern.StateSet

/-!
# Nondeterministic machines

Every pattern expression is laid out as a machine whose states are numbered from zero. An edge is
silent, reads one code point of a range, or may be taken at the start or at the end of the input.
-/

namespace ScrapeConfig

/-- What taking an edge asks for. -/
inductive Label where
  | silent
  | symbol (range : CodeRange)
  | startOfInput
  | endOfInput
  deriving DecidableEq, Repr

structure Edge where
  source : Nat
  label : Label
  target : Nat
  deriving DecidableEq, Repr

/-- A machine with one accepting state; its states are the numbers below `size`. -/
structure Machine where
  size : Nat
  start : Nat
  accept : Nat
  edges : List Edge
  deriving Repr

/-- The part of a machine that belongs to one expression; `next` is the first number that no state
of it has. -/
structure Fragment where
  start : Nat
  accept : Nat
  next : Nat
  edges : List Edge

/-- One fragment and behind it another one. -/
def Fragment.append (f g : Fragment) : Fragment :=
  ⟨f.start, g.accept, g.next, ⟨f.accept, .silent, g.start⟩ :: (f.edges ++ g.edges)⟩

mutual

/-- The machine part of an expression, with states numbered from `n` on. -/
def Expr.fragment : Expr → (n : Nat) → Fragment
  | .empty, n => ⟨n, n, n + 1, []⟩
  | .symbols ranges, n => ⟨n, n + 1, n + 2, ranges.map fun r => ⟨n, .symbol r, n + 1⟩⟩
  | .startAnchor, n => ⟨n, n + 1, n + 2, [⟨n, .startOfInput, n + 1⟩]⟩
  | .endAnchor, n => ⟨n, n + 1, n + 2, [⟨n, .endOfInput, n + 1⟩]⟩
  | .seq es, n => Expr.inSeries es n
  | .alt es, n => Expr.inParallel n (n + 1) es (n + 2)
  | .star a, n =>
    let f := a.fragment (n + 2)
    ⟨n, n + 1, f.next,
      [⟨n, .silent, f.start⟩, ⟨f.accept, .silent, n + 1⟩,
        ⟨n, .silent, n + 1⟩, ⟨f.accept, .silent, f.start⟩] ++ f.edges⟩
  | .plus a, n =>
    let f := a.fragment (n + 2)
    ⟨n, n + 1, f.next,
      [⟨n, .silent, f.start⟩, ⟨f.accept, .silent, n + 1⟩, ⟨f.accept, .silent, f.start⟩] ++ f.edges⟩
  | .opt a, n =>
    let f := a.fragment (n + 2)
    ⟨n, n + 1, f.next,
      [⟨n, .silent, f.start⟩, ⟨f.accept, .silent, n + 1⟩, ⟨n, .silent, n + 1⟩] ++ f.edges⟩

/-- The items of a sequence, one behind the other. -/
def Expr.inSeries : List Expr → (n : Nat) → Fragment
  | [], n => ⟨n, n, n + 1, []⟩
  | [e], n => e.fragment n
  | e :: es, n => (e.fragment n).append (Expr.inSeries es (e.fragment n).next)

/-- The branches of an alternation, side by side between the states `start` and `accept`. -/
def Expr.inParallel (start accept : Nat) : List Expr → (n : Nat) → Fragment
  | [], n => ⟨start, accept, n, []⟩
  | e :: es, n =>
    let f := e.fragment n
    let rest := Expr.inParallel start accept es f.next
    ⟨start, accept, rest.next,
      ⟨start, .silent, f.start⟩ :: ⟨f.accept, .silent, accept⟩ :: (f.edges ++ rest.edges)⟩

end

/-- The machine of an expression. -/
def Expr.machine (e : Expr) : Machine :=
  let f := e.fragment 0
  ⟨f.next, f.start, f.accept, f.edges⟩

namespace Machine

/-- For every state those that an edge leads to whose label `free` admits. -/
def links (m : Machine) (free : Label → Bool) : Array (List Nat) :=
  m.edges.foldr
    (fun e links => if free e.label then links.modify e.source (e.target :: ·) else links)
    (Array.replicate m.size [])

/-- For every state the symbols that can be read there and where they lead to. -/
def symbols (m : Machine) : Array (List (CodeRange × Nat)) :=
  m.edges.foldr
    (fun e symbols => match e.label with
      | .symbol r => symbols.modify e.source ((r, e.target) :: ·)
      | _ => symbols)
    (Array.replicate m.size [])

/-- The edges with one label, from their sources to their targets. -/
def edgesWith (m : Machine) (label : Label) : List (Nat × Nat) :=
  m.edges.filterMap fun e => if e.label = label then some (e.source, e.target) else none

end Machine

namespace StateSet

/-- Adds the states of `todo` and everything that the links lead to from them. -/
def reach (links : Array (List Nat)) : (fuel : Nat) → (todo : List Nat) → StateSet → StateSet
  | 0, _, s => s
  | _ + 1, [], s => s
  | fuel + 1, i :: todo, s =>
    if s.contains i then reach links fuel todo s
    else reach links fuel (links[i]?.getD [] ++ todo) (s.insert i)

/-- Adds states to a set, and everything that the links lead to from them without passing the set.
The links of a state are followed once, so no more states come up than the given ones and the
targets of all links. -/
def extend (links : Array (List Nat)) (states : List Nat) (s : StateSet) : StateSet :=
  reach links (states.length + links.foldl (fun n targets => n + targets.length) 0 + 1) states s

/-- The states and everything that the links lead to from them. -/
def closure (links : Array (List Nat)) (states : List Nat) : StateSet :=
  extend links states empty

end StateSet

end ScrapeConfig
