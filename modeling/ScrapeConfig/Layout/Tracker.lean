/-!
# Indentation

The white space that follows a line break announces a level of indentation. The tracker compares it
with the current level and queues the block boundaries that lie between the two, which are taken
out one at a time in the order in which they were queued.
-/

namespace ScrapeConfig

/-- A block boundary and the level that it stands for. -/
inductive Boundary where
  | blockOpen (level : Nat)
  | sameLevel (level : Nat)
  | blockClose (level : Nat)
  | badIndent (level : Nat)
  deriving DecidableEq, Repr

namespace Boundary

def name : Boundary → String
  | .blockOpen _ => "BLOCK_OPEN"
  | .sameLevel _ => "SAME_LEVEL"
  | .blockClose _ => "BLOCK_CLOSE"
  | .badIndent _ => "BAD_INDENT"

def level : Boundary → Nat
  | .blockOpen l => l
  | .sameLevel l => l
  | .blockClose l => l
  | .badIndent l => l

end Boundary

/-- The current level, the levels around it with the nearest first, and the boundaries that wait to
be taken. -/
structure Tracker where
  level : Nat := 0
  enclosing : List Nat := []
  pending : List Boundary := []
  deriving DecidableEq, Repr, Inhabited

namespace Tracker

/-- Number of open blocks. -/
def depth (t : Tracker) : Nat := t.enclosing.length

/-- The level that white space announces: what follows its last line break, or all but its first
character if it has none. -/
def measure (space : List Char) : Nat :=
  if '\n' ∈ space then (space.reverse.takeWhile (· ≠ '\n')).length else space.length - 1

/-- Leaves blocks for as long as the level is above `target`: the closing boundaries, and the level
and the enclosing levels that remain. -/
def leave (target : Nat) : (level : Nat) → (enclosing : List Nat) → List Boundary × Nat × List Nat
  | level, [] => ([], level, [])
  | level, outer :: rest =>
    if target < level then
      let (bs, level', rest') := leave target outer rest
      (.blockClose level :: bs, level', rest')
    else ([], level, outer :: rest)

/-- Moves to level `n`. -/
def moveTo (t : Tracker) (n : Nat) : Tracker :=
  if t.level < n then
    ⟨n, t.level :: t.enclosing, t.pending ++ [.blockOpen n]⟩
  else if n = t.level then
    { t with pending := t.pending ++ [.sameLevel n] }
  else
    let (bs, level, enclosing) := leave n t.level t.enclosing
    let last := if n = level then Boundary.sameLevel level else .badIndent level
    ⟨level, enclosing, t.pending ++ bs ++ [last]⟩

/-- Queues the boundaries for the white space in front of a line. -/
def indent (t : Tracker) (space : List Char) : Tracker :=
  t.moveTo (measure space)

/-- The tracker with the boundaries that collected white space announces, if some was collected. -/
def across (t : Tracker) : Option (List Char) → Tracker
  | some space => t.indent space
  | none => t

/-- Closes every open block. -/
def finish (t : Tracker) : Tracker :=
  let (bs, level) := closeAll t.level t.enclosing
  ⟨level, [], t.pending ++ bs⟩
where
  closeAll : (level : Nat) → (enclosing : List Nat) → List Boundary × Nat
    | level, [] => ([], level)
    | level, outer :: rest =>
      let (bs, last) := closeAll outer rest
      (.blockClose level :: bs, last)

/-- Takes the boundary that has waited longest. -/
def takeNext (t : Tracker) : Option Boundary × Tracker :=
  match t.pending with
  | [] => (none, t)
  | b :: bs => (some b, { t with pending := bs })

/-- Takes every boundary that waits. -/
def takeAll (t : Tracker) : List Boundary × Tracker :=
  (t.pending, { t with pending := [] })

/-- The boundaries that wait, and one for every block that is open. -/
def load (t : Tracker) : Nat := t.pending.length + t.depth

theorem length_leave {n level level' : Nat} {enclosing enclosing' : List Nat} {bs : List Boundary}
    (h : leave n level enclosing = (bs, level', enclosing')) :
    bs.length + enclosing'.length = enclosing.length := by
  induction enclosing generalizing level bs with
  | nil =>
    rw [leave, Prod.mk.injEq, Prod.mk.injEq] at h
    obtain ⟨rfl, rfl, rfl⟩ := h
    rfl
  | cons outer rest ih =>
    rw [leave] at h
    split at h
    · rcases hrest : leave n outer rest with ⟨bs₁, level₁, enclosing₁⟩
      rw [hrest, Prod.mk.injEq, Prod.mk.injEq] at h
      obtain ⟨rfl, rfl, rfl⟩ := h
      have further := ih hrest
      simp only [List.length_cons]
      omega
    · rw [Prod.mk.injEq, Prod.mk.injEq] at h
      obtain ⟨rfl, rfl, rfl⟩ := h
      exact Nat.zero_add _

/-- A line announces one boundary and opens one block at most, beside the blocks that it closes. -/
theorem load_moveTo (t : Tracker) (n : Nat) : (t.moveTo n).load ≤ t.load + 2 := by
  rw [moveTo]
  split
  · simp only [load, depth, List.length_append, List.length_cons, List.length_nil]
    omega
  · split
    · simp only [load, depth, List.length_append, List.length_cons, List.length_nil]
      omega
    · rcases left : leave n t.level t.enclosing with ⟨bs, level, enclosing⟩
      have length := length_leave left
      simp only [load, depth, List.length_append, List.length_cons, List.length_nil]
      omega

theorem load_across (t : Tracker) (run : Option (List Char)) :
    (t.across run).load ≤ t.load + 2 * run.toList.length := by
  cases run with
  | none => exact Nat.le_refl _
  | some space => exact t.load_moveTo (measure space)

theorem length_closeAll (level : Nat) (enclosing : List Nat) :
    (finish.closeAll level enclosing).1.length = enclosing.length := by
  induction enclosing generalizing level with
  | nil => rfl
  | cons outer rest ih => exact congrArg (· + 1) (ih outer)

theorem load_finish (t : Tracker) : t.finish.load = t.load := by
  simp only [finish, load, depth, List.length_append, length_closeAll, List.length_nil]
  omega

end Tracker

end ScrapeConfig
