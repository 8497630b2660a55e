import Mathlib.Data.List.Basic
import ScrapeConfig.Layout.Tracker

/-!
# Open blocks

The rule of indentation, said of the blocks that are open and without a tracker. A line on a higher
level opens a block, a line on the same level goes on with it, and a line on a lower level closes
blocks until it finds its own level or has gone past it.

Results:
1. `Boundary.crossing`: the boundaries in front of a line. `Boundary.crossing_eq` says how they end.
2. `Boundary.track`: the blocks that are open behind a boundary.
3. `Tracker.Holds`: a tracker knows which blocks are open; `Tracker.pending_moveTo` and
   `Tracker.levels_moveTo` say that it goes by the rule, `Tracker.pending_finish` that it closes all
   blocks at the end.
-/

namespace ScrapeConfig

namespace Boundary

/-- The boundaries in front of a line of level `n` that is no block of its own: open blocks are
closed, the innermost first, as long as they are above the line. -/
def leaving (n : Nat) : (blocks : List Nat) → List Boundary
  | [] => [if n = 0 then .sameLevel 0 else .badIndent 0]
  | level :: blocks =>
    if n < level then .blockClose level :: leaving n blocks
    else [if n = level then .sameLevel level else .badIndent level]

/-- The boundaries in front of a line of level `n`, where the levels of the open blocks are given
with the innermost first. -/
def crossing (n : Nat) (blocks : List Nat) : List Boundary :=
  if blocks.headD 0 < n then [.blockOpen n] else leaving n blocks

/-- The open blocks behind a boundary. -/
def track (blocks : List Nat) : Boundary → List Nat
  | .blockOpen level => level :: blocks
  | .blockClose _ => blocks.tail
  | .sameLevel _ => blocks
  | .badIndent _ => blocks

/-- How the boundaries in front of a line of level `n` end: on its level, or below it. -/
def Arrives (n : Nat) : Boundary → Prop
  | .blockOpen level => level = n
  | .sameLevel level => level = n
  | .badIndent level => level < n
  | .blockClose _ => False

theorem leaving_eq (n : Nat) (blocks : List Nat) :
    ∃ closed last, leaving n blocks = closed ++ [last] ∧ last.Arrives n := by
  induction blocks with
  | nil =>
    refine ⟨[], _, rfl, ?_⟩
    split
    · next h => exact h.symm
    · next h => exact Nat.pos_of_ne_zero h
  | cons level blocks ih =>
    rw [leaving]
    split
    · obtain ⟨closed, last, heq, arrives⟩ := ih
      exact ⟨.blockClose level :: closed, last, by rw [heq, List.cons_append], arrives⟩
    · next above =>
      refine ⟨[], _, rfl, ?_⟩
      split
      · next h => exact h.symm
      · next h => exact Nat.lt_of_le_of_ne (Nat.le_of_not_lt above) (Ne.symm h)

theorem crossing_eq (n : Nat) (blocks : List Nat) :
    ∃ closed last, crossing n blocks = closed ++ [last] ∧ last.Arrives n := by
  rw [crossing]
  split
  · exact ⟨[], _, rfl, rfl⟩
  · exact leaving_eq n blocks

theorem leaving_headD (blocks : List Nat) :
    leaving (blocks.headD 0) blocks = [.sameLevel (blocks.headD 0)] := by
  cases blocks with
  | nil => rfl
  | cons level blocks =>
    show leaving level (level :: blocks) = _
    rw [leaving, if_neg (Nat.lt_irrefl level), if_pos rfl]
    rfl

end Boundary

namespace Tracker

open Boundary (leaving crossing track)

/-- No boundary waits, and the levels of the tracker are those of the open blocks, with level zero
around them. -/
structure Holds (t : Tracker) (blocks : List Nat) : Prop where
  pending : t.pending = []
  levels : t.level :: t.enclosing = blocks ++ [0]

theorem holds_empty : Holds {} [] := ⟨rfl, rfl⟩

variable {t : Tracker} {blocks : List Nat}

theorem Holds.headD (h : t.Holds blocks) : blocks.headD 0 = t.level := by
  have levels := h.levels
  cases blocks with
  | nil => exact (List.cons.inj levels).1.symm
  | cons level blocks => exact (List.cons.inj levels).1.symm

/-- Leaving blocks goes by the rule, by induction on the open blocks. -/
theorem leave_eq {n level level' : Nat} {enclosing enclosing' : List Nat} {bs : List Boundary}
    (h : level :: enclosing = blocks ++ [0])
    (hleave : leave n level enclosing = (bs, level', enclosing')) :
    leaving n blocks = bs ++ [if n = level' then .sameLevel level' else .badIndent level'] ∧
      level' :: enclosing' = (leaving n blocks).foldl track blocks ++ [0] := by
  induction blocks generalizing level enclosing bs with
  | nil =>
    obtain ⟨rfl, rfl⟩ := List.cons.inj h
    rw [leave, Prod.mk.injEq, Prod.mk.injEq] at hleave
    obtain ⟨rfl, rfl, rfl⟩ := hleave
    refine ⟨rfl, ?_⟩
    rw [leaving]
    split <;> rfl
  | cons inner blocks ih =>
    obtain ⟨rfl, behind⟩ := List.cons.inj h
    obtain ⟨outer, rest, rfl⟩ : ∃ outer rest, enclosing = outer :: rest :=
      List.exists_cons_of_ne_nil
        (behind ▸ List.append_ne_nil_of_right_ne_nil _ (List.cons_ne_nil _ _))
    rw [leave] at hleave
    rw [leaving]
    split at hleave
    · next above =>
      rcases hrest : leave n outer rest with ⟨bs₁, level₁, enclosing₁⟩
      rw [hrest, Prod.mk.injEq, Prod.mk.injEq] at hleave
      obtain ⟨rfl, rfl, rfl⟩ := hleave
      obtain ⟨boundaries, levels⟩ := ih behind hrest
      rw [if_pos above]
      exact ⟨congrArg (Boundary.blockClose level :: ·) boundaries, levels⟩
    · next below =>
      rw [Prod.mk.injEq, Prod.mk.injEq] at hleave
      obtain ⟨rfl, rfl, rfl⟩ := hleave
      rw [if_neg below]
      refine ⟨rfl, ?_⟩
      rw [behind]
      split <;> rfl

/-- A tracker queues what the rule says. -/
theorem pending_moveTo (h : t.Holds blocks) (n : Nat) :
    (t.moveTo n).pending = crossing n blocks := by
  rw [moveTo, crossing, h.headD, h.pending]
  split
  · rfl
  · split
    · next level =>
      rw [level, ← h.headD, Boundary.leaving_headD]
      rfl
    · exact (leave_eq h.levels rfl).1.symm

/-- And it then knows which blocks are open. -/
theorem levels_moveTo (h : t.Holds blocks) (n : Nat) :
    (t.moveTo n).level :: (t.moveTo n).enclosing =
      (crossing n blocks).foldl track blocks ++ [0] := by
  rw [moveTo, crossing, h.headD]
  split
  · exact congrArg (n :: ·) h.levels
  · split
    · next level =>
      rw [level, ← h.headD, Boundary.leaving_headD]
      exact h.headD ▸ h.levels
    · exact (leave_eq h.levels rfl).2

theorem closeAll_eq {level : Nat} {enclosing : List Nat} (h : level :: enclosing = blocks ++ [0]) :
    (finish.closeAll level enclosing).1 = blocks.map .blockClose := by
  induction blocks generalizing level enclosing with
  | nil =>
    obtain ⟨rfl, rfl⟩ := List.cons.inj h
    rfl
  | cons inner blocks ih =>
    obtain ⟨rfl, behind⟩ := List.cons.inj h
    obtain ⟨outer, rest, rfl⟩ : ∃ outer rest, enclosing = outer :: rest :=
      List.exists_cons_of_ne_nil
        (behind ▸ List.append_ne_nil_of_right_ne_nil _ (List.cons_ne_nil _ _))
    exact congrArg (Boundary.blockClose level :: ·) (ih behind)

/-- At the end every open block is closed. -/
theorem pending_finish (h : t.Holds blocks) : t.finish.pending = blocks.map .blockClose := by
  show t.pending ++ (finish.closeAll t.level t.enclosing).1 = _
  rw [h.pending, closeAll_eq h.levels]
  rfl

end Tracker

end ScrapeConfig
