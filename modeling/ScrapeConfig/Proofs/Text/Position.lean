import Mathlib.Data.List.DropRight
import ScrapeConfig.Text.Position

/-!
# Positions by counting

A position is read off the text before it: its UTF-8 bytes, its line feeds, and the characters
behind its last line feed.

Results:
1. `Position.behind`: the place behind a text, by counting.
2. `Position.past_behind`: going on from there, character by character, counts the same.
3. `lastLine_append`, `Position.column_past`: behind a line feed, what stands further back does not
   matter.
-/

namespace ScrapeConfig

/-- Number of UTF-8 bytes of a text. -/
def byteLength : List Char → Nat
  | [] => 0
  | c :: cs => c.utf8Size + byteLength cs

@[simp] theorem byteLength_nil : byteLength [] = 0 := rfl

@[simp] theorem byteLength_cons (c : Char) (cs : List Char) :
    byteLength (c :: cs) = c.utf8Size + byteLength cs := rfl

theorem byteLength_append (xs ys : List Char) :
    byteLength (xs ++ ys) = byteLength xs + byteLength ys := by
  induction xs with
  | nil => exact (Nat.zero_add _).symm
  | cons c xs ih => rw [List.cons_append, byteLength_cons, byteLength_cons, ih, Nat.add_assoc]

/-- The characters behind the last line feed. -/
def lastLine (cs : List Char) : List Char := cs.rtakeWhile (· ≠ '\n')

theorem lastLine_concat (cs : List Char) (c : Char) :
    lastLine (cs ++ [c]) = if c = '\n' then [] else lastLine cs ++ [c] := by
  rw [lastLine, List.rtakeWhile_concat]
  split <;> simp_all [lastLine]

/-- Behind a line feed, what stands further back does not matter. -/
theorem lastLine_append {xs ys : List Char} (h : '\n' ∈ ys) :
    lastLine (xs ++ ys) = lastLine ys := by
  induction ys using List.reverseRecOn with
  | nil => cases h
  | append_singleton ys c ih =>
    rw [← List.append_assoc, lastLine_concat, lastLine_concat]
    by_cases hc : c = '\n'
    · rw [if_pos hc, if_pos hc]
    · have earlier : '\n' ∈ ys := by simpa [Ne.symm hc] using h
      rw [if_neg hc, if_neg hc, ih earlier]

theorem lastLine_append_congr {xs xs' : List Char} (h : lastLine xs = lastLine xs')
    (ys : List Char) : lastLine (xs ++ ys) = lastLine (xs' ++ ys) := by
  induction ys using List.reverseRecOn with
  | nil => rwa [List.append_nil, List.append_nil]
  | append_singleton ys c ih =>
    rw [← List.append_assoc, ← List.append_assoc, lastLine_concat, lastLine_concat, ih]

namespace Position

/-- The place behind a text with which a source begins. -/
def behind (before : List Char) : Position where
  offset := byteLength before
  line := 1 + before.count '\n'
  column := 1 + (lastLine before).length

@[simp] theorem behind_nil : behind [] = {} := rfl

theorem next_behind (before : List Char) (c : Char) :
    (behind before).next c = behind (before ++ [c]) := by
  rw [next, behind, behind, byteLength_append, lastLine_concat, List.count_append]
  by_cases hc : c = '\n'
  · subst hc
    simp [Nat.add_assoc]
  · simp [hc, Nat.add_assoc]

theorem past_behind (before cs : List Char) :
    (behind before).past cs = behind (before ++ cs) := by
  induction cs generalizing before with
  | nil => rw [past_nil, List.append_nil]
  | cons c cs ih => rw [past_cons, next_behind, ih, List.append_assoc, List.singleton_append]

/-- Behind a line feed, the column does not depend on where the text began. -/
theorem column_past {cs : List Char} (h : '\n' ∈ cs) (p : Position) :
    (p.past cs).column = 1 + (lastLine cs).length := by
  induction cs using List.reverseRecOn with
  | nil => cases h
  | append_singleton cs c ih =>
    rw [past_append, lastLine_concat]
    show (if c = '\n' then 1 else (p.past cs).column + 1) = _
    by_cases hc : c = '\n'
    · rw [if_pos hc, if_pos hc, List.length_nil]
    · have earlier : '\n' ∈ cs := by simpa [Ne.symm hc] using h
      rw [if_neg hc, if_neg hc, ih earlier, List.length_append, Nat.add_assoc]
      rfl

end Position

theorem Span.stop_covering (before text : List Char) :
    (covering (.behind before) text).stop = byteLength (before ++ text) := by
  show ((Position.behind before).past text).offset = _
  rw [Position.past_behind, Position.behind]

end ScrapeConfig
