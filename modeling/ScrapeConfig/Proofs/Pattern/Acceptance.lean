import ScrapeConfig.Proofs.Pattern.LongestPrefix

/-!
# The beginnings of an input that a pattern accepts

Which beginnings of an input are accepted is said by the automaton of a pattern, also for the empty
input, where the automaton and the expression of a pattern need not agree.

Results:
1. `Pattern.longestPrefix_longest`: the longest beginning that is accepted is the one that is found.
2. `Pattern.Sound.accepts_iff`: in an input that is not empty, what is accepted is what matches.
3. `Pattern.Sound.accepts_nil`: what is accepted of the empty input.
-/

namespace ScrapeConfig

open Relation (ReflTransGen)
open StateSet (Linked)

namespace Automaton

/-- The state behind a text, if the text can be read. -/
def after (a : Automaton) (st : Nat) : List Char → Option Nat
  | [] => some st
  | c :: cs => (a.next? st c).bind fun st => a.after st cs

theorem after_append (a : Automaton) (st : Nat) (u v : List Char) :
    a.after st (u ++ v) = (a.after st u).bind fun st => a.after st v := by
  induction u generalizing st with
  | nil => rfl
  | cons c u ih =>
    simp only [List.cons_append, after, ih]
    cases a.next? st c <;> rfl

end Automaton

namespace Pattern

/-- The pattern accepts the first `n` code points of the input; `$` holds behind them if nothing is
left. -/
def Accepts (p : Pattern) (input : List Char) (n : Nat) : Prop :=
  n ≤ input.length ∧ ∃ st, p.automaton.after p.automaton.opening (input.take n) = some st ∧
    p.automaton.accepts st (n = input.length)

variable {p : Pattern} {w : List Char}

/-- The state reached at position `k`, if there is one. -/
def Lane (p : Pattern) (w : List Char) (k : Nat) (lane : Option Nat) : Prop :=
  p.automaton.after p.automaton.opening (w.take k) = lane

theorem Lane.next {k : Nat} {lane : Option Nat} {c : Char} (h : p.Lane w k lane)
    (hc : w[k]? = some c) : p.Lane w (k + 1) (lane.bind fun st => p.automaton.next? st c) := by
  have split : w.take (k + 1) = w.take k ++ [c] := by rw [List.take_add_one, hc, Option.toList_some]
  rw [Lane, split, Automaton.after_append, show p.automaton.after _ _ = lane from h]
  congr 1
  funext st
  rw [Automaton.after]
  cases p.automaton.next? st c <;> rfl

/-- No longer beginning can be read either. -/
theorem Lane.dead {k m : Nat} (h : p.Lane w k none) (hkm : k ≤ m) : ¬ p.Accepts w m := by
  rintro ⟨_, st, here, _⟩
  have split : w.take m = w.take k ++ (w.take m).drop k := by
    conv_lhs => rw [← List.take_append_drop k (w.take m), List.take_take, Nat.min_eq_left hkm]
  rw [split, Automaton.after_append, show p.automaton.after _ _ = none from h] at here
  cases here

theorem Lane.accepts_iff {k st : Nat} (h : p.Lane w k (some st)) (hk : k ≤ w.length) :
    p.automaton.accepts st (k = w.length) ↔ p.Accepts w k := by
  constructor
  · exact fun accepted => ⟨hk, st, h, accepted⟩
  · rintro ⟨_, st', here, accepted⟩
    obtain rfl := Option.some.inj (h.symm.trans here)
    exact accepted

/-- A pattern finds the longest beginning that it accepts. -/
theorem longestPrefix_longest (p : Pattern) (w : List Char) :
    LongestUpTo (p.Accepts w) w.length (p.longestPrefix w) := by
  have opening : p.Lane w 0 (some p.automaton.opening) := by
    rw [Lane, List.take_zero]
    rfl
  have empty := opening.accepts_iff (Nat.zero_le _)
  have atEnd : w.isEmpty = decide (0 = w.length) := by
    rw [Bool.eq_iff_iff, List.isEmpty_iff, decide_eq_true_iff, @eq_comm _ 0, List.length_eq_zero_iff]
  rw [← atEnd] at empty
  exact run_greatest (fun _ _ _ here symbol => here.next symbol)
    (fun _ _ here later => here.dead later) (fun _ _ here hk => here.accepts_iff hk) rfl
    (Nat.zero_le _) opening (.zero _ empty)

/-- Patterns that accept the same beginnings of two inputs of one length find the same. -/
theorem longestPrefix_congr {p' : Pattern} {w' : List Char} (length : w.length = w'.length)
    (same : ∀ n, p.Accepts w n ↔ p'.Accepts w' n) : p.longestPrefix w = p'.longestPrefix w' := by
  have left := (p.longestPrefix_longest w).isGreatest
  have right := (p'.longestPrefix_longest w').isGreatest
  simp only [← length, ← same] at right
  exact Option.ext fun n => (left n).trans (right n).symm

namespace Sound

theorem tracks (h : p.Sound) (hw : w ≠ []) {k : Nat} (hk : k ≤ w.length) {lane : Option Nat}
    (here : p.Lane w k lane) : p.expr.Tracks true w k lane := by
  induction k generalizing lane with
  | zero =>
    rw [Lane, List.take_zero] at here
    obtain rfl : some p.automaton.opening = lane := here
    rw [h.automaton]
    exact Expr.tracks_opening h.valid hw
  | succ k ih =>
    have next := ih (Nat.le_of_succ_le hk) rfl |>.next h.valid (List.getElem?_eq_getElem hk)
    obtain rfl : _ = lane := ((Lane.next rfl (List.getElem?_eq_getElem hk)).symm.trans here)
    rw [h.automaton] at next ⊢
    exact next

theorem accepts_iff (h : p.Sound) (hw : w ≠ []) {n : Nat} :
    p.Accepts w n ↔ p.expr.Matches true w 0 n := by
  constructor
  · rintro ⟨hn, st, here, accepted⟩
    rw [h.automaton] at accepted
    exact ((h.tracks hw hn here).accepts_iff h.valid hw hn).mp accepted
  · intro matched
    have hn := matched.mono.2 (Nat.zero_le _)
    cases lane : p.automaton.after p.automaton.opening (w.take n) with
    | none => exact ((h.tracks hw hn lane).not_matches (Nat.le_refl n) matched).elim
    | some st =>
      refine ⟨hn, st, lane, ?_⟩
      rw [h.automaton]
      exact ((h.tracks hw hn lane).accepts_iff h.valid hw hn).mpr matched

/-- On the empty input all start anchors are passed before all end anchors. -/
theorem accepts_nil (h : p.Sound) {n : Nat} :
    p.Accepts [] n ↔ n = 0 ∧ ∃ q,
      ReflTransGen (Linked (p.expr.machine.anchor .startOfInput).links) p.expr.machine.start q ∧
      ReflTransGen (Linked (p.expr.machine.anchor .endOfInput).links) q p.expr.machine.accept := by
  rw [← Machine.accepts_opening_atEnd (Expr.sound_machine h.valid), ← h.automaton]
  constructor
  · rintro ⟨hn, st, here, accepted⟩
    obtain rfl := Nat.le_zero.mp hn
    obtain rfl := Option.some.inj here
    exact ⟨rfl, accepted⟩
  · rintro ⟨rfl, accepted⟩
    exact ⟨Nat.le_refl 0, _, rfl, accepted⟩

end Sound

end Pattern

end ScrapeConfig
