import Mathlib.Order.Bounds.Basic
import ScrapeConfig.Proofs.Pattern.Ranges
import ScrapeConfig.Proofs.Pattern.Tracking

/-!
# The longest beginning of an input that a pattern matches

A compiled pattern finds the longest match of its expression at the front of any input that is not
empty, and finds nothing only if nothing matches there.

Results:
1. `Pattern.run_greatest`: what holds of the best match so far holds of it to the end of the run.
2. `Pattern.longestPrefix_isGreatest`: `Pattern.longestPrefix` is the greatest length of a match.
-/

namespace ScrapeConfig

/-- What a run knows when it has read `k` code points: the greatest length up to there that `M`
holds of, if there is any. -/
def LongestUpTo (M : Nat → Prop) (k : Nat) : Option Nat → Prop
  | none => ∀ m ≤ k, ¬ M m
  | some n => n ≤ k ∧ M n ∧ ∀ m ≤ k, M m → m ≤ n

namespace LongestUpTo

variable {M : Nat → Prop} {k : Nat} {best : Option Nat}

theorem zero (won : Bool) (h : won ↔ M 0) :
    LongestUpTo M 0 (if won then some 0 else none) := by
  cases won with
  | false =>
    intro m hm
    obtain rfl : m = 0 := by omega
    exact mt h.mpr (by decide)
  | true =>
    refine ⟨le_refl 0, h.mp rfl, ?_⟩
    intro m hm _
    exact hm

/-- One more code point has been read. -/
theorem succ (h : LongestUpTo M k best) (won : Bool) (hwon : won ↔ M (k + 1)) :
    LongestUpTo M (k + 1) (if won then some (k + 1) else best) := by
  cases won with
  | true =>
    refine ⟨le_refl _, hwon.mp rfl, ?_⟩
    intro m hm _
    exact hm
  | false =>
    have fails : ¬ M (k + 1) := mt hwon.mpr (by decide)
    cases best with
    | none =>
      intro m hm
      rcases Nat.lt_or_eq_of_le hm with hlt | rfl
      · exact h m (by omega)
      · exact fails
    | some n =>
      obtain ⟨hn, here, above⟩ := h
      refine ⟨by omega, here, ?_⟩
      intro m hm matched
      rcases Nat.lt_or_eq_of_le hm with hlt | rfl
      · exact above m (by omega) matched
      · exact absurd matched fails

/-- Nothing behind `k` matches, so that the rest of the input need not be read. -/
theorem extend (h : LongestUpTo M k best) {l : Nat} (hkl : k ≤ l)
    (dead : ∀ m, k < m → ¬ M m) : LongestUpTo M l best := by
  have early : ∀ m, M m → m ≤ k := fun m hm => Nat.le_of_not_lt fun hk => dead m hk hm
  cases best with
  | none => exact fun m _ matched => h m (early m matched) matched
  | some n => exact ⟨h.1.trans hkl, h.2.1, fun m _ matched => h.2.2 m (early m matched) matched⟩

theorem isGreatest (h : LongestUpTo M k best) (n : Nat) :
    best = some n ↔ IsGreatest {m | m ≤ k ∧ M m} n := by
  cases best with
  | none =>
    simp only [reduceCtorEq, false_iff]
    rintro ⟨⟨hn, matched⟩, _⟩
    exact h n hn matched
  | some b =>
    have greatest : IsGreatest {m | m ≤ k ∧ M m} b :=
      ⟨⟨h.1, h.2.1⟩, fun m hm => h.2.2 m hm.1 hm.2⟩
    constructor
    · rintro ⟨⟩
      exact greatest
    · intro other
      rw [greatest.unique other]

theorem eq_none_iff (h : LongestUpTo M k best) : best = none ↔ ∀ m ≤ k, ¬ M m := by
  cases best with
  | none => exact ⟨fun _ => h, fun _ => rfl⟩
  | some b =>
    simp only [reduceCtorEq, false_iff]
    exact fun none => none b h.1 h.2.1

end LongestUpTo

namespace Pattern

/-- A pattern whose automaton is the one of its expression. -/
structure Sound (p : Pattern) : Prop where
  valid : p.expr.Valid
  automaton : p.automaton = p.expr.machine.determinize

theorem compile_eq_ok {source : String} {fold : Bool} {p : Pattern} :
    compile source fold = .ok p ↔
      ∃ e, read source.toList fold = .ok e ∧ p = ⟨source, fold, e, e.machine.determinize⟩ := by
  unfold compile
  cases read source.toList fold with
  | error fault => simp [bind, Except.bind]
  | ok e => simp [bind, Except.bind, pure, Except.pure, eq_comm]

theorem sound_compile {source : String} {fold : Bool} {p : Pattern}
    (h : compile source fold = .ok p) : p.Sound := by
  obtain ⟨e, hread, rfl⟩ := compile_eq_ok.mp h
  exact ⟨read_valid hread, rfl⟩

/-- A run finds the greatest length that `M` holds of. `Lane k` says which state is reached at
position `k`, if there is one. By induction on what is left to read. -/
theorem run_greatest {a : Automaton} {w : List Char} {M : Nat → Prop} {Lane : Nat → Option Nat → Prop}
    (next : ∀ k st c, Lane k (some st) → w[k]? = some c → Lane (k + 1) (a.next? st c))
    (dead : ∀ k m, Lane k none → k ≤ m → ¬ M m)
    (accepts : ∀ k st, Lane k (some st) → k ≤ w.length → (a.accepts st (k = w.length) ↔ M k))
    {rest : List Char} {st k : Nat} {best : Option Nat} (hrest : w.drop k = rest)
    (hk : k ≤ w.length) (here : Lane k (some st)) (sofar : LongestUpTo M k best) :
    LongestUpTo M w.length (run a st k best rest) := by
  induction rest generalizing st k best with
  | nil =>
    obtain rfl : k = w.length := le_antisymm hk (List.drop_eq_nil_iff.mp hrest)
    exact sofar
  | cons c rest ih =>
    have hlt : k < w.length := by
      have := congrArg List.length hrest
      simp only [List.length_drop, List.length_cons] at this
      omega
    rw [List.drop_eq_getElem_cons hlt, List.cons.injEq] at hrest
    obtain ⟨symbol, behind⟩ := hrest
    have onward := next k st c here (List.getElem?_eq_some_iff.mpr ⟨hlt, symbol⟩)
    simp only [run]
    cases hn : a.next? st c with
    | none =>
      rw [hn] at onward
      exact sofar.extend hk fun m hm => dead _ m onward hm
    | some st' =>
      rw [hn] at onward
      have atEnd : rest.isEmpty = decide (k + 1 = w.length) := by
        rw [← behind, Bool.eq_iff_iff, List.isEmpty_iff, List.drop_eq_nil_iff, decide_eq_true_iff]
        omega
      refine ih behind hlt onward (sofar.succ _ ?_)
      rw [atEnd]
      exact accepts _ st' onward hlt

/-- The rest of a run in which the state of the automaton stands for what the expression can reach at
position `k`. -/
theorem run_longest {e : Expr} (he : e.Valid) {w : List Char} (hw : w ≠ []) {rest : List Char}
    {st k : Nat} {best : Option Nat} (hrest : w.drop k = rest) (hk : k ≤ w.length)
    (tracks : e.Tracks true w k (some st)) (sofar : LongestUpTo (e.Matches true w 0) k best) :
    LongestUpTo (e.Matches true w 0) w.length
      (run e.machine.determinize st k best rest) :=
  run_greatest (fun _ _ _ tracks symbol => tracks.next he symbol)
    (fun _ _ tracks later => tracks.not_matches later)
    (fun _ _ tracks hk => tracks.accepts_iff he hw hk) hrest hk tracks sofar

/-- The length found is the greatest one of all matches at the front of the input, the empty match
included, and there is none exactly if nothing matches. -/
theorem longestPrefix_isGreatest {source : String} {fold : Bool} {p : Pattern}
    (compiled : compile source fold = .ok p) {input : List Char} (hinput : input ≠ []) :
    ∃ e, read source.toList fold = .ok e ∧
      (∀ n, p.longestPrefix input = some n ↔
        IsGreatest {m | m ≤ input.length ∧ e.Matches true input 0 m} n) ∧
      (p.longestPrefix input = none ↔ ∀ n ≤ input.length, ¬ e.Matches true input 0 n) := by
  obtain ⟨e, hread, rfl⟩ := compile_eq_ok.mp compiled
  have he : e.Valid := read_valid hread
  have opening := @Expr.tracks_opening true input e he hinput
  rw [if_pos rfl] at opening
  have longest : LongestUpTo (e.Matches true input 0) input.length
      (longestPrefix ⟨source, fold, e, e.machine.determinize⟩ input) := by
    refine run_longest he hinput rfl (Nat.zero_le _) opening (.zero _ ?_)
    have atEnd : input.isEmpty = decide (0 = input.length) := by
      rw [Bool.eq_iff_iff, List.isEmpty_iff, decide_eq_true_iff, @eq_comm _ 0,
        List.length_eq_zero_iff]
    rw [atEnd]
    exact opening.accepts_iff he hinput (Nat.zero_le _)
  exact ⟨e, hread, longest.isGreatest, longest.eq_none_iff⟩

/-- Below a star `^` can be passed only in the first round, and `$` lets no shorter match stand. -/
theorem longestPrefix_anchored :
    ∃ p e, compile "(^a|b)*c?$" false = .ok p ∧ read "(^a|b)*c?$".toList false = .ok e ∧
      p.longestPrefix ['a', 'b', 'b', 'c'] = some 4 ∧
      IsGreatest {m | m ≤ 4 ∧ e.Matches true ['a', 'b', 'b', 'c'] 0 m} 4 := by
  have compiled : ∃ p, compile "(^a|b)*c?$" false = .ok p ∧
      p.longestPrefix ['a', 'b', 'b', 'c'] = some 4 := ⟨_, rfl, by decide +kernel⟩
  obtain ⟨p, hp, found⟩ := compiled
  obtain ⟨e, hread, greatest, _⟩ :=
    @longestPrefix_isGreatest _ _ p hp ['a', 'b', 'b', 'c'] (by decide)
  exact ⟨p, e, hp, hread, found, (greatest 4).mp found⟩

end Pattern

end ScrapeConfig
