import ScrapeConfig.Proofs.Scan.LongestMatch

/-!
# Racing and running alone

A race of patterns finds what the patterns find when each of them runs alone: the longest of their
longest beginnings, from the first pattern that has one of this length. Inside an input, where `^`
does not hold, the patterns that run alone are the same ones with every `^` put out of force.

Results:
1. `Expr.matches_inner`: an expression with its `^` put out of force.
2. `Pattern.Sound.longest`: what a pattern finds when it runs alone.
3. `Match.Best.alone`: the best of all matches is the best of those that are found alone.
4. `PatternSet.longestMatch_alone`: a race at the start of an input, and one further on.
-/

namespace ScrapeConfig

namespace Expr

/-- The expression as it matches inside an input: `^` holds nowhere. -/
def inner (e : Expr) : Expr := e.mapLeaves fun l => if l = .startAnchor then .symbols [] else l

/-- No `^` occurs in the expression. -/
def StartFree (e : Expr) : Prop := e.All (· ≠ .startAnchor)

instance : DecidablePred StartFree := fun e => decidableAll (· ≠ .startAnchor) e

theorem matches_inner {e : Expr} {fresh : Bool} {w : List Char} :
    e.inner.Matches fresh w = e.Matches false w := by
  induction e using induction_cons with
  | empty | symbols | endAnchor | seqNil | altNil => rfl
  | startAnchor =>
    funext i j
    simp [inner, mapLeaves, Matches, CodeRange.covers]
  | seqCons a es iha ihs =>
    funext i j
    exact propext (exists_congr fun k =>
      and_congr (iff_of_eq (congrFun₂ iha i k)) (iff_of_eq (congrFun₂ ihs k j)))
  | altCons a es iha ihs =>
    funext i j
    exact congrArg₂ Or (congrFun₂ iha i j) (congrFun₂ ihs i j)
  | star a ih | plus a ih | opt a ih =>
    funext i j
    rw [inner] at ih
    simp only [inner, mapLeaves, Matches, ih]

theorem valid_inner {e : Expr} (h : e.Valid) : e.inner.Valid := by
  induction e using induction_cons with
  | startAnchor => exact List.forall_mem_nil _
  | seqCons a es iha ihs | altCons a es iha ihs => exact ⟨iha h.1, ihs h.2⟩
  | star a ih | plus a ih | opt a ih => exact ih h
  | _ => exact h

theorem inner_eq_self {e : Expr} (h : e.StartFree) : e.inner = e :=
  mapLeaves_eq_self (h.imp fun _ other => if_neg other)

end Expr

namespace Pattern

/-- The pattern with every `^` in it put out of force. -/
def inner (p : Pattern) : Pattern :=
  { p with expr := p.expr.inner, automaton := p.expr.inner.machine.determinize }

theorem Sound.inner {p : Pattern} (h : p.Sound) : p.inner.Sound :=
  ⟨Expr.valid_inner h.valid, rfl⟩

theorem inner_eq_self {p : Pattern} (h : p.Sound) (free : p.expr.StartFree) : p.inner = p := by
  rw [inner, Expr.inner_eq_self free, ← h.automaton]

/-- A pattern that runs alone finds the longest of its matches. -/
theorem Sound.longest {p : Pattern} (h : p.Sound) {w : List Char} (hw : w ≠ []) :
    LongestUpTo (p.expr.Matches true w 0) w.length (p.longestPrefix w) := by
  have opening := @Expr.tracks_opening true w p.expr h.valid hw
  rw [if_pos rfl] at opening
  have front : w.isEmpty = decide (0 = w.length) := by
    rw [Bool.eq_iff_iff, List.isEmpty_iff, decide_eq_true_iff, @eq_comm _ 0,
      List.length_eq_zero_iff]
  have empty := opening.accepts_iff h.valid hw (Nat.zero_le _)
  rw [← front] at empty
  rw [longestPrefix, h.automaton]
  exact run_longest h.valid hw rfl (Nat.zero_le _) opening (.zero _ empty)

/-- Pattern `m.pattern` of the list finds `m.length` code points when it runs alone, and they are
one at least. -/
def Alone (ps : List Pattern) (w : List Char) (m : Match) : Prop :=
  0 < m.length ∧ ∃ p, ps[m.pattern]? = some p ∧ p.longestPrefix w = some m.length

theorem Alone.wins {ps : List Pattern} (hps : ∀ p ∈ ps, p.Sound) {w : List Char} (hw : w ≠ [])
    {m : Match} (h : Alone ps w m) : Wins ps true w m := by
  obtain ⟨hm, p, hp, found⟩ := h
  have longest := (hps p (List.mem_of_getElem? hp)).longest hw
  rw [found] at longest
  exact ⟨hm, p, hp, longest.2.1⟩

/-- Where a pattern matches, it finds a match alone that is at least as long. -/
theorem Wins.exists_alone {ps : List Pattern} (hps : ∀ p ∈ ps, p.Sound) {w : List Char}
    (hw : w ≠ []) {m : Match} (h : Wins ps true w m) :
    ∃ n, m.length ≤ n ∧ Alone ps w ⟨m.pattern, n⟩ := by
  obtain ⟨hm, p, hp, matched⟩ := h
  have longest := (hps p (List.mem_of_getElem? hp)).longest hw
  have within := matched.mono.2 (Nat.zero_le _)
  cases found : p.longestPrefix w with
  | none =>
    rw [found] at longest
    exact absurd matched (longest _ within)
  | some n =>
    rw [found] at longest
    have above := longest.2.2 _ within matched
    exact ⟨n, above, Nat.lt_of_lt_of_le hm above, p, hp, found⟩

theorem wins_inner {ps : List Pattern} {w : List Char} {m : Match} :
    Wins (ps.map inner) true w m ↔ Wins ps false w m := by
  simp only [Wins, List.getElem?_map, Option.map_eq_some_iff]
  refine and_congr_right fun _ => ?_
  constructor
  · rintro ⟨_, ⟨p, hp, rfl⟩, matched⟩
    exact ⟨p, hp, by rwa [inner, Expr.matches_inner] at matched⟩
  · rintro ⟨p, hp, matched⟩
    exact ⟨p.inner, ⟨p, hp, rfl⟩, by rwa [inner, Expr.matches_inner]⟩

end Pattern

open Pattern (Alone Wins)

/-- The best of all matches is the best of those that the patterns find alone. -/
theorem Match.Best.alone {ps : List Pattern} (hps : ∀ p ∈ ps, p.Sound) {w : List Char} (hw : w ≠ [])
    {best : Option Match} (h : Best (Wins ps true w) best) : Best (Alone ps w) best := by
  cases best with
  | none => exact fun m alone => h m (alone.wins hps hw)
  | some m =>
    obtain ⟨wins, above⟩ := h
    refine ⟨?_, fun m' alone => above m' (alone.wins hps hw)⟩
    -- What the pattern finds alone is no longer than the best match.
    obtain ⟨n, hn, alone⟩ := wins.exists_alone hps hw
    have beaten := above _ (alone.wins hps hw)
    obtain rfl : n = m.length := by
      simp only [Beats] at beaten
      omega
    exact alone

namespace Race

theorem judge_zero (won : Automaton → Nat → Bool) (index : Nat) (as : List Automaton)
    (ls : List Lane) (best : Option Match) : judge won 0 index as ls best = best := by
  induction as generalizing index ls best with
  | nil => rfl
  | cons a as ih => cases ls with
    | nil => rfl
    | cons l ls =>
      rw [judge, ih]
      split
      · exact if_pos rfl
      · rfl

end Race

namespace PatternSet

variable {set : PatternSet}

theorem longestMatch_nil (fresh : Bool) : set.longestMatch fresh [] = none :=
  Race.judge_zero ..

theorem best_alone_nil (ps : List Pattern) : Match.Best (Alone ps []) none := by
  rintro m ⟨hm, p, _, found⟩
  rw [Pattern.longestPrefix, Pattern.run] at found
  split at found
  · exact hm.ne (Option.some.inj found)
  · cases found

/-- A race at the start of an input settles for the best of what its patterns find alone there. A
race further on does the same for its patterns with every `^` put out of force, which are the
patterns themselves where no `^` occurs. -/
theorem longestMatch_alone (hset : set.Compiled) (w : List Char) :
    Match.Best (Alone set.patterns w) (set.longestMatch true w) ∧
      Match.Best (Alone (set.patterns.map Pattern.inner) w) (set.longestMatch false w) ∧
      ∀ p ∈ set.patterns, p.expr.StartFree → p.inner = p := by
  have sound := hset.sound
  have sound_inner : ∀ p ∈ set.patterns.map Pattern.inner, p.Sound :=
    List.forall_mem_map.mpr fun p hp => (sound p hp).inner
  refine ⟨?_, ?_, fun p hp => Pattern.inner_eq_self (sound p hp)⟩
  · by_cases hw : w = []
    · rw [hw, longestMatch_nil]
      exact best_alone_nil _
    · exact (set.longestMatch_best sound true hw).alone sound hw
  · by_cases hw : w = []
    · rw [hw, longestMatch_nil]
      exact best_alone_nil _
    · have best := set.longestMatch_best sound false hw
      exact (best.congr fun m => Pattern.wins_inner.symm).alone sound_inner hw

/-- At the start the first pattern wins the tie by its `^`, and further on it falls behind. -/
theorem longestMatch_alone_tie :
    ∃ p q, Compiled ⟨[p, q]⟩ ∧ Match.Best (Alone [p, q] ['a', 'b']) (some ⟨0, 2⟩) ∧
      Match.Best (Alone [p.inner, q] ['a', 'b']) (some ⟨1, 2⟩) := by
  have compiled : ∃ p q, Pattern.compile "^ab|a" false = .ok p ∧
      Pattern.compile "a(b$)?" false = .ok q ∧ q.expr.StartFree ∧
      longestMatch ⟨[p, q]⟩ true ['a', 'b'] = some ⟨0, 2⟩ ∧
      longestMatch ⟨[p, q]⟩ false ['a', 'b'] = some ⟨1, 2⟩ :=
    ⟨_, _, rfl, rfl, by decide +kernel, by decide +kernel⟩
  obtain ⟨p, q, hp, hq, free, first, further⟩ := compiled
  have hset : Compiled ⟨[p, q]⟩ :=
    List.forall_mem_cons.mpr ⟨⟨_, _, hp⟩, List.forall_mem_singleton.mpr ⟨_, _, hq⟩⟩
  obtain ⟨atStart, inside, same⟩ := longestMatch_alone hset ['a', 'b']
  rw [first] at atStart
  rw [further, List.map_cons, List.map_singleton, same q (by simp) free] at inside
  exact ⟨p, q, hset, atStart, inside⟩

end PatternSet

end ScrapeConfig
