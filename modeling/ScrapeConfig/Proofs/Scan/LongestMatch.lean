import ScrapeConfig.Scan.Race
import ScrapeConfig.Proofs.Pattern.LongestPrefix

/-!
# What a race of patterns finds

A race settles for the best match of all its patterns: the longest one, and of those of the same
length the one of the pattern that comes first.

Results:
1. `Match.Best`: the best element of a set of matches; there is one at most (`Match.Best.unique`).
2. `Race.run_best`: a race that is under way ends with the best match of all.
3. `PatternSet.longestMatch_best`: `PatternSet.longestMatch` finds the best match that is not empty.
-/

namespace ScrapeConfig

/-! ## The best of a set of matches -/

namespace Match

/-- `m` wins against `m'`, or is `m'`. -/
def Beats (m m' : Match) : Prop :=
  m'.length < m.length ∨ m'.length = m.length ∧ m.pattern ≤ m'.pattern

/-- What is settled for where `S` holds of the matches that there are. -/
def Best (S : Match → Prop) : Option Match → Prop
  | none => ∀ m, ¬ S m
  | some m => S m ∧ ∀ m', S m' → m.Beats m'

namespace Best

variable {S T : Match → Prop} {best other : Option Match}

theorem congr (h : Best S best) (hST : ∀ m, S m ↔ T m) : Best T best := by
  obtain rfl : S = T := funext fun m => propext (hST m)
  exact h

theorem unique (h : Best S best) (h' : Best S other) : best = other := by
  cases best with
  | none => cases other with
    | none => rfl
    | some m' => exact absurd h'.1 (h m')
  | some m => cases other with
    | none => exact absurd h.1 (h' m)
    | some m' =>
      have h₁ := h.2 m' h'.1
      have h₂ := h'.2 m h.1
      cases m
      cases m'
      simp only [Beats, Option.some.injEq, Match.mk.injEq] at *
      omega

theorem better (h : Best S best) {pattern length : Nat} (hl : 0 < length) :
    Best (fun m => S m ∨ m = ⟨pattern, length⟩) (Match.better best pattern length) := by
  have nonzero : length ≠ 0 := by omega
  unfold Match.better
  rw [if_neg nonzero]
  cases best with
  | none =>
    refine ⟨.inr rfl, ?_⟩
    rintro m' (hm' | rfl)
    · exact absurd hm' (h m')
    · exact .inr ⟨rfl, le_refl _⟩
  | some m =>
    obtain ⟨hm, above⟩ := h
    dsimp only
    split
    · next wins =>
      refine ⟨.inr rfl, ?_⟩
      rintro m' (hm' | rfl)
      · have := above m' hm'
        simp only [Beats] at *
        omega
      · exact .inr ⟨rfl, le_refl _⟩
    · next loses =>
      refine ⟨.inl hm, ?_⟩
      rintro m' (hm' | rfl)
      · exact above m' hm'
      · simp only [Beats]
        omega

end Best

end Match

/-! ## Judging the lanes -/

namespace Race

/-- A lane that satisfies `won` is a match of the given length. -/
def Entry (won : Automaton → Nat → Bool) (length index : Nat) (as : List Automaton)
    (ls : List Lane) (m : Match) : Prop :=
  ∃ i a st, as[i]? = some a ∧ ls[i]? = some (some st) ∧ won a st ∧ m = ⟨index + i, length⟩

theorem entry_cons {won : Automaton → Nat → Bool} {length index : Nat} {a : Automaton} {l : Lane}
    {as : List Automaton} {ls : List Lane} {m : Match} :
    Entry won length index (a :: as) (l :: ls) m ↔
      (l.any (won a) ∧ m = ⟨index, length⟩) ∨ Entry won length (index + 1) as ls m := by
  constructor
  · rintro ⟨i, b, st, hb, hst, hwon, rfl⟩
    cases i with
    | zero =>
      obtain rfl : a = b := Option.some.inj hb
      obtain rfl : l = some st := Option.some.inj hst
      exact .inl ⟨hwon, rfl⟩
    | succ i => exact .inr ⟨i, b, st, hb, hst, hwon, by rw [Nat.add_right_comm]; rfl⟩
  · rintro (⟨hwon, rfl⟩ | ⟨i, b, st, hb, hst, hwon, rfl⟩)
    · cases l with
      | none => simp at hwon
      | some st => exact ⟨0, a, st, rfl, rfl, hwon, rfl⟩
    · exact ⟨i + 1, b, st, hb, hst, hwon, by rw [Nat.add_right_comm]; rfl⟩

theorem judge_best {won : Automaton → Nat → Bool} {length : Nat} (hl : 0 < length)
    {as : List Automaton} {ls : List Lane} {S : Match → Prop} {best : Option Match} {index : Nat}
    (h : Match.Best S best) :
    Match.Best (fun m => S m ∨ Entry won length index as ls m)
      (judge won length index as ls best) := by
  induction as generalizing ls S best index with
  | nil =>
    simp only [judge]
    refine h.congr fun m => ⟨.inl, ?_⟩
    rintro (hm | ⟨i, a, st, ha, _⟩)
    · exact hm
    · simp at ha
  | cons a as ih => cases ls with
    | nil =>
      simp only [judge]
      refine h.congr fun m => ⟨.inl, ?_⟩
      rintro (hm | ⟨i, a, st, _, hst, _⟩)
      · exact hm
      · simp at hst
    | cons l ls =>
      simp only [judge]
      by_cases hwon : l.any (won a) = true
      · rw [if_pos hwon]
        refine (ih (h.better hl)).congr fun m => ?_
        simp only [entry_cons, hwon, true_and, or_assoc]
      · rw [if_neg hwon]
        refine (ih h).congr fun m => ?_
        rw [entry_cons, iff_false_intro hwon, false_and, false_or]

end Race

/-! ## The race -/

/-- Pattern `m.pattern` of the list matches the first `m.length` code points of `w`, which are one
at least. -/
def Pattern.Wins (ps : List Pattern) (fresh : Bool) (w : List Char) (m : Match) : Prop :=
  0 < m.length ∧ ∃ p, ps[m.pattern]? = some p ∧ p.expr.Matches fresh w 0 m.length

namespace Race

open Pattern (Wins)

variable {ps : List Pattern} {fresh : Bool} {w : List Char}

/-- Every lane keeps track of its pattern at position `k`. -/
def Running (ps : List Pattern) (fresh : Bool) (w : List Char) (k : Nat) (ls : List Lane) : Prop :=
  List.Forall₂ (fun p l => p.expr.Tracks fresh w k l) ps ls

theorem Running.get {k : Nat} {ls : List Lane} (h : Running ps fresh w k ls) {i : Nat}
    {p : Pattern} (hp : ps[i]? = some p) : ∃ l, ls[i]? = some l ∧ p.expr.Tracks fresh w k l := by
  induction h generalizing i with
  | nil => simp at hp
  | cons hd _ ih => cases i with
    | zero =>
      obtain rfl := Option.some.inj hp
      exact ⟨_, rfl, hd⟩
    | succ i => exact ih hp

theorem Running.start (hps : ∀ p ∈ ps, p.Sound) (hw : w ≠ []) :
    Running ps fresh w 0 (lanes (ps.map (·.automaton)) fresh) := by
  induction ps with
  | nil => exact .nil
  | cons p ps ih =>
    obtain ⟨hp, hps⟩ := List.forall_mem_cons.mp hps
    have opening := @Expr.tracks_opening fresh w p.expr hp.valid hw
    rw [← hp.automaton] at opening
    exact .cons opening (ih hps)

theorem Running.advance (hps : ∀ p ∈ ps, p.Sound) {k : Nat} {ls : List Lane}
    (h : Running ps fresh w k ls) {c : Char} (hc : w[k]? = some c) :
    Running ps fresh w (k + 1) (Race.advance c (ps.map (·.automaton)) ls) := by
  induction h with
  | nil => exact .nil
  | cons hd _ ih =>
    obtain ⟨hp, hps⟩ := List.forall_mem_cons.mp hps
    have next := hd.next hp.valid hc
    rw [← hp.automaton] at next
    exact .cons next (ih hps)

/-- The matches that a race knows of when it has judged the lanes at position `k`: the shorter ones,
and those that end here without the help of `$`. -/
def Known (ps : List Pattern) (fresh : Bool) (w : List Char) (k : Nat) (ls : List Lane)
    (m : Match) : Prop :=
  (m.length < k ∧ Wins ps fresh w m) ∨
    (0 < k ∧ Entry Automaton.isAccepting k 0 (ps.map (·.automaton)) ls m)

/-- Judging the lanes at position `k` by all that `accepts` knows gives the matches that end
there. -/
theorem wins_iff_entry (hps : ∀ p ∈ ps, p.Sound) (hw : w ≠ []) {k : Nat} {ls : List Lane}
    (h : Running ps fresh w k ls) (hk : k ≤ w.length) (hk0 : 0 < k) (m : Match) :
    (m.length = k ∧ Wins ps fresh w m) ↔
      Entry (fun a st => a.accepts st (k = w.length)) k 0 (ps.map (·.automaton)) ls m := by
  constructor
  · rintro ⟨rfl, _, p, hp, hm⟩
    obtain ⟨l, hl, tracks⟩ := h.get hp
    have sound := hps p (List.mem_of_getElem? hp)
    cases l with
    | none => exact absurd hm (tracks.not_matches (le_refl _))
    | some st =>
      refine ⟨m.pattern, p.automaton, st, by rw [List.getElem?_map, hp]; rfl, hl, ?_, ?_⟩
      · rw [sound.automaton]
        exact (tracks.accepts_iff sound.valid hw hk).mpr hm
      · rw [Nat.zero_add]
  · rintro ⟨i, a, st, ha, hst, hwon, rfl⟩
    rw [List.getElem?_map, Option.map_eq_some_iff] at ha
    obtain ⟨p, hp, rfl⟩ := ha
    obtain ⟨l, hl, tracks⟩ := h.get hp
    obtain rfl : l = some st := Option.some.inj (hl.symm.trans hst)
    have sound := hps p (List.mem_of_getElem? hp)
    rw [sound.automaton] at hwon
    rw [Nat.zero_add]
    exact ⟨rfl, hk0, p, hp, (tracks.accepts_iff sound.valid hw hk).mp hwon⟩

theorem accepts_eq (a : Automaton) (st : Nat) (atEnd : Bool) :
    a.accepts st atEnd = (a.isAccepting st || (atEnd && wonAtEnd a st)) := by
  unfold Automaton.accepts wonAtEnd
  cases a.onEnd? st <;> rfl

/-- Before the end of the input a race knows all matches up to where it is. -/
theorem known_iff_wins (hps : ∀ p ∈ ps, p.Sound) (hw : w ≠ []) {k : Nat} {ls : List Lane}
    (h : Running ps fresh w k ls) (hk : k < w.length) (m : Match) :
    Known ps fresh w k ls m ↔ m.length < k + 1 ∧ Wins ps fresh w m := by
  have here : 0 < k → ((m.length = k ∧ Wins ps fresh w m) ↔
      Entry Automaton.isAccepting k 0 (ps.map (·.automaton)) ls m) := fun hk0 => by
    rw [wins_iff_entry hps hw h hk.le hk0 m]
    simp only [accepts_eq, Nat.ne_of_lt hk, decide_false, Bool.false_and, Bool.or_false]
  constructor
  · rintro (⟨hm, wins⟩ | ⟨hk0, entry⟩)
    · exact ⟨by omega, wins⟩
    · obtain ⟨rfl, wins⟩ := (here hk0).mpr entry
      exact ⟨Nat.lt_succ_self _, wins⟩
  · rintro ⟨hm, wins⟩
    rcases Nat.lt_or_eq_of_le (Nat.le_of_lt_succ hm) with hlt | heq
    · exact .inl ⟨hlt, wins⟩
    · have hk0 : 0 < k := heq ▸ wins.1
      exact .inr ⟨hk0, (here hk0).mp ⟨heq, wins⟩⟩

/-- At the end of the input a race also counts the lanes that `$` lets win. -/
theorem judged_iff_wins (hps : ∀ p ∈ ps, p.Sound) (hw : w ≠ []) {ls : List Lane}
    (h : Running ps fresh w w.length ls) (m : Match) :
    (Known ps fresh w w.length ls m ∨
      Entry wonAtEnd w.length 0 (ps.map (·.automaton)) ls m) ↔ Wins ps fresh w m := by
  have hk0 : 0 < w.length := List.length_pos_iff.mpr hw
  have here := wins_iff_entry hps hw h (le_refl _) hk0 m
  simp only [accepts_eq, decide_true, Bool.true_and] at here
  have bound : Wins ps fresh w m → m.length ≤ w.length := fun ⟨_, _, _, hm⟩ =>
    hm.mono.2 (Nat.zero_le _)
  constructor
  · rintro ((⟨_, wins⟩ | ⟨_, i, a, st, ha, hst, hwon, hm⟩) | ⟨i, a, st, ha, hst, hwon, hm⟩)
    · exact wins
    · exact (here.mpr ⟨i, a, st, ha, hst, Bool.or_eq_true_iff.mpr (.inl hwon), hm⟩).2
    · exact (here.mpr ⟨i, a, st, ha, hst, Bool.or_eq_true_iff.mpr (.inr hwon), hm⟩).2
  · intro wins
    rcases Nat.lt_or_eq_of_le (bound wins) with hlt | heq
    · exact .inl (.inl ⟨hlt, wins⟩)
    · obtain ⟨i, a, st, ha, hst, hwon, hm⟩ := here.mp ⟨heq, wins⟩
      rcases Bool.or_eq_true_iff.mp hwon with hwon | hwon
      · exact .inl (.inr ⟨hk0, i, a, st, ha, hst, hwon, hm⟩)
      · exact .inr ⟨i, a, st, ha, hst, hwon, hm⟩

/-- When no lane is left, a race knows all matches: nothing longer matches and nothing ends here. -/
theorem known_iff_wins_of_dead {k : Nat} {ls : List Lane} (h : Running ps fresh w k ls)
    (dead : ¬ ls.any Option.isSome) (m : Match) :
    Known ps fresh w k ls m ↔ Wins ps fresh w m := by
  constructor
  · rintro (⟨_, wins⟩ | ⟨_, i, a, st, _, hst, _⟩)
    · exact wins
    · exact absurd (List.any_eq_true.mpr ⟨_, List.mem_of_getElem? hst, rfl⟩) dead
  · intro wins
    refine .inl ⟨?_, wins⟩
    obtain ⟨_, p, hp, hm⟩ := wins
    obtain ⟨l, hl, tracks⟩ := h.get hp
    cases l with
    | some st => exact absurd (List.any_eq_true.mpr ⟨_, List.mem_of_getElem? hl, rfl⟩) dead
    | none => exact Nat.lt_of_not_le fun hkm => tracks.not_matches hkm hm

/-- The rest of a race, by induction on what is left to read. -/
theorem run_best (hps : ∀ p ∈ ps, p.Sound) (hw : w ≠ []) {rest : List Char} {k : Nat}
    {ls : List Lane} {best : Option Match} (hrest : w.drop k = rest) (hk : k ≤ w.length)
    (h : Running ps fresh w k ls) (hb : Match.Best (Known ps fresh w k ls) best) :
    Match.Best (Wins ps fresh w) (run (ps.map (·.automaton)) ls k best rest) := by
  induction rest generalizing k ls best with
  | nil =>
    obtain rfl : k = w.length := le_antisymm hk (List.drop_eq_nil_iff.mp hrest)
    exact (judge_best (List.length_pos_iff.mpr hw) hb).congr (judged_iff_wins hps hw h)
  | cons c rest ih =>
    have hlt : k < w.length := by
      have := congrArg List.length hrest
      simp only [List.length_drop, List.length_cons] at this
      omega
    rw [List.drop_eq_getElem_cons hlt, List.cons.injEq] at hrest
    obtain ⟨here, behind⟩ := hrest
    have next := h.advance hps (List.getElem?_eq_some_iff.mpr ⟨hlt, here⟩)
    have known := @judge_best Automaton.isAccepting _ (Nat.succ_pos k) (ps.map (·.automaton))
      (Race.advance c (ps.map (·.automaton)) ls) _ _ 0 (hb.congr (known_iff_wins hps hw h hlt))
    have known : Match.Best (Known ps fresh w (k + 1) _) _ :=
      known.congr fun m => or_congr_right (iff_and_self.mpr fun _ => Nat.succ_pos k)
    simp only [run]
    split
    · exact ih behind hlt next known
    · next dead => exact known.congr (known_iff_wins_of_dead next dead)

end Race

/-- The longest match wins, and of those of the same length the one of the pattern that comes
first. -/
theorem PatternSet.longestMatch_best {set : PatternSet} (hset : ∀ p ∈ set.patterns, p.Sound)
    (fresh : Bool) {w : List Char} (hw : w ≠ []) :
    Match.Best (Pattern.Wins set.patterns fresh w) (set.longestMatch fresh w) := by
  refine Race.run_best hset hw rfl (Nat.zero_le _) (.start hset hw) ?_
  rintro m (⟨hm, _⟩ | ⟨hk, _⟩)
  · exact absurd hm (Nat.not_lt_zero _)
  · exact absurd hk (Nat.lt_irrefl 0)

/-! ## Sets of compiled patterns -/

namespace PatternSet

/-- Every pattern of the set was compiled from some source. -/
def Compiled (set : PatternSet) : Prop :=
  ∀ p ∈ set.patterns, ∃ source fold, Pattern.compile source fold = .ok p

theorem Compiled.sound {set : PatternSet} (h : set.Compiled) : ∀ p ∈ set.patterns, p.Sound := by
  intro p hp
  obtain ⟨source, fold, compiled⟩ := h p hp
  exact Pattern.sound_compile compiled

end PatternSet

end ScrapeConfig
