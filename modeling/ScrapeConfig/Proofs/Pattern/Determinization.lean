import ScrapeConfig.Proofs.Pattern.Tracking

/-!
# Determinized machines are well-formed automata

The subset construction works through numbered sets of machine states. One piece of work describes
one set, and every set that is new by then is a target of the description (`Subset.leadsTo_expand`);
so all sets are reached from the first one (`Subset.Progress`). Since there are at most `2 ^ n` of them
for a machine with `n` states, the work ends by itself (`Subset.explore_eq`).

Results:
1. `Automaton.WellFormed.searches`: the binary search finds what a search from the left would.
2. `Machine.determinize_standsFor_wellFormed`: the states of a determinized machine stand for
   distinct sets of machine states, and the automaton is well-formed.
-/

namespace ScrapeConfig

open Relation (ReflTransGen)

/-! ## Well-formed automata -/

/-- A range or an anchor leads from the state `st` to the state with the number `i`. -/
def AutomatonState.LeadsTo (st : AutomatonState) (i : Nat) : Prop :=
  (∃ t ∈ st.transitions, t.target = i) ∨ st.onStart = some i ∨ st.onEnd = some i

/-- Two neighbours that could not be one transition: there is something between them, or they lead
to different states. -/
def Transition.Apart (t u : Transition) : Prop :=
  ¬ (u.target = t.target ∧ t.range.hi + 1 = u.range.lo)

namespace Automaton

/-- A range or an anchor leads from one state to the other. -/
def Step (states : Array AutomatonState) (i j : Nat) : Prop :=
  ∃ st, states[i]? = some st ∧ st.LeadsTo j

/-- The transitions of every state are sorted, disjoint, not empty, within the code points and
merged; whatever a state leads to exists, and every state is reached from the start. -/
structure WellFormed (a : Automaton) : Prop where
  start_lt : start < a.size
  target_lt : ∀ i j, Step a.states i j → j < a.size
  reached : ∀ i < a.size, ReflTransGen (Step a.states) start i
  ordered : ∀ st ∈ a.states, Transition.Ordered st.transitions.toList
  le_last : ∀ st ∈ a.states, ∀ t ∈ st.transitions, t.range.hi ≤ CodeRange.last
  merged : ∀ st ∈ a.states, st.transitions.toList.IsChain Transition.Apart

/-- Looking for the transition on a code point is as good as a search from the left, and it is there
if and only if a range contains the code point. -/
structure Searches (a : Automaton) : Prop where
  linear : ∀ st ∈ a.states, ∀ c,
    Transition.find? st.transitions c = st.transitions.find? (·.range.contains c)
  next?_eq_some : ∀ i c j, a.next? i c = some j ↔ ∃ st, a.states[i]? = some st ∧
    ∃ t ∈ st.transitions, t.range.contains c.toNat ∧ t.target = j

end Automaton

theorem Transition.find?_eq_linear {ts : Array Transition} (ho : Ordered ts.toList) (c : Nat) :
    find? ts c = ts.find? (·.range.contains c) := by
  cases h : ts.find? (·.range.contains c) with
  | some t =>
    have hc := Array.find?_some (p := fun (t : Transition) => t.range.contains c) h
    exact find?_of_mem ho (Array.mem_of_find?_eq_some h) hc
  | none =>
    refine Option.eq_none_iff_forall_ne_some.mpr fun t found => ?_
    obtain ⟨ht, hc⟩ := mem_of_find? found
    exact Array.find?_eq_none.mp h t ht hc

theorem Automaton.WellFormed.searches {a : Automaton} (h : a.WellFormed) : a.Searches where
  linear st hst c := Transition.find?_eq_linear (h.ordered st hst) c
  next?_eq_some i c j := by
    simp only [next?, Option.bind_eq_bind, Option.bind_eq_some_iff, Option.pure_def,
      Option.some.injEq]
    constructor
    · rintro ⟨st, hst, t, found, rfl⟩
      obtain ⟨ht, hc⟩ := Transition.mem_of_find? found
      exact ⟨st, hst, t, ht, hc, rfl⟩
    · rintro ⟨st, hst, t, ht, hc, rfl⟩
      have ordered := h.ordered st (Array.mem_of_getElem? hst)
      exact ⟨st, hst, t, Transition.find?_of_mem ordered ht hc, rfl⟩

namespace Subset

/-! ## Joining -/

theorem exists_mem_join {ts : List Transition} {t : Transition} (h : t ∈ ts) :
    ∃ u ∈ join ts, u.target = t.target := by
  induction ts with
  | nil => cases h
  | cons s ts ih =>
    simp only [join]
    cases hj : join ts with
    | nil =>
      rcases List.mem_cons.mp h with rfl | h
      · exact ⟨t, List.mem_singleton_self t, rfl⟩
      · obtain ⟨u, hu, _⟩ := ih h
        rw [hj] at hu
        cases hu
    | cons u us =>
      rw [hj] at ih
      dsimp only
      split
      · next touch =>
        rcases List.mem_cons.mp h with rfl | h
        · exact ⟨_, List.mem_cons_self, rfl⟩
        · obtain ⟨v, hv, same⟩ := ih h
          rcases List.mem_cons.mp hv with rfl | hv
          · exact ⟨_, List.mem_cons_self, touch.1.symm.trans same⟩
          · exact ⟨v, List.mem_cons_of_mem _ hv, same⟩
      · rcases List.mem_cons.mp h with rfl | h
        · exact ⟨t, List.mem_cons_self, rfl⟩
        · obtain ⟨v, hv, same⟩ := ih h
          exact ⟨v, List.mem_cons_of_mem _ hv, same⟩

/-- No two neighbours are left that could be one. -/
theorem isChain_join (ts : List Transition) : (join ts).IsChain Transition.Apart := by
  induction ts with
  | nil => exact .nil
  | cons t ts ih =>
    simp only [join]
    cases hj : join ts with
    | nil => exact .singleton t
    | cons u us =>
      rw [hj] at ih
      dsimp only
      split
      · next touch =>
        cases us with
        | nil => exact .singleton _
        | cons v vs =>
          obtain ⟨apart, rest⟩ := List.isChain_cons_cons.mp ih
          refine List.isChain_cons_cons.mpr ⟨fun same => apart ?_, rest⟩
          exact ⟨same.1.trans touch.1.symm, same.2⟩
      · next apart => exact List.isChain_cons_cons.mpr ⟨apart, ih⟩

/-! ## New sets are targets -/

theorem intern_eq_of_new {sets : Array StateSet} {s : StateSet} {i : Nat} (old : sets.size ≤ i)
    (hi : i < (intern sets s).2.size) : (intern sets s).1 = i := by
  unfold intern at hi ⊢
  split
  · next h =>
    rw [h] at hi
    dsimp only at hi
    omega
  · next h =>
    rw [h] at hi
    dsimp only at hi ⊢
    rw [Array.size_push] at hi
    omega

theorem exists_target_of_new {sets : Array StateSet} {ms : List (CodeRange × StateSet)} {i : Nat}
    (old : sets.size ≤ i) (hi : i < (internMoves sets ms).2.size) :
    ∃ t ∈ (internMoves sets ms).1, t.target = i := by
  induction ms generalizing sets with
  | nil => exact absurd hi (Nat.not_lt_of_le old)
  | cons x ms ih =>
    obtain ⟨r, s⟩ := x
    by_cases first : i < (intern sets s).2.size
    · exact ⟨_, List.mem_cons_self, intern_eq_of_new old first⟩
    · obtain ⟨t, ht, heq⟩ := ih (Nat.le_of_not_lt first) hi
      exact ⟨t, List.mem_cons_of_mem _ ht, heq⟩

theorem internAnchor_eq_of_new {sets : Array StateSet} {a : Anchor} {s : StateSet} {i : Nat}
    (old : sets.size ≤ i) (hi : i < (internAnchor sets a s).2.size) :
    (internAnchor sets a s).1 = some i := by
  unfold internAnchor at hi ⊢
  dsimp only at hi ⊢
  split
  · next same =>
    rw [if_pos same] at hi
    exact absurd hi (Nat.not_lt_of_le old)
  · next moved =>
    rw [if_neg moved] at hi
    exact congrArg some (intern_eq_of_new old hi)

/-- Describing a set numbers no sets but those that the description leads to. -/
theorem leadsTo_expand {m : Source} {onStart onEnd : Anchor} {s : StateSet} {sets : Array StateSet}
    {i : Nat} (old : sets.size ≤ i) (hi : i < (expand m onStart onEnd s sets).2.size) :
    (expand m onStart onEnd s sets).1.LeadsTo i := by
  by_cases moved : i < (internMoves sets (moves m s)).2.size
  · obtain ⟨t, ht, heq⟩ := exists_target_of_new old moved
    obtain ⟨u, hu, same⟩ := exists_mem_join ht
    exact .inl ⟨u, by simpa [expand] using hu, same.trans heq⟩
  · have moved := Nat.le_of_not_lt moved
    by_cases started : i < (internAnchor (internMoves sets (moves m s)).2 onStart s).2.size
    · exact .inr (.inl (internAnchor_eq_of_new moved started))
    · exact .inr (.inr (internAnchor_eq_of_new (Nat.le_of_not_lt started) hi))

/-! ## The whole construction -/

variable {m : Source} {n : Nat} {onStart onEnd : Anchor} {sets : Array StateSet}
  {done : Array AutomatonState} {fuel : Nat}

/-- What one piece of work keeps is kept by the construction as a whole. -/
theorem explore_invariant (hm : Source.Sound m n) (hstart : Anchor.Sound onStart m n)
    (hend : Anchor.Sound onEnd m n) {Q : Array StateSet → Array AutomatonState → Prop}
    (step : ∀ sets done s, Numbering (Settled m n) sets → sets[done.size]? = some s →
      Q sets done → Q (expand m onStart onEnd s sets).2 (done.push (expand m onStart onEnd s sets).1))
    (hn : Numbering (Settled m n) sets) (h : Q sets done) :
    ∃ final, Q final (explore m onStart onEnd fuel sets done) := by
  induction fuel generalizing sets done with
  | zero => exact ⟨sets, h⟩
  | succ fuel ih =>
    rw [explore]
    split
    · exact ⟨sets, h⟩
    · next s hs =>
      have settled := hn.all s (Array.mem_of_getElem? hs)
      exact ih (expanded_expand hm hstart hend hn settled).numbering (step sets done s hn hs h)

/-- What has been found out while `done` describes the first ones of `sets`: the sets are reached
through the descriptions, whose transitions are merged. -/
structure Progress (sets : Array StateSet) (done : Array AutomatonState) : Prop where
  size_le : done.size ≤ sets.size
  reached : ∀ i < sets.size, ReflTransGen (Automaton.Step done) 0 i
  merged : ∀ st ∈ done, st.transitions.toList.IsChain Transition.Apart

theorem step_push {i j : Nat} (h : Automaton.Step done i j) (st : AutomatonState) :
    Automaton.Step (done.push st) i j := by
  obtain ⟨st', hi, leads⟩ := h
  have hlt := (Array.getElem?_eq_some_iff.mp hi).1
  exact ⟨st', by rw [Array.getElem?_push, if_neg (Nat.ne_of_lt hlt), hi], leads⟩

theorem Progress.step (hm : Source.Sound m n) (hstart : Anchor.Sound onStart m n)
    (hend : Anchor.Sound onEnd m n) {s : StateSet} (hn : Numbering (Settled m n) sets)
    (hs : sets[done.size]? = some s) (h : Progress sets done) :
    Progress (expand m onStart onEnd s sets).2 (done.push (expand m onStart onEnd s sets).1) := by
  have hlt := (Array.getElem?_eq_some_iff.mp hs).1
  have grows := (expanded_expand hm hstart hend hn (hn.all s (Array.mem_of_getElem? hs))).keeps.size_le
  have onward (i : Nat) (hi : i < sets.size) :
      ReflTransGen (Automaton.Step (done.push (expand m onStart onEnd s sets).1)) 0 i :=
    ReflTransGen.mono (fun _ _ leads => step_push leads _) _ _ (h.reached i hi)
  refine ⟨?_, fun i hi => ?_, ?_⟩
  · rw [Array.size_push]
    omega
  · by_cases old : i < sets.size
    · exact onward i old
    · refine (onward done.size hlt).tail ⟨_, Array.getElem?_push_size, ?_⟩
      exact leadsTo_expand (Nat.le_of_not_lt old) hi
  · intro st hst
    rcases Array.mem_push.mp hst with hst | rfl
    · exact h.merged st hst
    · exact isChain_join _

/-- Enough steps are as good as any more of them: no set is left then. -/
theorem explore_eq (hm : Source.Sound m n) (hstart : Anchor.Sound onStart m n)
    (hend : Anchor.Sound onEnd m n) {fuel' : Nat} (hn : Numbering (Settled m n) sets)
    (enough : 2 ^ n ≤ fuel + done.size) (enough' : 2 ^ n ≤ fuel' + done.size) :
    explore m onStart onEnd fuel sets done = explore m onStart onEnd fuel' sets done := by
  have size_le := hn.size_le
  induction fuel generalizing fuel' sets done with
  | zero =>
    have none : sets[done.size]? = none := Array.getElem?_eq_none (by omega)
    cases fuel' with
    | zero => rfl
    | succ fuel' => rw [explore, explore, none]
  | succ fuel ih =>
    cases hs : sets[done.size]? with
    | none => cases fuel' <;> simp only [explore, hs]
    | some s =>
      have hlt := (Array.getElem?_eq_some_iff.mp hs).1
      cases fuel' with
      | zero => omega
      | succ fuel' =>
        have numbering := (expanded_expand hm hstart hend hn
          (hn.all s (Array.mem_of_getElem? hs))).numbering
        rw [explore, hs, explore, hs]
        exact ih numbering (by rw [Array.size_push]; omega) (by rw [Array.size_push]; omega)
          numbering.size_le

end Subset

/-! ## Determinized machines -/

namespace Machine

variable {m : Machine}

/-- The states that the construction has described when it ends or has done `fuel` pieces of work. -/
def explored (m : Machine) (fuel : Nat) : Array AutomatonState :=
  Subset.explore m.source (m.anchor .startOfInput) (m.anchor .endOfInput) fuel
    #[.closure m.source.silent [m.start]] #[]

/-- The states of the automaton stand for the sets of machine states in `sets`: these are distinct,
the first holds what silent edges lead to from the start, and each state describes its set. -/
structure StandsFor (m : Machine) (a : Automaton) (sets : Array StateSet) : Prop where
  size_eq : a.size = sets.size
  distinct : sets.toList.Nodup
  within : ∀ s ∈ sets, s.Within m.size
  start : sets[Automaton.start]? = some (.closure m.source.silent [m.start])
  describes : ∀ (i : Nat) (s : StateSet), sets[i]? = some s → ∃ st, a.states[i]? = some st ∧
    Subset.Describes m.source (m.anchor .startOfInput) (m.anchor .endOfInput) sets s st

theorem exists_standsFor (hm : m.Sound) : ∃ sets, m.StandsFor m.determinize sets := by
  obtain ⟨sets, h⟩ := determinize_describes hm
  exact ⟨sets, h.size_eq, h.numbering.nodup, fun s hs => (h.numbering.all s hs).within,
    h.keeps.get rfl, h.describes⟩

theorem numbering_first (hm : m.Sound) :
    Subset.Numbering (Subset.Settled m.source m.size) #[.closure m.source.silent [m.start]] := by
  obtain ⟨sets, h⟩ := determinize_describes hm
  refine ⟨by simp, fun s hs => h.numbering.all s ?_⟩
  rw [List.mem_toArray, List.mem_singleton] at hs
  exact hs ▸ Array.mem_of_getElem? (h.keeps.get (i := 0) rfl)

namespace StandsFor

variable {a : Automaton} {sets : Array StateSet}

theorem size_le (h : m.StandsFor a sets) : a.size ≤ 2 ^ m.size := by
  rw [h.size_eq, ← Array.length_toList]
  exact StateSet.length_le_of_nodup h.distinct fun s hs => h.within s (Array.mem_toList_iff.mp hs)

theorem exists_describes (h : m.StandsFor a sets) {i : Nat} {st : AutomatonState}
    (hst : a.states[i]? = some st) : ∃ s, Subset.Describes m.source (m.anchor .startOfInput)
      (m.anchor .endOfInput) sets s st := by
  have hlt : i < sets.size := h.size_eq ▸ (Array.getElem?_eq_some_iff.mp hst).1
  obtain ⟨st', hst', describes⟩ := h.describes i _ (Array.getElem?_eq_getElem hlt)
  obtain rfl := Option.some.inj (hst.symm.trans hst')
  exact ⟨_, describes⟩

/-- Whatever a state leads to has a number. -/
theorem target_lt (h : m.StandsFor a sets) {i j : Nat} (step : Automaton.Step a.states i j) :
    j < a.size := by
  obtain ⟨st, hst, leads⟩ := step
  obtain ⟨s, describes⟩ := h.exists_describes hst
  have numbered : ∃ t, sets[j]? = some t := by
    rcases leads with ⟨t, ht, rfl⟩ | onStart | onEnd
    · have nonempty := describes.ordered.nonempty t (Array.mem_toList_iff.mpr ht)
      obtain ⟨u, hu, _⟩ := describes.leads t ht t.range.lo (by simpa [CodeRange.contains])
      exact ⟨u, hu⟩
    · have passes := describes.onStart
      rw [onStart] at passes
      exact ⟨_, passes⟩
    · have passes := describes.onEnd
      rw [onEnd] at passes
      exact ⟨_, passes⟩
  obtain ⟨t, ht⟩ := numbered
  exact h.size_eq ▸ (Array.getElem?_eq_some_iff.mp ht).1

theorem le_last (hm : m.Sound) (h : m.StandsFor a sets) {i : Nat} {st : AutomatonState}
    (hst : a.states[i]? = some st) {t : Transition} (ht : t ∈ st.transitions) :
    t.range.hi ≤ CodeRange.last := by
  obtain ⟨s, describes⟩ := h.exists_describes hst
  have nonempty := describes.ordered.nonempty t (Array.mem_toList_iff.mpr ht)
  obtain ⟨u, _, leads⟩ := describes.leads t ht t.range.hi (by simpa [CodeRange.contains])
  obtain ⟨p, i, _, r, hr, hc⟩ := leads.reads
  have valid := (sound_source hm).valid i r p hr
  simp only [CodeRange.contains, Bool.and_eq_true, decide_eq_true_eq] at hc
  exact Nat.le_trans hc.2 valid.2

end StandsFor

theorem wellFormed_determinize (hm : m.Sound) : m.determinize.WellFormed := by
  obtain ⟨sets, stands⟩ := exists_standsFor hm
  obtain ⟨final, progress⟩ : ∃ final, Subset.Progress final m.determinize.states :=
    Subset.explore_invariant (sound_source hm) (sound_anchor hm _) (sound_anchor hm _)
      (fun _ _ _ hn hs h => h.step (sound_source hm) (sound_anchor hm _) (sound_anchor hm _) hn hs)
      (numbering_first hm) ⟨Nat.zero_le _, by simp [ReflTransGen.refl], by simp⟩
  refine ⟨?_, fun i j => stands.target_lt, fun i hi => ?_, fun st hst => ?_, fun st hst t ht => ?_,
    progress.merged⟩
  · exact stands.size_eq ▸ (Array.getElem?_eq_some_iff.mp stands.start).1
  · exact progress.reached i (Nat.lt_of_lt_of_le hi progress.size_le)
  · obtain ⟨i, hi, rfl⟩ := Array.mem_iff_getElem.mp hst
    obtain ⟨s, describes⟩ := stands.exists_describes (Array.getElem?_eq_getElem hi)
    exact describes.ordered
  · obtain ⟨i, hi, rfl⟩ := Array.mem_iff_getElem.mp hst
    exact stands.le_last hm (Array.getElem?_eq_getElem hi) ht

/-- The construction ends by itself with at most `2 ^ n` states for a machine with `n` states. Its
states stand for distinct sets of machine states, the start for the one of the machine, and the
automaton is well-formed, so that the search for a transition finds one just if there is one.
The machine of every expression that is read from a source is sound (`Expr.sound_machine`,
`Pattern.read_valid`). -/
theorem determinize_standsFor_wellFormed (hm : m.Sound) :
    (∀ fuel, 2 ^ m.size ≤ fuel → m.explored fuel = m.determinize.states) ∧
      m.determinize.size ≤ 2 ^ m.size ∧ (∃ sets, m.StandsFor m.determinize sets) ∧
      m.determinize.WellFormed ∧ m.determinize.Searches := by
  obtain ⟨sets, stands⟩ := exists_standsFor hm
  have wellFormed := wellFormed_determinize hm
  refine ⟨fun fuel enough => ?_, stands.size_le, ⟨sets, stands⟩, wellFormed, wellFormed.searches⟩
  exact Subset.explore_eq (sound_source hm) (sound_anchor hm _) (sound_anchor hm _)
    (numbering_first hm) enough (Nat.le_of_eq (by simp [twoTo]))

theorem determinize_standsFor_wellFormed_anchored :
    ∃ e, Pattern.read ['^', '[', 'a', '-', 'c', ']', '|', 'b', '$'] true = .ok e ∧
      (∀ fuel, 2 ^ e.machine.size ≤ fuel → e.machine.explored fuel = e.machine.determinize.states) ∧
      e.machine.determinize.size ≤ 2 ^ e.machine.size ∧
      (∃ sets, e.machine.StandsFor e.machine.determinize sets) ∧
      e.machine.determinize.WellFormed ∧ e.machine.determinize.Searches := by
  obtain ⟨e, read⟩ :
      ∃ e, Pattern.read ['^', '[', 'a', '-', 'c', ']', '|', 'b', '$'] true = .ok e := ⟨_, rfl⟩
  exact ⟨e, read, determinize_standsFor_wellFormed (Expr.sound_machine (Pattern.read_valid read))⟩

end Machine

end ScrapeConfig
