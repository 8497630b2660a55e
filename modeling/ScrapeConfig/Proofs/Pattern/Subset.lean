import Mathlib.Data.Finset.Card
import Mathlib.Data.Fintype.Powerset
import ScrapeConfig.Proofs.Pattern.Closure
import ScrapeConfig.Proofs.Pattern.Transitions

/-!
# The subset construction

`Subset.explore` numbers the sets of machine states in the order in which it meets them and describes
one after the other. `Subset.Describes` says what a right description of a set is; it names targets
by their numbers, and numbers keep their meaning while further sets are met. Since the sets are
distinct and their members are states of the machine, there are at most as many as the construction
has steps, so it ends with every set described (`Subset.explore_describes`).
-/

namespace ScrapeConfig

open Relation (ReflTransGen)

namespace StateSet

/-- All members are below `n`. -/
def Within (n : Nat) (s : StateSet) : Prop := ∀ i, s.contains i → i < n

theorem Within.bits_lt {n : Nat} {s : StateSet} (h : s.Within n) : s.bits < 2 ^ n := by
  refine Nat.lt_pow_two_of_testBit _ fun i hi => ?_
  by_contra hb
  have := h i (by simpa [contains] using hb)
  omega

/-- There are no more than `2 ^ n` different sets of numbers below `n`. -/
theorem length_le_of_nodup {n : Nat} {sets : List StateSet} (hn : sets.Nodup)
    (hw : ∀ s ∈ sets, s.Within n) : sets.length ≤ 2 ^ n := by
  have hinj : Function.Injective StateSet.bits := fun s t h => by
    cases s
    cases t
    simpa using h
  have hsub : ∀ b ∈ sets.map bits, b ∈ List.range (2 ^ n) := by
    intro b hb
    obtain ⟨s, hs, rfl⟩ := List.mem_map.mp hb
    exact List.mem_range.mpr (hw s hs).bits_lt
  have := (hn.map hinj).subperm hsub
  simpa using this.length_le

end StateSet

namespace Subset

open StateSet (Linked Within)

/-! ## Numbering sets -/

/-- Sets that are numbered: they are distinct, and each of them satisfies `P`. -/
structure Numbering (P : StateSet → Prop) (sets : Array StateSet) : Prop where
  nodup : sets.toList.Nodup
  all : ∀ s ∈ sets, P s

/-- Numbers keep their meaning from `sets` to `sets'`. -/
def Keeps (sets sets' : Array StateSet) : Prop := sets.toList <+: sets'.toList

theorem Keeps.refl (sets : Array StateSet) : Keeps sets sets := List.prefix_refl _

theorem Keeps.trans {a b c : Array StateSet} (h₁ : Keeps a b) (h₂ : Keeps b c) : Keeps a c :=
  List.IsPrefix.trans h₁ h₂

theorem Keeps.size_le {a b : Array StateSet} (h : Keeps a b) : a.size ≤ b.size := by
  simpa using h.length_le

theorem Keeps.get {a b : Array StateSet} (h : Keeps a b) {i : Nat} {s : StateSet}
    (hs : a[i]? = some s) : b[i]? = some s := by
  obtain ⟨rest, hrest⟩ := h
  have hlt : i < a.toList.length := by
    simpa using (Array.getElem?_eq_some_iff.mp hs).1
  rw [← Array.getElem?_toList, ← hrest, List.getElem?_append_left hlt, Array.getElem?_toList, hs]

/-- What numbering a set comes to. -/
structure Interned (P : StateSet → Prop) (sets : Array StateSet) (s : StateSet) (i : Nat)
    (sets' : Array StateSet) : Prop where
  numbering : Numbering P sets'
  keeps : Keeps sets sets'
  get : sets'[i]? = some s

theorem interned_intern {P : StateSet → Prop} {sets : Array StateSet} (hn : Numbering P sets)
    {s : StateSet} (hs : P s) : Interned P sets s (intern sets s).1 (intern sets s).2 := by
  unfold intern
  split
  · next i hi =>
    refine ⟨hn, .refl _, ?_⟩
    have hi' : sets.toList.idxOf? s = some i := by
      rw [← List.idxOf?_toArray]
      exact hi
    obtain ⟨hlt, hget, _⟩ := List.idxOf?_eq_some_iff.mp hi'
    rw [← Array.getElem?_toList]
    exact List.getElem?_eq_some_iff.mpr ⟨hlt, hget⟩
  · next hi =>
    have hnot : s ∉ sets := by simpa using hi
    refine ⟨⟨?_, ?_⟩, ?_, ?_⟩
    · rw [Array.toList_push, List.nodup_append]
      refine ⟨hn.nodup, by simp, ?_⟩
      rintro t ht _ hu rfl
      rw [List.mem_singleton] at hu
      exact hnot (hu ▸ Array.mem_toList_iff.mp ht)
    · intro t ht
      rcases Array.mem_push.mp ht with ht | rfl
      · exact hn.all t ht
      · exact hs
    · rw [Keeps, Array.toList_push]
      exact List.prefix_append _ _
    · simp

/-! ## The moves of one set -/

/-- On the code point `c` an edge leads from the set `s` to the machine state `p`. -/
def Reads (m : Source) (s : StateSet) (c p : Nat) : Prop :=
  ∃ i, s.contains i ∧ ∃ r, (r, p) ∈ m.symbols[i]?.getD [] ∧ r.contains c

/-- On the code point `c` the set `s` moves to the set `t`, which is not empty. -/
structure Leads (m : Source) (s : StateSet) (c : Nat) (t : StateSet) : Prop where
  reads : ∃ p, Reads m s c p
  contains : ∀ q, t.contains q ↔ ∃ p, Reads m s c p ∧ ReflTransGen (Linked m.silent) p q

/-- What the construction expects of a machine with `n` states. -/
structure Source.Sound (m : Source) (n : Nat) : Prop where
  valid : ∀ (i : Nat) (r : CodeRange) (p : Nat), (r, p) ∈ m.symbols[i]?.getD [] → r.Valid
  target_lt : ∀ (i : Nat) (r : CodeRange) (p : Nat), (r, p) ∈ m.symbols[i]?.getD [] → p < n
  silent_lt : ∀ p q, Linked m.silent p q → q < n

theorem lt_of_reflTransGen {R : Nat → Nat → Prop} {n p q : Nat} (hR : ∀ p q, R p q → q < n)
    (h : ReflTransGen R p q) (hp : p < n) : q < n := by
  cases h with
  | refl => exact hp
  | tail _ h => exact hR _ _ h

/-- What all sets of the construction are: their members are states of the machine, and silent edges
lead to members only. -/
structure Settled (m : Source) (n : Nat) (s : StateSet) : Prop where
  within : s.Within n
  closed : ∀ p q, s.contains p → Linked m.silent p q → s.contains q

theorem Leads.settled {m : Source} {n : Nat} (hm : Source.Sound m n) {s t : StateSet} {c : Nat}
    (h : Leads m s c t) : Settled m n t := by
  constructor
  · intro q hq
    obtain ⟨p, ⟨i, _, r, hr, _⟩, hpq⟩ := (h.contains q).mp hq
    exact lt_of_reflTransGen hm.silent_lt hpq (hm.target_lt i r p hr)
  · intro p q hp hpq
    obtain ⟨p', hr, hp'⟩ := (h.contains p).mp hp
    exact (h.contains q).mpr ⟨p', hr, hp'.tail hpq⟩

/-- The ranges that are read from `s`, with the states that they lead to. -/
def leaving (m : Source) (s : StateSet) : List (CodeRange × Nat) :=
  s.toList.flatMap fun i => m.symbols[i]?.getD []

theorem mem_leaving {m : Source} {s : StateSet} {x : CodeRange × Nat} :
    x ∈ leaving m s ↔ ∃ i, s.contains i ∧ x ∈ m.symbols[i]?.getD [] := by
  simp only [leaving, List.mem_flatMap, StateSet.mem_toList]

theorem reads_iff {m : Source} {s : StateSet} {c p : Nat} :
    Reads m s c p ↔ ∃ r, (r, p) ∈ leaving m s ∧ r.contains c := by
  simp only [Reads, mem_leaving]
  constructor
  · rintro ⟨i, hi, r, hr, hc⟩
    exact ⟨r, ⟨i, hi, hr⟩, hc⟩
  · rintro ⟨r, ⟨i, hi, hr⟩, hc⟩
    exact ⟨i, hi, r, hr, hc⟩

/-- The states that the ranges over `r` lead to. -/
def above (es : List (CodeRange × Nat)) (r : CodeRange) : List Nat :=
  (es.filter fun e => e.1.lo ≤ r.lo && r.hi ≤ e.1.hi).map (·.2)

/-- The stretches on which all edges that leave `s` are alike. -/
def steps (m : Source) (s : StateSet) : List CodeRange :=
  stretches (cuts ((leaving m s).map (·.1)))

theorem valid_leaving {m : Source} {n : Nat} (hm : Source.Sound m n) (s : StateSet) :
    ∀ r ∈ (leaving m s).map (·.1), r.Valid := by
  intro r hr
  obtain ⟨⟨r, p⟩, hx, rfl⟩ := List.mem_map.mp hr
  obtain ⟨i, _, hi⟩ := mem_leaving.mp hx
  exact hm.valid i r p hi

/-- On a stretch an edge can be taken for one code point just if it can be for all of them. -/
theorem mem_above {m : Source} {n : Nat} (hm : Source.Sound m n) {s : StateSet} {r : CodeRange}
    (hr : r ∈ steps m s) {c p : Nat} (hc : r.contains c) :
    p ∈ above (leaving m s) r ↔ Reads m s c p := by
  have stretch := stretch_of_mem (pairwise_cuts _) (cuts_le_last (valid_leaving hm s)) r hr
  simp only [above, reads_iff, List.mem_map, List.mem_filter, Bool.and_eq_true, decide_eq_true_eq]
  constructor
  · rintro ⟨x, ⟨hx, hover⟩, rfl⟩
    exact ⟨x.1, hx, (over_stretch (List.mem_map_of_mem hx) stretch hc).mp hover⟩
  · rintro ⟨x, hx, hxc⟩
    exact ⟨(x, p), ⟨hx, (over_stretch (List.mem_map_of_mem hx) stretch hc).mpr hxc⟩, rfl⟩

theorem mem_moves {m : Source} {s : StateSet} {r : CodeRange} {t : StateSet} :
    (r, t) ∈ moves m s ↔
      r ∈ steps m s ∧ above (leaving m s) r ≠ [] ∧
        t = .closure m.silent (above (leaving m s) r) := by
  rw [moves, List.mem_filterMap]
  constructor
  · rintro ⟨r', hr', hx⟩
    split at hx
    · cases hx
    · next hne =>
      obtain ⟨rfl, rfl⟩ := Prod.mk.inj (Option.some.inj hx)
      exact ⟨hr', hne, rfl⟩
  · rintro ⟨hr, hne, rfl⟩
    refine ⟨r, hr, ?_⟩
    split
    · next hnil => exact absurd hnil hne
    · rfl

/-- What the list of moves of a set is. -/
structure MovesOf (m : Source) (s : StateSet) (ms : List (CodeRange × StateSet)) : Prop where
  ascending : ms.Pairwise fun x y => x.1.hi < y.1.lo
  nonempty : ∀ x ∈ ms, x.1.lo ≤ x.1.hi
  leads : ∀ x ∈ ms, ∀ c, x.1.contains c → Leads m s c x.2
  complete : ∀ c p, Reads m s c p → ∃ x ∈ ms, x.1.contains c

theorem movesOf_moves {m : Source} {n : Nat} (hm : Source.Sound m n) (s : StateSet) :
    MovesOf m s (moves m s) := by
  have below := cuts_le_last (valid_leaving hm s)
  refine ⟨?_, ?_, ?_, ?_⟩
  · refine List.Pairwise.filterMap _ (fun r r' hlt x hx y hy => ?_)
      (pairwise_stretches (pairwise_cuts _) below)
    split at hx
    · simp at hx
    · split at hy
      · simp at hy
      · cases hx
        cases hy
        exact hlt
  · rintro ⟨r, t⟩ hx
    exact (stretch_of_mem (pairwise_cuts _) below r (mem_moves.mp hx).1).valid.1
  · rintro ⟨r, t⟩ hx c hc
    obtain ⟨hr, hne, rfl⟩ := mem_moves.mp hx
    refine ⟨?_, fun q => ?_⟩
    · obtain ⟨p, hp⟩ := List.exists_mem_of_ne_nil _ hne
      exact ⟨p, (mem_above hm hr hc).mp hp⟩
    · simp only [StateSet.contains_closure, mem_above hm hr hc]
  · intro c p hp
    obtain ⟨r, hr, hc⟩ := reads_iff.mp hp
    have hmem := List.mem_map_of_mem (f := Prod.fst) hr
    have hv := valid_leaving hm s r hmem
    have hrc := hc
    simp only [CodeRange.contains, Bool.and_eq_true, decide_eq_true_eq] at hrc
    obtain ⟨x, hx, hxc⟩ := exists_stretch (Nat.le_trans hrc.2 hv.2)
      ⟨r.lo, mem_cuts.mpr ⟨r, hmem, .inl rfl⟩, hrc.1⟩
    have := (mem_above hm hx hxc).mpr hp
    exact ⟨(x, _), mem_moves.mpr ⟨hx, List.ne_nil_of_mem this, rfl⟩, hxc⟩

/-! ## Anchors -/

/-- What passing an anchor any number of times makes of the set `s`. -/
def passed (a : Anchor) (s : StateSet) : StateSet :=
  s.extend a.links
    (a.edges.filterMap fun (source, target) => if s.contains source then some target else none)

/-- What the construction expects of an anchor. -/
structure Anchor.Sound (a : Anchor) (m : Source) (n : Nat) : Prop where
  edge_lt : ∀ p q, (p, q) ∈ a.edges → q < n
  linked : ∀ p q, Linked a.links p q ↔ Linked m.silent p q ∨ (p, q) ∈ a.edges

variable {m : Source} {n : Nat} {a : Anchor}

theorem contains_passed (ha : Anchor.Sound a m n) {s : StateSet} (hs : Settled m n s) {q : Nat} :
    (passed a s).contains q ↔ ∃ p, s.contains p ∧ ReflTransGen (Linked a.links) p q := by
  have mem_targets : ∀ q, (q ∈ a.edges.filterMap fun (source, target) =>
      if s.contains source then some target else none) ↔ ∃ p, s.contains p ∧ (p, q) ∈ a.edges := by
    intro q
    rw [List.mem_filterMap]
    constructor
    · rintro ⟨⟨p, p'⟩, hp, h⟩
      dsimp only at h
      split at h
      · next hc =>
        simp only [Option.some.injEq] at h
        exact ⟨p, hc, h ▸ hp⟩
      · simp at h
    · rintro ⟨p, hc, hp⟩
      exact ⟨(p, q), hp, if_pos hc⟩
  rw [passed, StateSet.contains_extend]
  · constructor
    · rintro ⟨p, hp | hp, hpq⟩
      · exact ⟨p, hp, hpq⟩
      · obtain ⟨p', hp', he⟩ := (mem_targets p).mp hp
        exact ⟨p', hp', .head ((ha.linked p' p).mpr (.inr he)) hpq⟩
    · rintro ⟨p, hp, hpq⟩
      exact ⟨p, .inl hp, hpq⟩
  · intro p q hp hpq
    rcases (ha.linked p q).mp hpq with h | h
    · exact .inl (hs.closed p q hp h)
    · exact .inr ((mem_targets q).mpr ⟨p, hp, h⟩)

theorem settled_passed (hm : Source.Sound m n) (ha : Anchor.Sound a m n) {s : StateSet}
    (hs : Settled m n s) : Settled m n (passed a s) := by
  constructor
  · intro q hq
    obtain ⟨p, hp, hpq⟩ := (contains_passed ha hs).mp hq
    refine lt_of_reflTransGen (fun p q h => ?_) hpq (hs.within p hp)
    exact ((ha.linked p q).mp h).elim (hm.silent_lt p q) (ha.edge_lt p q)
  · intro p q hp hpq
    obtain ⟨p', hp', h⟩ := (contains_passed ha hs).mp hp
    exact (contains_passed ha hs).mpr ⟨p', hp', h.tail ((ha.linked p q).mpr (.inl hpq))⟩

/-! ## Describing one set -/

/-- What numbering the targets of moves comes to. -/
structure InternedMoves (P : StateSet → Prop) (sets : Array StateSet)
    (ms : List (CodeRange × StateSet)) (ts : List Transition) (sets' : Array StateSet) : Prop where
  numbering : Numbering P sets'
  keeps : Keeps sets sets'
  targets : List.Forall₂ (fun x t => t.range = x.1 ∧ sets'[t.target]? = some x.2) ms ts

theorem interned_internMoves {P : StateSet → Prop} {sets : Array StateSet} (hn : Numbering P sets)
    {ms : List (CodeRange × StateSet)} (hms : ∀ x ∈ ms, P x.2) :
    InternedMoves P sets ms (internMoves sets ms).1 (internMoves sets ms).2 := by
  induction ms generalizing sets with
  | nil => exact ⟨hn, .refl _, .nil⟩
  | cons x ms ih =>
    obtain ⟨r, s⟩ := x
    rw [List.forall_mem_cons] at hms
    have first := interned_intern hn hms.1
    have rest := ih first.numbering hms.2
    exact ⟨rest.numbering, first.keeps.trans rest.keeps,
      .cons ⟨rfl, rest.keeps.get first.get⟩ rest.targets⟩

/-- `target` is where the anchor leads from `s`, unless it leads nowhere new. -/
def Passes (a : Anchor) (sets : Array StateSet) (s : StateSet) : Option Nat → Prop
  | none => passed a s = s
  | some i => sets[i]? = some (passed a s)

theorem Passes.keep {sets sets' : Array StateSet} (h : Keeps sets sets') {s : StateSet}
    {target : Option Nat} (hp : Passes a sets s target) : Passes a sets' s target := by
  cases target with
  | none => exact hp
  | some i => exact h.get hp

/-- What numbering the target of an anchor comes to. -/
structure InternedAnchor (P : StateSet → Prop) (sets : Array StateSet) (a : Anchor) (s : StateSet)
    (target : Option Nat) (sets' : Array StateSet) : Prop where
  numbering : Numbering P sets'
  keeps : Keeps sets sets'
  passes : Passes a sets' s target

theorem interned_internAnchor {P : StateSet → Prop} {sets : Array StateSet} (hn : Numbering P sets)
    {s : StateSet} (hp : P (passed a s)) :
    InternedAnchor P sets a s (internAnchor sets a s).1 (internAnchor sets a s).2 := by
  unfold internAnchor
  dsimp only
  split
  · next same => exact ⟨hn, .refl _, same⟩
  · have step := interned_intern hn hp
    exact ⟨step.numbering, step.keeps, step.get⟩

/-- The automaton state `st` describes the set `s`; targets are numbers of sets among `sets`. -/
structure Describes (m : Source) (onStart onEnd : Anchor) (sets : Array StateSet) (s : StateSet)
    (st : AutomatonState) : Prop where
  accepting : st.accepting = s.contains m.accept
  ordered : Transition.Ordered st.transitions.toList
  leads : ∀ t ∈ st.transitions, ∀ c, t.range.contains c →
    ∃ u, sets[t.target]? = some u ∧ Leads m s c u
  complete : ∀ c p, Reads m s c p → ∃ t ∈ st.transitions, t.range.contains c
  onStart : Passes onStart sets s st.onStart
  onEnd : Passes onEnd sets s st.onEnd

theorem Describes.keep {onStart onEnd : Anchor} {sets sets' : Array StateSet}
    (h : Keeps sets sets') {s : StateSet} {st : AutomatonState}
    (d : Describes m onStart onEnd sets s st) : Describes m onStart onEnd sets' s st := by
  refine ⟨d.accepting, d.ordered, fun t ht c hc => ?_, d.complete, d.onStart.keep h, d.onEnd.keep h⟩
  obtain ⟨u, hu, hl⟩ := d.leads t ht c hc
  exact ⟨u, h.get hu, hl⟩

/-- Numbered moves are transitions in order. -/
theorem ordered_of_moves {s : StateSet} {sets : Array StateSet} {ms : List (CodeRange × StateSet)}
    {ts : List Transition} (hms : MovesOf m s ms)
    (h : List.Forall₂ (fun x t => t.range = x.1 ∧ sets[t.target]? = some x.2) ms ts) :
    Transition.Ordered ts := by
  have ranges : ts.map (·.range) = ms.map (·.1) := by
    clear hms
    induction h with
    | nil => rfl
    | cons hx _ ih => rw [List.map_cons, List.map_cons, hx.1, ih]
  constructor
  · have ascending : (ms.map (·.1)).Pairwise fun r r' => r.hi < r'.lo :=
      List.pairwise_map.mpr hms.ascending
    exact List.pairwise_map.mp (ranges ▸ ascending)
  · intro t ht
    have hr : t.range ∈ ms.map (·.1) := ranges ▸ List.mem_map_of_mem ht
    obtain ⟨x, hx, hxt⟩ := List.mem_map.mp hr
    exact hxt ▸ hms.nonempty x hx

/-- The transitions of numbered moves lead where the moves lead. -/
theorem goes_iff {sets : Array StateSet} {ms : List (CodeRange × StateSet)} {ts : List Transition}
    (h : List.Forall₂ (fun x t => t.range = x.1 ∧ sets[t.target]? = some x.2) ms ts) {c : Nat} :
    (∀ q, Goes ts c q → ∃ x ∈ ms, x.1.contains c ∧ sets[q]? = some x.2) ∧
      ∀ x ∈ ms, x.1.contains c → ∃ q, Goes ts c q := by
  induction h with
  | nil => simp [Goes]
  | @cons x t ms ts hx _ ih =>
    constructor
    · intro q hq
      rcases goes_cons.mp hq with ⟨hc, rfl⟩ | hq
      · exact ⟨x, List.mem_cons_self, hx.1 ▸ hc, hx.2⟩
      · obtain ⟨y, hy, h⟩ := ih.1 q hq
        exact ⟨y, List.mem_cons_of_mem _ hy, h⟩
    · refine List.forall_mem_cons.mpr ⟨fun hc => ?_, fun y hy hc => ?_⟩
      · exact ⟨t.target, goes_cons.mpr (.inl ⟨hx.1 ▸ hc, rfl⟩)⟩
      · obtain ⟨q, hq⟩ := ih.2 y hy hc
        exact ⟨q, goes_cons.mpr (.inr hq)⟩

/-- What describing a set comes to. -/
structure Expanded (m : Source) (n : Nat) (onStart onEnd : Anchor) (sets : Array StateSet)
    (s : StateSet) (st : AutomatonState) (sets' : Array StateSet) : Prop where
  numbering : Numbering (Settled m n) sets'
  keeps : Keeps sets sets'
  describes : Describes m onStart onEnd sets' s st

variable {onStart onEnd : Anchor}

theorem expanded_expand (hm : Source.Sound m n) (hstart : Anchor.Sound onStart m n)
    (hend : Anchor.Sound onEnd m n) {sets : Array StateSet} (hn : Numbering (Settled m n) sets)
    {s : StateSet} (hs : Settled m n s) :
    Expanded m n onStart onEnd sets s (expand m onStart onEnd s sets).1
      (expand m onStart onEnd s sets).2 := by
  have hms := movesOf_moves hm s
  have settled : ∀ x ∈ moves m s, Settled m n x.2 := fun x hx =>
    (hms.leads x hx x.1.lo (by simpa [CodeRange.contains] using hms.nonempty x hx)).settled hm
  have one := interned_internMoves hn settled
  have two := interned_internAnchor one.numbering (settled_passed hm hstart hs)
  have three := interned_internAnchor two.numbering (settled_passed hm hend hs)
  have later := two.keeps.trans three.keeps
  have joined := joined_join (ordered_of_moves hms one.targets)
  refine ⟨three.numbering, one.keeps.trans later, rfl, ?_, ?_, ?_, two.passes.keep three.keeps,
    three.passes⟩
  · simpa [expand] using joined.ordered
  · intro t ht c hc
    have hgoes : Goes (join (internMoves sets (moves m s)).1) c t.target :=
      ⟨t, by simpa [expand] using ht, hc, rfl⟩
    obtain ⟨x, hx, hxc, hget⟩ := (goes_iff one.targets).1 _ ((joined.goes c _).mp hgoes)
    exact ⟨x.2, later.get hget, hms.leads x hx c hxc⟩
  · intro c p hp
    obtain ⟨x, hx, hxc⟩ := hms.complete c p hp
    obtain ⟨q, hq⟩ := (goes_iff one.targets).2 x hx hxc
    obtain ⟨t, ht, hc, _⟩ := (joined.goes c q).mpr hq
    exact ⟨t, by simpa [expand] using ht, hc⟩

/-! ## All sets -/

/-- The states of a finished construction describe all the sets that were met. -/
structure Explored (m : Source) (n : Nat) (onStart onEnd : Anchor) (sets : Array StateSet)
    (states : Array AutomatonState) (final : Array StateSet) : Prop where
  numbering : Numbering (Settled m n) final
  keeps : Keeps sets final
  size_eq : states.size = final.size
  describes : ∀ (i : Nat) (s : StateSet), final[i]? = some s →
    ∃ st, states[i]? = some st ∧ Describes m onStart onEnd final s st

/-- Every state describes the set of its number. -/
def DescribesAll (m : Source) (onStart onEnd : Anchor) (sets : Array StateSet)
    (done : Array AutomatonState) : Prop :=
  ∀ (i : Nat) (st : AutomatonState), done[i]? = some st →
    ∃ s, sets[i]? = some s ∧ Describes m onStart onEnd sets s st

theorem DescribesAll.push {sets sets' : Array StateSet} {done : Array AutomatonState}
    {s : StateSet} {st : AutomatonState} (h : DescribesAll m onStart onEnd sets done)
    (hk : Keeps sets sets') (hs : sets[done.size]? = some s)
    (hd : Describes m onStart onEnd sets' s st) :
    DescribesAll m onStart onEnd sets' (done.push st) := by
  intro i st' hi
  rw [Array.getElem?_push] at hi
  split at hi
  · next heq =>
    subst heq
    simp only [Option.some.injEq] at hi
    exact ⟨s, hk.get hs, hi ▸ hd⟩
  · obtain ⟨u, hu, hd'⟩ := h i st' hi
    exact ⟨u, hk.get hu, hd'.keep hk⟩

theorem explored_of_size_eq {sets : Array StateSet} {done : Array AutomatonState}
    (hn : Numbering (Settled m n) sets) (heq : done.size = sets.size)
    (hdone : DescribesAll m onStart onEnd sets done) :
    Explored m n onStart onEnd sets done sets := by
  refine ⟨hn, .refl _, heq, fun i s hs => ?_⟩
  have hi : i < done.size := heq ▸ (Array.getElem?_eq_some_iff.mp hs).1
  obtain ⟨t, ht, hd⟩ := hdone i done[i] (Array.getElem?_eq_getElem hi)
  obtain rfl : s = t := Option.some.inj (hs.symm.trans ht)
  exact ⟨done[i], Array.getElem?_eq_getElem hi, hd⟩

theorem Numbering.size_le {sets : Array StateSet} (hn : Numbering (Settled m n) sets) :
    sets.size ≤ 2 ^ n := by
  simpa using StateSet.length_le_of_nodup hn.nodup fun s hs =>
    (hn.all s (Array.mem_toList_iff.mp hs)).within

theorem explore_describes (hm : Source.Sound m n) (hstart : Anchor.Sound onStart m n)
    (hend : Anchor.Sound onEnd m n) {fuel : Nat} {sets : Array StateSet}
    {done : Array AutomatonState} (hn : Numbering (Settled m n) sets)
    (hfuel : 2 ^ n ≤ fuel + done.size) (hsize : done.size ≤ sets.size)
    (hdone : DescribesAll m onStart onEnd sets done) :
    ∃ final, Explored m n onStart onEnd sets (explore m onStart onEnd fuel sets done) final := by
  induction fuel generalizing sets done with
  | zero =>
    -- There are no more sets than this, so that all of them are described.
    have := hn.size_le
    rw [explore]
    exact ⟨sets, explored_of_size_eq hn (by omega) hdone⟩
  | succ fuel ih =>
    rw [explore]
    split
    · next h =>
      have heq := Nat.le_antisymm hsize (Array.getElem?_eq_none_iff.mp h)
      exact ⟨sets, explored_of_size_eq hn heq hdone⟩
    · next s hs =>
      obtain ⟨hlt, hget⟩ := Array.getElem?_eq_some_iff.mp hs
      have step := expanded_expand hm hstart hend hn (hn.all s (hget ▸ Array.getElem_mem hlt))
      have := step.keeps.size_le
      obtain ⟨final, h⟩ := ih step.numbering (by rw [Array.size_push]; omega)
        (by rw [Array.size_push]; omega) (hdone.push step.keeps hs step.describes)
      exact ⟨final, h.numbering, step.keeps.trans h.keeps, h.size_eq, h.describes⟩

end Subset

end ScrapeConfig
