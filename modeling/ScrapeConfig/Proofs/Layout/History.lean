import Mathlib.Data.List.Induction
import Mathlib.Order.Bounds.Defs
import ScrapeConfig.Proofs.Layout.Nesting

/-!
# The history of a tracker

A tracker is told the white space of lines and the end of the document, and asked for boundaries, in
any order. Its levels always descend to zero, so that there is a block to leave for as long as a line
lies below the level. What it has queued is a bracket structure, in which a closing boundary closes the
innermost open block.

Results:
1. `Boundary.Balanced`: boundaries that close every block that they open. `Boundary.exists_opening`
   finds the boundary that has opened a block.
2. `Boundary.leaving_eq_filter`, `Boundary.track_crossing`: what is in front of a line, and which blocks
   are open behind it, where the levels of the open blocks descend.
3. `Tracker.History`: the boundaries that were queued and those that were taken. `History.Kept` is the
   invariant of its steps.
4. `Tracker.history_faithful`: a tracker after any calls.
-/

namespace ScrapeConfig

namespace Boundary

/-! ## Brackets -/

/-- Boundaries that close every block that they open, each on its own level, and no others. -/
inductive Balanced : List Boundary → Prop
  | nil : Balanced []
  | sameLevel {level : Nat} {bs : List Boundary} (rest : Balanced bs) :
    Balanced (.sameLevel level :: bs)
  | badIndent {level : Nat} {bs : List Boundary} (rest : Balanced bs) :
    Balanced (.badIndent level :: bs)
  | block {level : Nat} {inner bs : List Boundary} (inside : Balanced inner) (rest : Balanced bs) :
    Balanced (.blockOpen level :: (inner ++ .blockClose level :: bs))

/-- The boundaries leave the given blocks open: what stands behind the opening of the innermost one is
balanced, and in front of it the others are open. -/
def Opens : (blocks : List Nat) → List Boundary → Prop
  | [], bs => Balanced bs
  | level :: outer, bs =>
    ∃ before inner, bs = before ++ .blockOpen level :: inner ∧ Balanced inner ∧ Opens outer before

theorem Balanced.append {bs cs : List Boundary} (hb : Balanced bs) (hc : Balanced cs) :
    Balanced (bs ++ cs) := by
  induction hb with
  | nil => exact hc
  | sameLevel _ ih => exact .sameLevel ih
  | badIndent _ ih => exact .badIndent ih
  | block inside _ _ ih =>
    rw [List.cons_append, List.append_assoc, List.cons_append]
    exact .block inside ih

theorem Opens.append {blocks : List Nat} {bs cs : List Boundary} (hb : Opens blocks bs)
    (hc : Balanced cs) : Opens blocks (bs ++ cs) := by
  cases blocks with
  | nil => exact Balanced.append hb hc
  | cons level outer =>
    obtain ⟨before, inner, rfl, inside, outside⟩ := hb
    exact ⟨before, inner ++ cs, by rw [List.append_assoc, List.cons_append], inside.append hc, outside⟩

/-- One more boundary. -/
theorem Opens.nest {blocks blocks' : List Nat} {bs : List Boundary} {b : Boundary}
    (h : Opens blocks bs) (hb : nest blocks b = some blocks') : Opens blocks' (bs ++ [b]) := by
  cases b with
  | blockOpen level =>
    obtain rfl := Option.some.inj hb
    exact ⟨bs, [], rfl, .nil, h⟩
  | blockClose level =>
    obtain rfl := nest_blockClose_eq_some_iff.mp hb
    obtain ⟨before, inner, rfl, inside, outside⟩ := h
    rw [List.append_assoc, List.cons_append]
    exact outside.append (.block inside .nil)
  | sameLevel level =>
    obtain rfl := Option.some.inj hb
    exact h.append (.sameLevel .nil)
  | badIndent level =>
    obtain rfl := Option.some.inj hb
    exact h.append (.badIndent .nil)

theorem opens_of_nest {bs : List Boundary} {blocks : List Nat} (h : bs.foldlM nest [] = some blocks) :
    Opens blocks bs := by
  induction bs using List.reverseRecOn generalizing blocks with
  | nil =>
    obtain rfl := Option.some.inj h
    exact .nil
  | append_singleton bs b ih =>
    rw [List.foldlM_append] at h
    obtain ⟨blocks₁, hbs, h⟩ := Option.bind_eq_some_iff.mp h
    obtain ⟨blocks₂, hb, hnil⟩ := Option.bind_eq_some_iff.mp h
    obtain rfl := Option.some.inj hnil
    exact (ih hbs).nest hb

/-- What a closing boundary closes: behind the opening of its block, all blocks have been closed. -/
theorem exists_opening {front back : List Boundary} {level : Nat} {blocks : List Nat}
    (h : (front ++ .blockClose level :: back).foldlM nest [] = some blocks) :
    ∃ before inner, front = before ++ .blockOpen level :: inner ∧ Balanced inner := by
  rw [List.foldlM_append] at h
  obtain ⟨blocks₁, hfront, h⟩ := Option.bind_eq_some_iff.mp h
  rw [List.foldlM_cons] at h
  obtain ⟨outer, hclose, _⟩ := Option.bind_eq_some_iff.mp h
  obtain rfl := nest_blockClose_eq_some_iff.mp hclose
  obtain ⟨before, inner, heq, inside, _⟩ := opens_of_nest hfront
  exact ⟨before, inner, heq, inside⟩

/-! ## Descending levels -/

variable {n : Nat} {blocks above below : List Nat}

theorem track_closing (above below : List Nat) :
    (above.map .blockClose).foldl track (above ++ below) = below := by
  induction above with
  | nil => rfl
  | cons level above ih => exact ih

theorem le_headD (descending : (blocks ++ [0]).Pairwise (· > ·)) {level : Nat}
    (h : level ∈ blocks ++ [0]) : level ≤ blocks.headD 0 := by
  cases blocks with
  | nil => exact Nat.le_of_eq (List.mem_singleton.mp h)
  | cons first rest =>
    rcases List.mem_cons.mp h with rfl | h
    · exact Nat.le_refl level
    · exact Nat.le_of_lt (List.rel_of_pairwise_cons descending h)

theorem filter_append_filter (descending : blocks.Pairwise (· > ·)) (n : Nat) :
    blocks.filter (n < ·) ++ blocks.filter (· ≤ n) = blocks := by
  induction blocks with
  | nil => rfl
  | cons level blocks ih =>
    obtain ⟨lower, descending⟩ := List.pairwise_cons.mp descending
    by_cases above : n < level
    · rw [List.filter_cons_of_pos (by simpa using above),
        List.filter_cons_of_neg (by simpa using above), List.cons_append, ih descending]
    · have none : (level :: blocks).filter (n < ·) = [] := by
        refine List.filter_eq_nil_iff.mpr (List.forall_mem_cons.mpr ⟨by simpa using above, ?_⟩)
        intro l hl
        have := lower l hl
        simp only [decide_eq_true_eq]
        omega
      have all : (level :: blocks).filter (· ≤ n) = level :: blocks := by
        refine List.filter_eq_self.mpr (List.forall_mem_cons.mpr ⟨by simpa using above, ?_⟩)
        intro l hl
        have := lower l hl
        simp only [decide_eq_true_eq]
        omega
      rw [none, all, List.nil_append]

theorem leaving_append (h : ∀ level ∈ above, n < level) (below : List Nat) :
    leaving n (above ++ below) = above.map .blockClose ++ leaving n below := by
  induction above with
  | nil => rfl
  | cons level above ih =>
    obtain ⟨first, h⟩ := List.forall_mem_cons.mp h
    rw [List.cons_append, leaving, if_pos first, ih h, List.map_cons, List.cons_append]

/-- The boundary at a line of level `n`, where `level` is the innermost one that is not above it. -/
def arrival (n level : Nat) : Boundary := if n = level then .sameLevel n else .badIndent level

theorem leaving_of_le (h : ∀ level ∈ below, level ≤ n) :
    leaving n below = [arrival n (below.headD 0)] := by
  cases below with
  | nil =>
    rw [leaving, arrival, List.headD_nil]
    split
    · next zero => rw [zero]
    · rfl
  | cons level below =>
    rw [leaving, if_neg (Nat.not_lt.mpr (h level List.mem_cons_self)), arrival, List.headD_cons]
    split
    · next same => rw [same]
    · rfl

theorem leaving_eq_filter (descending : blocks.Pairwise (· > ·)) (n : Nat) :
    leaving n blocks = (blocks.filter (n < ·)).map .blockClose ++
      [arrival n ((blocks.filter (· ≤ n)).headD 0)] := by
  conv => lhs; rw [← filter_append_filter descending n]
  rw [leaving_append fun level hl => by simpa using (List.mem_filter.mp hl).2,
    leaving_of_le fun level hl => by simpa using (List.mem_filter.mp hl).2]

/-- The open blocks behind the boundaries of a line. -/
theorem track_crossing (descending : blocks.Pairwise (· > ·)) (n : Nat) :
    (crossing n blocks).foldl track blocks =
      if blocks.headD 0 < n then n :: blocks else blocks.filter (· ≤ n) := by
  rw [crossing]
  split
  · rfl
  · have closed := track_closing (blocks.filter (n < ·)) (blocks.filter (· ≤ n))
    rw [filter_append_filter descending] at closed
    rw [leaving_eq_filter descending, List.foldl_append, closed, arrival]
    split <;> rfl

/-- The level at which a line arrives is the greatest that is not above it. -/
theorem isGreatest_arrival (descending : blocks.Pairwise (· > ·)) (n : Nat) :
    IsGreatest {level | level ∈ blocks ++ [0] ∧ level ≤ n} ((blocks.filter (· ≤ n)).headD 0) := by
  have kept {level : Nat} : level ∈ blocks.filter (· ≤ n) ↔ level ∈ blocks ∧ level ≤ n := by simp
  have sorted := descending.filter (· ≤ n)
  cases below : blocks.filter (· ≤ n) with
  | nil =>
    refine ⟨⟨by simp, Nat.zero_le n⟩, fun level ⟨hl, le⟩ => ?_⟩
    rcases List.mem_append.mp hl with hl | hl
    · exact absurd (kept.mpr ⟨hl, le⟩) (below ▸ List.not_mem_nil)
    · exact Nat.le_of_eq (List.mem_singleton.mp hl)
  | cons first rest =>
    rw [below] at sorted
    obtain ⟨hfirst, le⟩ := kept.mp (below ▸ List.mem_cons_self)
    refine ⟨⟨List.mem_append_left _ hfirst, le⟩, fun level ⟨hl, le⟩ => ?_⟩
    rcases List.mem_append.mp hl with hl | hl
    · rcases List.mem_cons.mp (below ▸ kept.mpr ⟨hl, le⟩) with rfl | hl
      · exact Nat.le_refl level
      · exact Nat.le_of_lt (List.rel_of_pairwise_cons sorted hl)
    · exact List.mem_singleton.mp hl ▸ Nat.zero_le first

end Boundary

namespace Tracker

open Boundary (crossing track arrival)

variable {t : Tracker} {blocks : List Nat}

/-! ## Single calls -/

theorem headD_of_levels (levels : t.level :: t.enclosing = blocks ++ [0]) :
    blocks.headD 0 = t.level :=
  have drained : Holds { t with pending := [] } blocks := ⟨rfl, levels⟩
  drained.headD

/-- Boundaries that wait already do not matter to what is queued. -/
theorem pending_moveTo_append (levels : t.level :: t.enclosing = blocks ++ [0]) (n : Nat) :
    (t.moveTo n).pending = t.pending ++ crossing n blocks ∧
      (t.moveTo n).level :: (t.moveTo n).enclosing =
        (crossing n blocks).foldl track blocks ++ [0] := by
  have drained : Holds { t with pending := [] } blocks := ⟨rfl, levels⟩
  rw [← levels_moveTo drained n, ← pending_moveTo drained n, moveTo, moveTo]
  split
  · exact ⟨rfl, rfl⟩
  · split
    · exact ⟨rfl, rfl⟩
    · exact ⟨List.append_assoc .., rfl⟩

theorem level_closeAll (level : Nat) (enclosing : List Nat) :
    (finish.closeAll level enclosing).2 = (level :: enclosing).getLast (List.cons_ne_nil _ _) := by
  induction enclosing generalizing level with
  | nil => rfl
  | cons outer rest ih => exact ih outer

theorem finish_eq (levels : t.level :: t.enclosing = blocks ++ [0]) :
    t.finish = ⟨0, [], t.pending ++ blocks.map .blockClose⟩ := by
  have level : (finish.closeAll t.level t.enclosing).2 = 0 := by
    rw [level_closeAll]
    simp only [levels, List.getLast_concat]
  rw [finish]
  simp only [level, closeAll_eq levels]

/-! ## Calls -/

/-- What a tracker is told or asked. -/
inductive Call where
  | indent (space : List Char)
  | finish
  | takeNext

/-- A tracker, with all boundaries that it has queued and all that were taken from it. -/
structure History where
  tracker : Tracker := {}
  queued : List Boundary := []
  taken : List Boundary := []

namespace History

/-- The tracker becomes `t`. What then waits behind the boundaries that waited before is new. -/
def become (h : History) (t : Tracker) : History :=
  { h with tracker := t, queued := h.queued ++ t.pending.drop h.tracker.pending.length }

def call (h : History) : Call → History
  | .indent space => h.become (h.tracker.indent space)
  | .finish => h.become h.tracker.finish
  | .takeNext =>
    let (b, t) := h.tracker.takeNext
    { h with tracker := t, taken := h.taken ++ b.toList }

/-- The history of a new tracker. -/
def ofCalls (cs : List Call) : History := cs.foldl call {}

/-- What every call keeps: the levels descend to zero, the boundaries that were queued have opened the
blocks of the tracker, and those that were not taken wait in order. -/
structure Kept (h : History) (blocks : List Nat) : Prop where
  levels : h.tracker.level :: h.tracker.enclosing = blocks ++ [0]
  descending : (blocks ++ [0]).Pairwise (· > ·)
  nested : h.queued.foldlM Boundary.nest [] = some blocks
  order : h.queued = h.taken ++ h.tracker.pending

variable {h : History}

theorem kept_empty : Kept {} [] := ⟨rfl, List.pairwise_singleton .., rfl, rfl⟩

/-- New boundaries that nest keep the invariant, if the levels do. -/
theorem Kept.become {t : Tracker} {bs : List Boundary} {blocks' : List Nat} (kept : h.Kept blocks)
    (pending : t.pending = h.tracker.pending ++ bs)
    (nested : bs.foldlM Boundary.nest blocks = some blocks')
    (levels : t.level :: t.enclosing = blocks' ++ [0])
    (descending : (blocks' ++ [0]).Pairwise (· > ·)) : (h.become t).Kept blocks' := by
  have queued : (h.become t).queued = h.queued ++ bs := by
    rw [History.become, pending, List.drop_left]
  refine ⟨levels, descending, ?_, ?_⟩
  · rw [queued, List.foldlM_append, kept.nested]
    exact nested
  · rw [queued, kept.order, List.append_assoc, ← pending]
    rfl

theorem Kept.enclosing_eq_nil_iff (kept : h.Kept blocks) :
    h.tracker.enclosing = [] ↔ h.tracker.level = 0 := by
  obtain ⟨levels, descending, _, _⟩ := kept
  cases blocks with
  | nil =>
    obtain ⟨level, enclosing⟩ := List.cons.inj levels
    exact iff_of_true enclosing level
  | cons inner outer =>
    obtain ⟨level, enclosing⟩ := List.cons.inj levels
    have positive : 0 < inner :=
      List.rel_of_pairwise_cons descending (List.mem_append_right _ List.mem_cons_self)
    exact iff_of_false (enclosing ▸ List.concat_ne_nil 0 outer) (level ▸ Nat.ne_of_gt positive)

theorem Kept.call (kept : h.Kept blocks) (c : Call) : ∃ blocks', (h.call c).Kept blocks' := by
  cases c with
  | indent space =>
    obtain ⟨pending, levels⟩ := pending_moveTo_append kept.levels (measure space)
    refine ⟨_, kept.become pending (Boundary.nest_crossing _ _) levels ?_⟩
    rw [Boundary.track_crossing (List.pairwise_append.mp kept.descending).1]
    split
    · next higher =>
      have lower : ∀ level ∈ blocks ++ [0], level < measure space := fun level hl =>
        Nat.lt_of_le_of_lt (Boundary.le_headD kept.descending hl) higher
      exact List.pairwise_cons.mpr ⟨lower, kept.descending⟩
    · have := kept.descending.filter (· ≤ measure space)
      rwa [List.filter_append] at this
  | finish =>
    have finished := finish_eq kept.levels
    have nested := Boundary.nest_closing blocks
    refine ⟨[], kept.become (congrArg pending finished) nested ?_ (List.pairwise_singleton ..)⟩
    rw [finished, List.nil_append]
  | takeNext =>
    refine ⟨blocks, ?_⟩
    rw [History.call, takeNext]
    cases hp : h.tracker.pending with
    | nil => exact ⟨kept.levels, kept.descending, kept.nested, by simpa using kept.order⟩
    | cons b bs =>
      refine ⟨kept.levels, kept.descending, kept.nested, ?_⟩
      rw [kept.order, hp]
      exact (List.append_cons ..)

theorem kept_ofCalls (cs : List Call) : ∃ blocks, (ofCalls cs).Kept blocks := by
  suffices ∀ h blocks, Kept h blocks → ∃ blocks', (cs.foldl History.call h).Kept blocks' from
    this {} [] kept_empty
  induction cs with
  | nil => exact fun h blocks kept => ⟨blocks, kept⟩
  | cons c cs ih =>
    intro h blocks kept
    obtain ⟨blocks', kept'⟩ := kept.call c
    exact ih _ _ kept'

/-! ## All calls -/

/-- Asked as often as boundaries wait, a tracker gives them all. -/
theorem drained_eq (h : History) :
    (List.replicate h.tracker.pending.length .takeNext).foldl call h =
      { h with
        tracker := { h.tracker with pending := [] }, taken := h.taken ++ h.tracker.pending } := by
  obtain ⟨⟨level, enclosing, pending⟩, queued, taken⟩ := h
  induction pending generalizing taken with
  | nil => simp
  | cons b bs ih =>
    rw [List.length_cons, List.replicate_succ, List.foldl_cons]
    refine (ih (taken ++ [b])).trans ?_
    rw [List.append_assoc, List.singleton_append]

end History

/-- How the tracker `t'` comes out of `t` by a line of level `n`. -/
structure Crosses (t : Tracker) (n : Nat) (t' : Tracker) : Prop where
  /-- The search for the level of the line does not end with an empty stack above it. -/
  reached : t'.level ≤ n
  above : t.level < n → t'.pending = t.pending ++ [.blockOpen n]
  same : n = t.level → t'.pending = t.pending ++ [.sameLevel n]
  below : n < t.level → ∃ last, t'.pending = t.pending ++
    (((t.level :: t.enclosing).filter (n < ·)).map .blockClose ++ [last]) ∧
      (n ∈ t.enclosing ∨ n = 0 → last = .sameLevel n) ∧
      (¬ (n ∈ t.enclosing ∨ n = 0) →
        ∃ m, IsGreatest {level | level ∈ t.enclosing ∧ level < n} m ∧ last = .badIndent m)

/-- What can be said of a tracker by its history. -/
structure Faithful (h : History) : Prop where
  /-- The stack ascends to the level, strictly. -/
  ascending : (h.tracker.enclosing.reverse ++ [h.tracker.level]).Pairwise (· < ·)
  outermost : h.tracker.enclosing = [] ↔ h.tracker.level = 0
  depth : h.tracker.depth + h.queued.countP (·.name = "BLOCK_CLOSE") =
    h.queued.countP (·.name = "BLOCK_OPEN")
  /-- Boundaries are taken in the order in which they were queued. -/
  order : h.queued = h.taken ++ h.tracker.pending
  drained : ((List.replicate h.tracker.pending.length .takeNext).foldl History.call h).taken =
    h.queued
  /-- In front of a closing boundary stands the opening one of its level, and all blocks that are opened
  between the two are closed between the two. -/
  closes : ∀ front level back, h.queued = front ++ .blockClose level :: back →
    ∃ before inner, front = before ++ .blockOpen level :: inner ∧ Boundary.Balanced inner
  indent : ∀ space, h.tracker.Crosses (measure space) (h.tracker.indent space)
  /-- At the end the open blocks are closed, the innermost first. -/
  finish : ∃ blocks : List Nat, blocks.length = h.tracker.depth ∧
    h.tracker.level :: h.tracker.enclosing = blocks ++ [0] ∧
      h.tracker.finish = ⟨0, [], h.tracker.pending ++ blocks.map .blockClose⟩

/-- Where a line arrives that lies below the level, said with the stack. -/
theorem arrival_eq {m : Nat} (descent : n < t.level)
    (greatest : IsGreatest {level | level ∈ t.level :: t.enclosing ∧ level ≤ n} m)
    (bottom : 0 ∈ t.level :: t.enclosing) :
    (n ∈ t.enclosing ∨ n = 0 → arrival n m = .sameLevel n) ∧
      (¬ (n ∈ t.enclosing ∨ n = 0) →
        IsGreatest {level | level ∈ t.enclosing ∧ level < n} m ∧ arrival n m = .badIndent m) := by
  obtain ⟨⟨hm, le⟩, upper⟩ := greatest
  have enclosing : m ∈ t.enclosing :=
    (List.mem_cons.mp hm).resolve_left (Nat.ne_of_lt (Nat.lt_of_le_of_lt le descent))
  constructor
  · intro found
    have present : n ∈ t.level :: t.enclosing := by
      rcases found with hn | rfl
      · exact List.mem_cons_of_mem _ hn
      · exact bottom
    exact if_pos (Nat.le_antisymm (upper ⟨present, Nat.le_refl n⟩) le)
  · intro missing
    have differ : n ≠ m := fun same => missing (.inl (same ▸ enclosing))
    refine ⟨⟨⟨enclosing, Nat.lt_of_le_of_ne le differ.symm⟩, fun level ⟨hl, lt⟩ => ?_⟩, if_neg differ⟩
    exact upper ⟨List.mem_cons_of_mem _ hl, Nat.le_of_lt lt⟩

theorem crosses_moveTo (levels : t.level :: t.enclosing = blocks ++ [0])
    (descending : (blocks ++ [0]).Pairwise (· > ·)) (n : Nat) : t.Crosses n (t.moveTo n) := by
  obtain ⟨pending, levels'⟩ := pending_moveTo_append levels n
  have sorted := (List.pairwise_append.mp descending).1
  have greatest := Boundary.isGreatest_arrival sorted n
  have level := headD_of_levels levels
  rw [Boundary.track_crossing sorted] at levels'
  refine ⟨?_, fun above => ?_, fun same => ?_, fun below => ?_⟩
  · rw [← headD_of_levels levels']
    split
    · exact Nat.le_refl n
    · exact greatest.1.2
  · rw [pending, crossing, if_pos (level ▸ above)]
  · rw [pending, crossing, if_neg (level ▸ same ▸ Nat.lt_irrefl n), same, ← level,
      Boundary.leaving_headD]
  · have closed : (t.level :: t.enclosing).filter (n < ·) = blocks.filter (n < ·) := by
      rw [levels, List.filter_append]
      exact List.append_nil _
    rw [← levels] at greatest
    obtain ⟨found, missing⟩ := arrival_eq below greatest (levels ▸ by simp)
    refine ⟨_, ?_, found, fun h => ⟨_, missing h⟩⟩
    rw [pending, crossing, if_neg (level ▸ Nat.lt_asymm below), Boundary.leaving_eq_filter sorted,
      closed]

/-- Whatever a tracker is told and asked. -/
theorem history_faithful (cs : List Call) : Faithful (.ofCalls cs) := by
  obtain ⟨blocks, kept⟩ := History.kept_ofCalls cs
  have depth : (History.ofCalls cs).tracker.depth = blocks.length :=
    Nat.succ_inj.mp ((congrArg List.length kept.levels).trans List.length_append)
  refine
    { ascending := ?_
      outermost := ?_
      depth := ?_
      order := kept.order
      drained := ?_
      closes := fun front level back heq => Boundary.exists_opening (heq ▸ kept.nested)
      indent := fun space => crosses_moveTo kept.levels kept.descending (measure space)
      finish := ⟨blocks, depth.symm, kept.levels, finish_eq kept.levels⟩ }
  · have := List.pairwise_reverse.mpr kept.descending
    rwa [← kept.levels, List.reverse_cons] at this
  · exact kept.enclosing_eq_nil_iff
  · rw [depth, Nat.add_comm]
    exact Boundary.count_of_nest kept.nested
  · rw [History.drained_eq, kept.order]

end Tracker

end ScrapeConfig
