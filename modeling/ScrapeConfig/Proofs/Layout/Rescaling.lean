import Mathlib.Data.List.Forall2
import Mathlib.Order.Monotone.Basic
import ScrapeConfig.Proofs.Layout.History

/-!
# Wider and narrower indentation

A tracker compares levels and never counts in them. If other levels take the place of those of a
document, and keep their order and zero, then a tracker does the same as before on the new levels.

Results:
1. `Tracker.leave_rescaled`, `Tracker.moveTo_rescaled`, `Tracker.finish_rescaled`: single steps.
2. `Tracker.Call.Rescaled`: the same call, with white space that announces the new level.
3. `Tracker.History.ofCalls_rescaled`, `Tracker.history_rescaled`: any calls.
-/

namespace ScrapeConfig

variable {f : Nat → Nat}

/-- The boundary on another level. -/
def Boundary.rescale (f : Nat → Nat) : Boundary → Boundary
  | .blockOpen level => .blockOpen (f level)
  | .sameLevel level => .sameLevel (f level)
  | .blockClose level => .blockClose (f level)
  | .badIndent level => .badIndent (f level)

namespace Tracker

/-- The tracker on other levels. -/
def rescale (f : Nat → Nat) (t : Tracker) : Tracker :=
  ⟨f t.level, t.enclosing.map f, t.pending.map (.rescale f)⟩

/-! ## Steps -/

/-- Blocks are left for as long as before, by induction on the levels around them. -/
theorem leave_rescaled (mono : StrictMono f) {n level level' : Nat} {enclosing enclosing' : List Nat}
    {bs : List Boundary} (h : leave n level enclosing = (bs, level', enclosing')) :
    leave (f n) (f level) (enclosing.map f) =
      (bs.map (.rescale f), f level', enclosing'.map f) := by
  induction enclosing generalizing level bs with
  | nil =>
    obtain ⟨rfl, rfl, rfl⟩ : [] = bs ∧ level = level' ∧ [] = enclosing' := by simpa [leave] using h
    rfl
  | cons outer rest ih =>
    rw [leave] at h
    rw [List.map_cons, leave]
    split at h
    · next above =>
      rcases hrest : leave n outer rest with ⟨bs₁, level₁, enclosing₁⟩
      rw [hrest, Prod.mk.injEq, Prod.mk.injEq] at h
      obtain ⟨rfl, rfl, rfl⟩ := h
      rw [if_pos (mono above), ih hrest]
      rfl
    · next below =>
      rw [Prod.mk.injEq, Prod.mk.injEq] at h
      obtain ⟨rfl, rfl, rfl⟩ := h
      rw [if_neg (mt mono.lt_iff_lt.mp below)]
      rfl

theorem moveTo_rescaled (mono : StrictMono f) (t : Tracker) (n : Nat) :
    (t.rescale f).moveTo (f n) = (t.moveTo n).rescale f := by
  obtain ⟨level, enclosing, pending⟩ := t
  simp only [moveTo, rescale, mono.lt_iff_lt, mono.injective.eq_iff]
  split
  · simp [Boundary.rescale]
  · split
    · simp [Boundary.rescale]
    · rcases left : leave n level enclosing with ⟨bs, arrived, rest⟩
      simp only [leave_rescaled mono left, mono.injective.eq_iff]
      split <;> simp [Boundary.rescale]

theorem closeAll_rescaled (level : Nat) (enclosing : List Nat) :
    finish.closeAll (f level) (enclosing.map f) =
      ((finish.closeAll level enclosing).1.map (.rescale f), f (finish.closeAll level enclosing).2) := by
  induction enclosing generalizing level with
  | nil => rfl
  | cons outer rest ih =>
    rw [List.map_cons, finish.closeAll, ih outer]
    rfl

theorem finish_rescaled (t : Tracker) : (t.rescale f).finish = t.finish.rescale f := by
  obtain ⟨level, enclosing, pending⟩ := t
  simp [finish, rescale, closeAll_rescaled]

/-! ## Calls -/

/-- The same call; white space announces the new level where it announced the old one. -/
inductive Call.Rescaled (f : Nat → Nat) : Call → Call → Prop
  | indent {space space' : List Char} : measure space' = f (measure space) →
      Rescaled f (.indent space) (.indent space')
  | finish : Rescaled f .finish .finish
  | takeNext : Rescaled f .takeNext .takeNext

namespace History

def rescale (f : Nat → Nat) (h : History) : History :=
  ⟨h.tracker.rescale f, h.queued.map (.rescale f), h.taken.map (.rescale f)⟩

theorem become_rescaled (h : History) (t : Tracker) :
    (h.rescale f).become (t.rescale f) = (h.become t).rescale f := by
  simp [become, rescale, Tracker.rescale, List.map_drop]

theorem call_rescaled (mono : StrictMono f) (h : History) {c c' : Call} (hc : c.Rescaled f c') :
    (h.rescale f).call c' = (h.call c).rescale f := by
  cases hc with
  | @indent space space' announced =>
    have moved : (h.tracker.rescale f).indent space' = (h.tracker.indent space).rescale f := by
      rw [indent, indent, announced, moveTo_rescaled mono]
    rw [call, call, ← become_rescaled, ← moved]
    rfl
  | finish =>
    rw [call, call, ← become_rescaled, ← finish_rescaled]
    rfl
  | takeNext =>
    obtain ⟨⟨level, enclosing, pending⟩, queued, taken⟩ := h
    cases pending with
    | nil => simp [call, takeNext, rescale, Tracker.rescale]
    | cons b bs => simp [call, takeNext, rescale, Tracker.rescale]

/-- By induction on the calls. -/
theorem ofCalls_rescaled (mono : StrictMono f) (zero : f 0 = 0) {cs cs' : List Call}
    (h : List.Forall₂ (Call.Rescaled f) cs cs') : ofCalls cs' = (ofCalls cs).rescale f := by
  have start : (({} : History).rescale f) = {} := by simp [rescale, Tracker.rescale, zero]
  suffices ∀ history : History,
      cs'.foldl call (history.rescale f) = (cs.foldl call history).rescale f by
    have := this {}
    rwa [start] at this
  induction h with
  | nil => exact fun _ => rfl
  | cons hc _ ih =>
    intro history
    rw [List.foldl_cons, List.foldl_cons, call_rescaled mono history hc, ih]

end History

/-- How the histories of two trackers go together that are told of different levels. -/
structure History.Tracks (f : Nat → Nat) (h h' : History) : Prop where
  level : h'.tracker.level = f h.tracker.level
  enclosing : h'.tracker.enclosing = h.tracker.enclosing.map f
  queued : h'.queued = h.queued.map (.rescale f)
  taken : h'.taken = h.taken.map (.rescale f)
  pending : h'.tracker.pending = h.tracker.pending.map (.rescale f)

/-- Two trackers that are told of levels of the same order go together at every step, and also where
the document ends behind that step. -/
theorem history_rescaled (mono : StrictMono f) (zero : f 0 = 0) {cs cs' : List Call}
    (h : List.Forall₂ (Call.Rescaled f) cs cs') (n : Nat) :
    History.Tracks f (.ofCalls (cs.take n)) (.ofCalls (cs'.take n)) ∧
      History.Tracks f (.call (.ofCalls (cs.take n)) .finish)
        (.call (.ofCalls (cs'.take n)) .finish) := by
  have step : History.ofCalls (cs'.take n) = (History.ofCalls (cs.take n)).rescale f :=
    History.ofCalls_rescaled mono zero (List.forall₂_take n h)
  have finished := History.call_rescaled mono (.ofCalls (cs.take n)) .finish
  rw [← step] at finished
  rw [finished, step]
  exact ⟨⟨rfl, rfl, rfl, rfl, rfl⟩, ⟨rfl, rfl, rfl, rfl, rfl⟩⟩

/-- Two blocks, a line that goes back to a level that is not there, and a boundary that is taken. -/
def dedentCalls (k : Nat) : List Call :=
  [.indent ('\n' :: List.replicate (2 * k) ' '), .indent ('\n' :: List.replicate (4 * k) ' '),
    .indent ('\n' :: List.replicate k ' '), .takeNext]

theorem history_rescaled_dedent :
    StrictMono (3 * ·) ∧ 3 * 0 = 0 ∧
      List.Forall₂ (Call.Rescaled (3 * ·)) (dedentCalls 1) (dedentCalls 3) ∧
      (History.ofCalls ((dedentCalls 3).take 4)).queued =
        [.blockOpen 6, .blockOpen 12, .blockClose 12, .blockClose 6, .badIndent 0] ∧
      History.Tracks (3 * ·) (.ofCalls ((dedentCalls 1).take 4)) (.ofCalls ((dedentCalls 3).take 4)) ∧
      History.Tracks (3 * ·) (.call (.ofCalls ((dedentCalls 1).take 4)) .finish)
        (.call (.ofCalls ((dedentCalls 3).take 4)) .finish) := by
  have mono : StrictMono (3 * · : Nat → Nat) := fun _ _ h => Nat.mul_lt_mul_of_pos_left h (by decide)
  have same : List.Forall₂ (Call.Rescaled (3 * ·)) (dedentCalls 1) (dedentCalls 3) :=
    .cons (.indent (by decide)) <| .cons (.indent (by decide)) <| .cons (.indent (by decide)) <|
      .cons .takeNext .nil
  exact ⟨mono, rfl, same, by decide, history_rescaled mono rfl same 4⟩

end Tracker

end ScrapeConfig
