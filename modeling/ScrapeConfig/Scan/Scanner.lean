import ScrapeConfig.Scan.Frame
import ScrapeConfig.Scan.Race

/-!
# The scanner

A scanner cuts its input into frames from left to right. Where no pattern matches, one character is
dropped and scanning goes on behind it. The end of the input is a frame of its own, and after that
there are no more frames.
-/

namespace ScrapeConfig

structure Scanner where
  patterns : PatternSet
  rest : List Char
  position : Position := {}
  /-- Nothing of the input has been read or dropped. -/
  fresh : Bool := true
  finished : Bool := false
  deriving Inhabited

namespace Scanner

def new (patterns : PatternSet) (source : String) : Scanner :=
  { patterns, rest := source.toList }

/-- The first frame of the input from `p` on, and the scanner behind it. -/
def seek (patterns : PatternSet) : (fresh : Bool) → (p : Position) → List Char → Frame × Scanner
  | fresh, p, [] => (.finish p, ⟨patterns, [], p, fresh, true⟩)
  | fresh, p, c :: cs =>
    match patterns.longestMatch fresh (c :: cs) with
    | some m =>
      let text := (c :: cs).take m.length
      (⟨some m.pattern, text, p⟩, ⟨patterns, (c :: cs).drop m.length, p.past text, false, false⟩)
    | none => seek patterns false (p.next c) cs

def next? (s : Scanner) : Option (Frame × Scanner) :=
  if s.finished then none else some (seek s.patterns s.fresh s.position s.rest)

/-- How many frames can follow at most. -/
def remaining (s : Scanner) : Nat :=
  if s.finished then 0 else s.rest.length + 1

theorem remaining_seek (patterns : PatternSet) (fresh : Bool) (p : Position) (cs : List Char) :
    (seek patterns fresh p cs).2.remaining < cs.length + 1 := by
  induction cs generalizing fresh p with
  | nil => simp [seek, remaining]
  | cons c cs ih =>
    simp only [seek]
    split
    · next m h =>
      have := PatternSet.longestMatch_pos h
      simp only [remaining, Bool.false_eq_true, if_false, List.length_drop, List.length_cons]
      omega
    · exact Nat.lt_trans (ih _ _) (by simp)

theorem remaining_next? {s t : Scanner} {f : Frame} (h : s.next? = some (f, t)) :
    t.remaining < s.remaining := by
  unfold next? at h
  split at h
  · cases h
  · next hf =>
    have := remaining_seek s.patterns s.fresh s.position s.rest
    simp only [Option.some.injEq] at h
    rw [h] at this
    simpa [remaining, hf] using this

/-- All frames that follow, the end of the input last. -/
def frames (s : Scanner) : List Frame :=
  match _h : s.next? with
  | none => []
  | some (f, t) => f :: t.frames
termination_by s.remaining
decreasing_by exact remaining_next? _h

/-- The scanner behind all frames. -/
def exhausted (s : Scanner) : Scanner :=
  match _h : s.next? with
  | none => s
  | some (_, t) => t.exhausted
termination_by s.remaining
decreasing_by exact remaining_next? _h

end Scanner

end ScrapeConfig
