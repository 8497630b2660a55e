import ScrapeConfig.Lexer.Event
import ScrapeConfig.Scan.Frame

/-!
# The work of a lexer

A lexer goes through its frames one at a time. White space at the start of lines is collected and
measured only when something other than white space and comments follows, so nothing at the end of a
document opens or closes a block. A frame in front of which block boundaries wait is held back until
they have been said.
-/

namespace ScrapeConfig

/-- How far a lexer has got. -/
inductive Phase where
  | start
  | scanning
  | closing
  | done
  deriving DecidableEq, Repr

/-- How many phases are still to come. -/
def Phase.left : Phase → Nat
  | .start => 3
  | .scanning => 2
  | .closing => 1
  | .done => 0

structure Lexer where
  rules : List Rule
  context : Context
  /-- The frames that have not been looked at. -/
  frames : List Frame
  phase : Phase := .start
  tracker : Tracker := {}
  /-- White space that has been collected and not yet measured. -/
  space : Option (List Char) := none
  /-- The frame that waits for the block boundaries in front of it. -/
  held : Option Frame := none
  /-- Where the lexer is: the span of the frame that it looked at last. -/
  span : Span := {}

namespace Lexer

def new (rules : List Rule) (context : Context) (frames : List Frame) : Lexer :=
  { rules, context, frames }

/-- The frames that are still to be looked at, the one that was held back first. -/
def queue (l : Lexer) : List Frame := l.held.toList ++ l.frames

/-- The next frame to be looked at, and the lexer that has got to it. -/
def nextFrame (l : Lexer) : Option (Frame × Lexer) :=
  match l.held, l.frames with
  | some f, _ => some (f, { l with held := none, span := f.span })
  | none, f :: fs => some (f, { l with frames := fs, span := f.span })
  | none, [] => none

theorem nextFrame_eq_some {l l' : Lexer} {f : Frame} (h : l.nextFrame = some (f, l')) :
    ∃ fs, l.queue = f :: fs ∧ l' = { l with held := none, frames := fs, span := f.span } := by
  unfold nextFrame at h
  split at h
  · next held =>
    cases h
    exact ⟨l.frames, by rw [queue, held]; rfl, rfl⟩
  · next fs held frames =>
    cases h
    exact ⟨fs, by rw [queue, held, frames]; rfl, by rw [← held]⟩
  · cases h

theorem nextFrame_eq_none {l : Lexer} (h : l.nextFrame = none) : l.queue = [] := by
  unfold nextFrame at h
  split at h
  · cases h
  · cases h
  · next held frames => rw [queue, held, frames]; rfl

/-- The lexer at the end of its frames. White space that it has collected is dropped. -/
def finish (l : Lexer) : Lexer :=
  { l with phase := .closing, tracker := l.tracker.finish, space := none }

/-- Says something. A lexer that aborts is done. -/
def say (l : Lexer) : Event → Option Event × Lexer
  | .abort => (some .abort, { l with phase := .done })
  | e => (some e, l)

/-- Looks at a frame: what there is to say about it, if anything, and the lexer behind it. -/
def look (l : Lexer) (f : Frame) : Option Event × Lexer :=
  match f.pattern with
  | none => (none, l.finish)
  | some pattern => match l.rules[pattern]? with
    | none => (some (.fault (.atSpan (.noRule pattern) f.span)), l)
    | some rule => match rule.action with
      | .skip => (none, l)
      | .indent => (none, { l with space := some (l.space.getD [] ++ f.text) })
      | action =>
        let l := { l with tracker := l.tracker.across l.space, space := none }
        if l.tracker.pending.isEmpty then l.say (.ofFrame action f.text f.span)
        else (none, { l with held := some f })

/-- Looks at the next frame. -/
def step (l : Lexer) : Option Event × Lexer :=
  match l.nextFrame with
  | some (f, l) => l.look f
  | none => (none, l.finish)

/-- A round of work: what there is to say, if anything, and the lexer behind it. Boundaries that wait
come first. There is none if the lexer is done. -/
def advance (l : Lexer) : Option (Option Event × Lexer) :=
  match l.tracker.takeNext with
  | (some b, t) => some (some (.boundary l.span b), { l with tracker := t })
  | (none, _) => match l.phase with
    | .start => some (some (.emit (.object "CTX" l.context) {}), { l with phase := .scanning })
    | .scanning => some l.step
    | .closing => some (some (.emit (.boundary "EOF" 0) l.span), { l with phase := .done })
    | .done => none

/-- What a lexer can do in a round. -/
inductive Round (l : Lexer) : Option Event → Lexer → Prop
  | boundary {b : Boundary} {bs : List Boundary} : l.tracker.pending = b :: bs →
      Round l (some (.boundary l.span b)) { l with tracker := { l.tracker with pending := bs } }
  | opening : l.tracker.pending = [] → l.phase = .start →
      Round l (some (.emit (.object "CTX" l.context) {})) { l with phase := .scanning }
  | frame : l.tracker.pending = [] → l.phase = .scanning → Round l l.step.1 l.step.2
  | ending : l.tracker.pending = [] → l.phase = .closing →
      Round l (some (.emit (.boundary "EOF" 0) l.span)) { l with phase := .done }

theorem round_of_advance {l l' : Lexer} {e : Option Event} (h : l.advance = some (e, l')) :
    l.Round e l' := by
  unfold advance Tracker.takeNext at h
  cases waiting : l.tracker.pending with
  | cons b bs =>
    rw [waiting] at h
    cases h
    exact .boundary waiting
  | nil =>
    rw [waiting] at h
    cases phase : l.phase with
    | start =>
      rw [phase] at h
      cases h
      exact .opening waiting phase
    | scanning =>
      rw [phase] at h
      have stepped : l.step = (e, l') := Option.some.inj h
      have round := Round.frame waiting phase
      rwa [stepped] at round
    | closing =>
      rw [phase] at h
      cases h
      exact .ending waiting phase
    | done =>
      rw [phase] at h
      cases h

theorem done_of_advance {l : Lexer} (h : l.advance = none) :
    l.tracker.pending = [] ∧ l.phase = .done := by
  unfold advance Tracker.takeNext at h
  cases waiting : l.tracker.pending with
  | cons b bs =>
    rw [waiting] at h
    cases h
  | nil =>
    rw [waiting] at h
    cases phase : l.phase with
    | done => exact ⟨rfl, rfl⟩
    | _ =>
      rw [phase] at h
      cases h

/-! Every round leaves less to be done: white space that is measured makes up for the frame in front
of which it is measured, which is held back and looked at once more. -/

def work (l : Lexer) : Nat :=
  l.phase.left + l.tracker.load + 4 * l.queue.length + 3 * l.space.toList.length

theorem work_finish {l : Lexer} (h : l.phase = .scanning) : l.finish.work < l.work := by
  simp only [finish, work, queue, Tracker.load_finish, h, Phase.left, Option.toList, List.length_nil]
  omega

theorem work_say (l : Lexer) (e : Event) : (l.say e).2.work ≤ l.work := by
  unfold say
  split
  · simp only [work, queue, Phase.left]
    omega
  · exact Nat.le_refl _

theorem work_look {l : Lexer} (h : l.phase = .scanning) (free : l.held = none)
    (said : l.tracker.pending = []) (f : Frame) : (l.look f).2.work < l.work + 4 := by
  unfold look
  split
  · exact Nat.lt_add_right 4 (work_finish h)
  · split
    · exact Nat.lt_add_of_pos_right (by decide)
    · split
      · exact Nat.lt_add_of_pos_right (by decide)
      · simp only [work, queue, Option.toList, List.length_singleton]
        omega
      · have load := l.tracker.load_across l.space
        simp only
        split
        · refine Nat.lt_of_le_of_lt (work_say _ _) ?_
          simp only [work, queue, Option.toList, List.length_nil] at load ⊢
          omega
        · next waits =>
          obtain ⟨space, collected⟩ : ∃ space, l.space = some space :=
            Option.ne_none_iff_exists'.mp fun none => waits (by simp [none, Tracker.across, said])
          rw [collected] at load ⊢
          simp only [work, queue, collected, free, Option.toList, List.length_append, List.length_nil,
            List.length_singleton] at load ⊢
          omega

theorem work_step {l : Lexer} (h : l.phase = .scanning) (said : l.tracker.pending = []) :
    l.step.2.work < l.work := by
  unfold step
  split
  · next f _ taken =>
    obtain ⟨fs, queue_eq, rfl⟩ := nextFrame_eq_some taken
    have count : l.queue.length = fs.length + 1 := congrArg List.length queue_eq
    refine Nat.lt_of_lt_of_eq
      (work_look (l := { l with held := none, frames := fs, span := f.span }) h rfl said f) ?_
    show l.phase.left + l.tracker.load + 4 * fs.length + 3 * l.space.toList.length + 4 = l.work
    rw [work, count]
    omega
  · exact work_finish h

theorem work_advance {l l' : Lexer} {e : Option Event} (h : l.advance = some (e, l')) :
    l'.work < l.work := by
  cases round_of_advance h with
  | boundary waiting =>
    simp only [work, queue, Tracker.load, Tracker.depth, waiting, List.length_cons]
    omega
  | opening _ phase =>
    simp only [work, queue, phase, Phase.left]
    omega
  | frame said phase => exact work_step phase said
  | ending _ phase =>
    simp only [work, queue, phase, Phase.left]
    omega

end Lexer

end ScrapeConfig
