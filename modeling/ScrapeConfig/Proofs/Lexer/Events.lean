import ScrapeConfig.Lexer.Basic
import ScrapeConfig.Proofs.Layout.Blocks

/-!
# What a lexer says

Said of the frames of a document as a whole, without the rounds in which a lexer works on them and the
handlers it may stop for: every frame adds its own events to those of the frames behind it.

Results:
1. `Event.ofFrames`: the events of frames. `Event.Adds.ofFrames_eq` tells them frame by frame.
2. `Lexer.events`: what a lexer still has to say. `Lexer.events_advance` says that its work is to say
   it.
3. `Lexer.lex_eq`: asking a lexer is passing these events on until something is returned.
-/

namespace ScrapeConfig

def Tracker.settled (t : Tracker) : Tracker := { t with pending := [] }

theorem Tracker.settled_eq {t : Tracker} (h : t.pending = []) : t.settled = t := by
  rw [settled, ← h]

namespace Event

/-- The end of a document. -/
def eof (span : Span) : Event := .emit (.boundary "EOF" 0) span

/-- The events at the end of a document: every open block is closed. -/
def closing (t : Tracker) (span : Span) : List Event :=
  t.finish.pending.map (boundary span) ++ [eof span]

/-- An event and those behind it: nothing is said behind an abort. -/
def before (rest : List Event) : Event → List Event
  | .abort => [.abort]
  | e => e :: rest

theorem before_of_ne {e : Event} (h : e ≠ .abort) (rest : List Event) :
    before rest e = e :: rest := by
  cases e with
  | abort => exact absurd rfl h
  | _ => rfl

/-- The events of a list of frames, with `run` the white space not yet measured and `span` that of
the frame before. -/
def ofFrames (rules : List Rule) :
    (t : Tracker) → (run : Option (List Char)) → (span : Span) → List Frame → List Event
  | t, _, span, [] => closing t span
  | t, run, _, f :: fs => match f.pattern with
    | none => closing t f.span
    | some pattern => match rules[pattern]? with
      | none => .fault (.atSpan (.noRule pattern) f.span) :: ofFrames rules t run f.span fs
      | some rule => match rule.action with
        | .skip => ofFrames rules t run f.span fs
        | .indent => ofFrames rules t (some (run.getD [] ++ f.text)) f.span fs
        | action => (t.across run).pending.map (boundary f.span) ++
            (ofFrame action f.text f.span).before
              (ofFrames rules (t.across run).settled none f.span fs)

/-! ## Frame by frame -/

/-- The events that a frame adds, and the tracker and the collected white space behind it. -/
inductive Adds (rules : List Rule) (t : Tracker) (run : Option (List Char)) (f : Frame) :
    List Event → Tracker → Option (List Char) → Prop
  | unknown {i : Nat} : f.pattern = some i → rules[i]? = none →
      Adds rules t run f [.fault (.atSpan (.noRule i) f.span)] t run
  | skip {i : Nat} {r : Rule} : f.pattern = some i → rules[i]? = some r → r.action = .skip →
      Adds rules t run f [] t run
  | indent {i : Nat} {r : Rule} : f.pattern = some i → rules[i]? = some r → r.action = .indent →
      Adds rules t run f [] t (some (run.getD [] ++ f.text))
  | token {i : Nat} {r : Rule} : f.pattern = some i → rules[i]? = some r → r.action ≠ .skip →
      r.action ≠ .indent → ofFrame r.action f.text f.span ≠ .abort →
      Adds rules t run f
        ((t.across run).pending.map (boundary f.span) ++ [ofFrame r.action f.text f.span])
        (t.across run).settled none

variable {rules : List Rule} {t t' : Tracker} {run run' : Option (List Char)} {f : Frame}
  {fs : List Frame} {es : List Event}

theorem ofFrames_of_token {i : Nat} {r : Rule} (hi : f.pattern = some i) (hr : rules[i]? = some r)
    (skip : r.action ≠ .skip) (indent : r.action ≠ .indent) (span : Span) (fs : List Frame) :
    ofFrames rules t run span (f :: fs) = (t.across run).pending.map (boundary f.span) ++
      (ofFrame r.action f.text f.span).before
        (ofFrames rules (t.across run).settled none f.span fs) := by
  simp only [ofFrames, hi, hr]

theorem Adds.ofFrames_eq (h : Adds rules t run f es t' run') (span : Span) (fs : List Frame) :
    ofFrames rules t run span (f :: fs) = es ++ ofFrames rules t' run' f.span fs := by
  cases h with
  | unknown hi hr => simp only [ofFrames, hi, hr, List.cons_append, List.nil_append]
  | skip hi hr ha => simp only [ofFrames, hi, hr, ha, List.nil_append]
  | indent hi hr ha => simp only [ofFrames, hi, hr, ha, List.nil_append]
  | token hi hr skip indent goesOn =>
    rw [ofFrames_of_token hi hr skip indent, before_of_ne goesOn, List.append_assoc]
    rfl

theorem Adds.isEnd_eq_false (h : Adds rules t run f es t' run') : f.isEnd = false := by
  rw [Frame.isEnd]
  cases h with
  | unknown hi _ => rw [hi]; rfl
  | skip hi _ _ => rw [hi]; rfl
  | indent hi _ _ => rw [hi]; rfl
  | token hi _ _ _ _ => rw [hi]; rfl

theorem Adds.abort_notMem (h : Adds rules t run f es t' run') : .abort ∉ es := by
  cases h with
  | unknown _ _ => simp
  | skip _ _ _ => exact List.not_mem_nil
  | indent _ _ _ => exact List.not_mem_nil
  | token _ _ _ _ goesOn =>
    rw [List.mem_append, List.mem_singleton, not_or]
    refine ⟨fun mem => ?_, goesOn.symm⟩
    obtain ⟨b, _, hb⟩ := List.mem_map.mp mem
    exact absurd hb nofun

/-- The lexer aborts at the frame. -/
def Aborts (rules : List Rule) (f : Frame) : Prop :=
  ∃ i r, f.pattern = some i ∧ rules[i]? = some r ∧ r.action ≠ .skip ∧ r.action ≠ .indent ∧
    ofFrame r.action f.text f.span = .abort

theorem ends_or_aborts_or_adds (rules : List Rule) (t : Tracker) (run : Option (List Char))
    (f : Frame) :
    f.pattern = none ∨ Aborts rules f ∨ ∃ es t' run', Adds rules t run f es t' run' := by
  cases hi : f.pattern with
  | none => exact .inl rfl
  | some i =>
    right
    cases hr : rules[i]? with
    | none => exact .inr ⟨_, _, _, .unknown hi hr⟩
    | some r =>
      by_cases skip : r.action = .skip
      · exact .inr ⟨_, _, _, .skip hi hr skip⟩
      · by_cases indent : r.action = .indent
        · exact .inr ⟨_, _, _, .indent hi hr indent⟩
        · by_cases ha : ofFrame r.action f.text f.span = .abort
          · exact .inl ⟨i, r, hi, hr, skip, indent, ha⟩
          · exact .inr ⟨_, _, _, .token hi hr skip indent ha⟩

end Event

/-! ## Round by round -/

namespace Lexer

open Event (ofFrames)

/-- What a lexer has to say from here on. -/
def events (l : Lexer) : List Event :=
  l.tracker.pending.map (.boundary l.span) ++ match l.phase with
    | .start => .emit (.object "CTX" l.context) {} ::
        ofFrames l.rules l.tracker.settled l.space l.span l.queue
    | .scanning => ofFrames l.rules l.tracker.settled l.space l.span l.queue
    | .closing => [.eof l.span]
    | .done => []

variable {l l' : Lexer} {e : Option Event}

theorem events_new (rules : List Rule) (context : Context) (frames : List Frame) :
    (Lexer.new rules context frames).events =
      .emit (.object "CTX" context) {} :: Event.ofFrames rules {} none {} frames := rfl

theorem events_of_scanning (phase : l.phase = .scanning) (said : l.tracker.pending = []) :
    l.events = ofFrames l.rules l.tracker l.space l.span l.queue := by
  rw [events, said, phase, Tracker.settled_eq said]
  rfl

theorem events_say (said : l.tracker.pending = []) (e : Event) :
    e.before l.events = (l.say e).1.toList ++ (l.say e).2.events := by
  cases e with
  | abort =>
    simp only [say, events, said]
    rfl
  | _ => rfl

theorem look_of_token {f : Frame} {i : Nat} {r : Rule} (hi : f.pattern = some i)
    (hr : l.rules[i]? = some r) (skip : r.action ≠ .skip) (indent : r.action ≠ .indent) :
    l.look f =
      if (l.tracker.across l.space).pending.isEmpty then
        say { l with tracker := l.tracker.across l.space, space := none }
          (.ofFrame r.action f.text f.span)
      else
        (none, { l with tracker := l.tracker.across l.space, space := none, held := some f }) := by
  simp only [look, hi, hr]

/-- What there is to say about a frame is said, unless there are boundaries in front of it: then it is
held back, to be said behind them. -/
theorem events_look (phase : l.phase = .scanning) (said : l.tracker.pending = [])
    (free : l.held = none) (f : Frame) (reached : l.span = f.span) :
    ofFrames l.rules l.tracker l.space l.span (f :: l.frames) =
      (l.look f).1.toList ++ (l.look f).2.events := by
  have onward : ∀ space, ofFrames l.rules l.tracker space f.span l.frames =
      { l with space }.events := fun space => by
    rw [events_of_scanning (l := { l with space }) phase said, queue, free, reached]
    rfl
  cases hi : f.pattern with
  | none =>
    simp only [ofFrames, look, hi, ← reached]
    rfl
  | some i =>
    cases hr : l.rules[i]? with
    | none =>
      simp only [ofFrames, look, hi, hr, onward]
      rfl
    | some r =>
      by_cases skip : r.action = .skip
      · simp only [ofFrames, look, hi, hr, skip, onward]
        rfl
      · by_cases indent : r.action = .indent
        · simp only [ofFrames, look, hi, hr, indent, onward]
          rfl
        · rw [Event.ofFrames_of_token hi hr skip indent, look_of_token hi hr skip indent]
          by_cases none_waits : (l.tracker.across l.space).pending = []
          · rw [if_pos (List.isEmpty_iff.mpr none_waits), ← events_say none_waits,
              events_of_scanning (by exact phase) none_waits, none_waits,
              Tracker.settled_eq none_waits, queue, free, ← reached]
            rfl
          · have again : ofFrames l.rules (l.tracker.across l.space).settled none f.span
                (f :: l.frames) = (Event.ofFrame r.action f.text f.span).before (ofFrames l.rules
                  (l.tracker.across l.space).settled none f.span l.frames) :=
              Event.ofFrames_of_token hi hr skip indent f.span l.frames
            rw [if_neg (mt List.isEmpty_iff.mp none_waits), ← again, events, phase, reached]
            rfl

theorem events_step (phase : l.phase = .scanning) (said : l.tracker.pending = []) :
    l.events = l.step.1.toList ++ l.step.2.events := by
  rw [events_of_scanning phase said, step]
  cases taken : l.nextFrame with
  | none =>
    rw [nextFrame_eq_none taken]
    rfl
  | some next =>
    obtain ⟨f, reached⟩ := next
    obtain ⟨fs, queue_eq, rfl⟩ := nextFrame_eq_some taken
    rw [queue_eq]
    exact events_look (l := { l with held := none, frames := fs, span := f.span }) phase said rfl f
      rfl

/-- In a round a lexer says the first of what it has to say, or nothing. -/
theorem events_advance (h : l.advance = some (e, l')) : l.events = e.toList ++ l'.events := by
  cases round_of_advance h with
  | boundary waiting =>
    rw [events, waiting]
    rfl
  | opening said phase =>
    simp only [events, phase, said]
    rfl
  | frame said phase => exact events_step phase said
  | ending said phase =>
    simp only [events, phase, said]
    rfl

theorem events_of_done (h : l.advance = none) : l.events = [] := by
  obtain ⟨said, phase⟩ := done_of_advance h
  rw [events, said, phase]
  rfl

/-! ## Reply by reply -/

variable {σ ω : Type}

/-- Passes events on until the handler or a fault gives something to return. -/
def feed (h : Handler σ ω) : List Event → σ → Reply ω × List Event × σ
  | [], s => (.finished, [], s)
  | .abort :: rest, s => (.aborted, rest, s)
  | .fault e :: rest, s =>
    let (e, s) := h.fault e s
    (.error e, rest, s)
  | .emit emission span :: rest, s => match h.emit emission span s with
    | (.error e, s) => (.error e, rest, s)
    | (.ok (some o), s) => (.output o, rest, s)
    | (.ok none, s) => feed h rest s

/-- A lexer that is asked passes on what it has to say, and then has the rest to say. By induction on
its rounds. -/
theorem lex_eq (l : Lexer) (h : Handler σ ω) (s : σ) :
    ∃ l', l.lex h s = ((feed h l.events s).1, l', (feed h l.events s).2.2) ∧
      l'.events = (feed h l.events s).2.1 := by
  fun_induction lex l h s with
  | case1 l s done =>
    have nothing := events_of_done done
    rw [nothing]
    exact ⟨l, rfl, nothing⟩
  | case2 l s next step ih =>
    rw [events_advance step]
    exact ih
  | case3 l s next step =>
    rw [events_advance step]
    exact ⟨next, rfl, rfl⟩
  | case4 l s e next step e' s' fault =>
    rw [events_advance step, Option.toList, List.singleton_append, feed, fault]
    exact ⟨next, rfl, rfl⟩
  | case5 l s emission span next step e s' emitted =>
    rw [events_advance step, Option.toList, List.singleton_append, feed, emitted]
    exact ⟨next, rfl, rfl⟩
  | case6 l s emission span next step o s' emitted =>
    rw [events_advance step, Option.toList, List.singleton_append, feed, emitted]
    exact ⟨next, rfl, rfl⟩
  | case7 l s emission span next step s' emitted ih =>
    rw [events_advance step, Option.toList, List.singleton_append, feed, emitted]
    exact ih

end Lexer

end ScrapeConfig
