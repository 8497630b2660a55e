import Mathlib.Data.List.Basic
import ScrapeConfig.Proofs.Scan.Frames

/-!
# Interleavings of a producer and a consumer

Whatever the order in which a producer and a consumer move, the consumer gets the frames of the
scanner from the first one on. A consumer that does not cancel is answered by frame after frame and
then by nothing; one that has cancelled is answered by nothing. No call waits for ever.

Results:
1. `Handoff.Step`: what a single move does, guards included.
2. `Handoff.Sound`: the invariant. `Sound.step` keeps it up through a move, `Sound.run` through an
   interleaving.
3. `Handoff.Halted`: the part of it that holds once the flag is raised; `Halted.run` says that no
   frame arrives any more.
4. `Handoff.work`: every move that begins no call takes something off the work that is left.
5. `Handoff.Faithful`: what a consumer can rely on; `Sound.faithful` says that it can.
-/

namespace ScrapeConfig

namespace Handoff

/-! ## Single moves -/

/-- What a move does. -/
inductive Step (h : Handoff) : Move → Handoff → Prop
  | fetch {f : Frame} {t : Scanner} : h.producer = .fetching → h.scanner.next? = some (f, t) →
      Step h .fetch { h with producer := .holding f, scanner := t }
  | exhaust : h.producer = .fetching → h.scanner.next? = none →
      Step h .fetch { h with producer := .returned }
  | look {f : Frame} : h.producer = .holding f → h.cancelled = false →
      Step h .look { h with producer := .sending f }
  | stop {f : Frame} : h.producer = .holding f → h.cancelled = true →
      Step h .look { h with producer := .returned }
  | hangUp {f : Frame} : h.producer = .sending f → h.listening = false →
      Step h .hangUp { h with producer := .returned }
  | transfer {f : Frame} : h.producer = .sending f → h.consumer = .waiting →
      Step h .transfer
        { h with producer := .fetching, consumer := .idle, answers := some f :: h.answers }
  | ask : h.consumer = .idle → h.listening = true → Step h .ask { h with consumer := .waiting }
  | askInVain : h.consumer = .idle → h.listening = false →
      Step h .ask { h with answers := none :: h.answers }
  | notice : h.producer = .returned → h.consumer = .waiting →
      Step h .notice { h with consumer := .idle, answers := none :: h.answers }
  | cancel : h.consumer = .idle →
      Step h .cancel { h with consumer := .cancelling false, cancelled := true }
  | drop : h.consumer = .idle →
      Step h .drop { h with consumer := .cancelling true, cancelled := true }
  | close {leaving : Bool} : h.consumer = .cancelling leaving →
      Step h .close
        { h with consumer := if leaving then .joining else .idle, listening := false }
  | join : h.producer = .returned → h.consumer = .joining → Step h .join { h with consumer := .gone }

variable {h h' : Handoff} {m : Move} {ms : List Move} {s : Scanner}

theorem step_of_move (e : h.move m = some h') : Step h m h' := by
  cases m with
  | fetch =>
    simp only [move] at e
    split at e
    · next hp =>
      split at e
      · next hn => exact Option.some.inj e ▸ .exhaust hp hn
      · next hn => exact Option.some.inj e ▸ .fetch hp hn
    · cases e
  | look =>
    simp only [move] at e
    split at e
    · next hp =>
      obtain rfl := Option.some.inj e
      by_cases hc : h.cancelled = true
      · rw [if_pos hc]
        exact .stop hp hc
      · rw [if_neg hc]
        exact .look hp (eq_false_of_ne_true hc)
    · cases e
  | hangUp =>
    simp only [move] at e
    split at e
    · next hp =>
      split at e
      · cases e
      · next hl => exact Option.some.inj e ▸ .hangUp hp (eq_false_of_ne_true hl)
    · cases e
  | transfer =>
    simp only [move] at e
    split at e
    · next hp hc => exact Option.some.inj e ▸ .transfer hp hc
    · cases e
  | ask =>
    simp only [move] at e
    split at e
    · next hc =>
      split at e
      · next hl => exact Option.some.inj e ▸ .ask hc hl
      · next hl => exact Option.some.inj e ▸ .askInVain hc (eq_false_of_ne_true hl)
    · cases e
  | notice =>
    simp only [move] at e
    split at e
    · next hp hc => exact Option.some.inj e ▸ .notice hp hc
    · cases e
  | cancel =>
    simp only [move] at e
    split at e
    · next hc => exact Option.some.inj e ▸ .cancel hc
    · cases e
  | drop =>
    simp only [move] at e
    split at e
    · next hc => exact Option.some.inj e ▸ .drop hc
    · cases e
  | close =>
    simp only [move] at e
    split at e
    · next hc => exact Option.some.inj e ▸ .close hc
    · cases e
  | join =>
    simp only [move] at e
    split at e
    · next hp hc => exact Option.some.inj e ▸ .join hp hc
    · cases e

/-- What every move keeps up, an interleaving keeps up. -/
theorem run_induction {P : Handoff → Prop} (kept : ∀ {h m h'}, Step h m h' → P h → P h')
    (e : h.moves ms = some h') (start : P h) : P h' := by
  induction ms generalizing h with
  | nil => exact Option.some.inj e ▸ start
  | cons m ms ih =>
    obtain ⟨next, hm, rest⟩ := Option.bind_eq_some_iff.mp e
    exact ih rest (kept (step_of_move hm) start)

/-! ## What the consumer has -/

/-- The frame that the producer has and the consumer has not. -/
def inHand (h : Handoff) : List Frame :=
  match h.producer with
  | .holding f => [f]
  | .sending f => [f]
  | _ => []

/-- What holds as long as the flag is down: nothing is lost on the way, and the consumer has been
answered by frames, and by nothing only when the producer was done. -/
structure Running (s : Scanner) (h : Handoff) : Prop where
  consumer : h.consumer = .idle ∨ h.consumer = .waiting
  listening : h.listening = true
  frames : h.received ++ h.inHand ++ h.scanner.frames = s.frames
  returned : h.producer = .returned → h.scanner.frames = []
  answered : ∃ j, h.answered = h.received.map some ++ List.replicate j none ∧
    (j ≠ 0 → h.producer = .returned)

/-- What holds once the flag is raised: the consumer takes no frame any more. -/
structure Halted (h : Handoff) : Prop where
  cancelled : h.cancelled = true
  consumer : h.consumer ≠ .waiting
  deaf : h.listening = false ∨ ∃ leaving, h.consumer = .cancelling leaving

/-- The invariant of the two sides. -/
structure Sound (s : Scanner) (h : Handoff) : Prop where
  received : h.received <+: s.frames
  running : h.cancelled = false → Running s h
  halted : h.cancelled = true → Halted h

theorem sound_spawn (s : Scanner) : Sound s s.spawn where
  received := List.nil_prefix
  running _ := ⟨.inl rfl, rfl, rfl, nofun, 0, rfl, fun h => absurd rfl h⟩
  halted := nofun

/-- A raised flag stays raised, and the consumer is answered by nothing. -/
theorem Halted.step (halted : h.Halted) (step : Step h m h') :
    h'.Halted ∧ (h'.answers = h.answers ∨ h'.answers = none :: h.answers) := by
  obtain ⟨cancelled, consumer, deaf⟩ := halted
  cases step with
  | fetch _ _ => exact ⟨⟨cancelled, consumer, deaf⟩, .inl rfl⟩
  | exhaust _ _ => exact ⟨⟨cancelled, consumer, deaf⟩, .inl rfl⟩
  | look _ hc => exact absurd (cancelled.symm.trans hc) nofun
  | stop _ _ => exact ⟨⟨cancelled, consumer, deaf⟩, .inl rfl⟩
  | hangUp _ _ => exact ⟨⟨cancelled, consumer, deaf⟩, .inl rfl⟩
  | transfer _ hc => exact absurd hc consumer
  | ask hc hl =>
    -- A consumer that is idle has given up its end of the channel.
    rcases deaf with hd | ⟨_, hd⟩
    · exact absurd (hd.symm.trans hl) nofun
    · exact absurd (hd.symm.trans hc) nofun
  | askInVain _ _ => exact ⟨⟨cancelled, consumer, deaf⟩, .inr rfl⟩
  | notice _ hc => exact absurd hc consumer
  | cancel _ => exact ⟨⟨rfl, nofun, .inr ⟨_, rfl⟩⟩, .inl rfl⟩
  | drop _ => exact ⟨⟨rfl, nofun, .inr ⟨_, rfl⟩⟩, .inl rfl⟩
  | @close leaving _ => exact ⟨⟨cancelled, by cases leaving <;> nofun, .inl rfl⟩, .inl rfl⟩
  | join _ hc =>
    refine ⟨⟨cancelled, nofun, ?_⟩, .inl rfl⟩
    rcases deaf with hd | ⟨_, hd⟩
    · exact .inl hd
    · exact absurd (hd.symm.trans hc) nofun

/-- Once the flag is raised, the consumer is answered by nothing, whatever is moved. -/
theorem Halted.run (halted : h.Halted) (e : h.moves ms = some h') :
    ∃ j, h'.answered = h.answered ++ List.replicate j none := by
  refine (run_induction (P := fun h' => h'.Halted ∧
    ∃ j, h'.answered = h.answered ++ List.replicate j none) ?_ e ⟨halted, 0, by simp⟩).2
  rintro k _ k' step ⟨halted, j, before⟩
  obtain ⟨halted', same | more⟩ := halted.step step
  · exact ⟨halted', j, by rw [answered, same]; exact before⟩
  · refine ⟨halted', j + 1, ?_⟩
    rw [answered, more, List.reverse_cons]
    show k.answered ++ [none] = _
    rw [before, List.append_assoc, List.replicate_succ']

/-- A move with the flag down, if it does not raise it. -/
theorem Running.step (running : Running s h) (down : h.cancelled = false) (step : Step h m h')
    (stays : h'.cancelled = false) : Running s h' := by
  obtain ⟨consumer, listening, frames, returned, j, answered, done⟩ := running
  cases step with
  | fetch hp hn =>
    refine ⟨consumer, listening, ?_, nofun, j, answered, fun hj => ?_⟩
    · rw [← frames, Scanner.frames_of_next? hn]
      simp [inHand, hp, received, Handoff.answered]
    · exact absurd (hp.symm.trans (done hj)) nofun
  | exhaust hp hn =>
    refine ⟨consumer, listening, ?_, fun _ => Scanner.frames_of_none hn, j, answered, fun _ => rfl⟩
    rw [← frames]
    simp [inHand, hp, received, Handoff.answered]
  | look hp _ =>
    refine ⟨consumer, listening, ?_, nofun, j, answered, fun hj => ?_⟩
    · rw [← frames]
      simp [inHand, hp, received, Handoff.answered]
    · exact absurd (hp.symm.trans (done hj)) nofun
  | stop _ hc => exact absurd (hc.symm.trans down) nofun
  | hangUp _ hl => exact absurd (hl.symm.trans listening) nofun
  | @transfer f hp _ =>
    -- Nothing was answered yet: the producer has not returned.
    obtain rfl : j = 0 := by_contra fun hj => absurd (hp.symm.trans (done hj)) nofun
    refine ⟨.inl rfl, listening, ?_, nofun, 0, ?_, fun h => absurd rfl h⟩
    · rw [← frames]
      simp [inHand, hp, received, Handoff.answered]
    · simp only [Handoff.answered, received] at answered ⊢
      simp [answered]
  | ask _ _ => exact ⟨.inr rfl, listening, frames, returned, j, answered, done⟩
  | askInVain _ hl => exact absurd (hl.symm.trans listening) nofun
  | notice hp _ =>
    refine ⟨.inl rfl, listening, ?_, returned, j + 1, ?_, fun _ => hp⟩
    · rw [← frames]
      simp [inHand, received, Handoff.answered]
    · simp only [Handoff.answered, received] at answered ⊢
      simp [answered, List.replicate_succ']
  -- The flag goes up.
  | cancel _ => cases stays
  | drop _ => cases stays
  | close hc => rcases consumer with hi | hi <;> exact absurd (hc.symm.trans hi) nofun
  | join _ hc => rcases consumer with hi | hi <;> exact absurd (hc.symm.trans hi) nofun

theorem Running.received_prefix (running : Running s h) : h.received <+: s.frames :=
  ⟨h.inHand ++ h.scanner.frames, by rw [← List.append_assoc, running.frames]⟩

/-- The flag is raised by a consumer that was idle, and that now cancels. -/
theorem Step.raise (step : Step h m h') (down : h.cancelled = false) (up : h'.cancelled = true) :
    h'.received = h.received ∧ h'.Halted := by
  cases step with
  | cancel _ => exact ⟨rfl, rfl, nofun, .inr ⟨_, rfl⟩⟩
  | drop _ => exact ⟨rfl, rfl, nofun, .inr ⟨_, rfl⟩⟩
  | _ => exact absurd (up.symm.trans down) nofun

theorem received_of_answers (e : h'.answers = h.answers ∨ h'.answers = none :: h.answers) :
    h'.received = h.received := by
  rcases e with e | e <;> simp [received, answered, e]

/-- A move keeps the invariant up. -/
theorem Sound.step (sound : Sound s h) (step : Step h m h') : Sound s h' := by
  cases before : h.cancelled with
  | true =>
    obtain ⟨halted, answers⟩ := (sound.halted before).step step
    refine ⟨?_, fun down => absurd (down.symm.trans halted.cancelled) nofun, fun _ => halted⟩
    rw [received_of_answers answers]
    exact sound.received
  | false =>
    have running := sound.running before
    cases behind : h'.cancelled with
    | false =>
      have running' := running.step before step behind
      exact ⟨running'.received_prefix, fun _ => running',
        fun up => absurd (behind.symm.trans up) nofun⟩
    | true =>
      obtain ⟨received, halted⟩ := step.raise before behind
      refine ⟨?_, fun down => absurd (behind.symm.trans down) nofun, fun _ => halted⟩
      rw [received]
      exact sound.received

/-- And so does an interleaving. -/
theorem Sound.run (sound : Sound s h) (e : h.moves ms = some h') : Sound s h' :=
  run_induction (P := Sound s) (fun step sound => sound.step step) e sound

/-- When the producer is done, the consumer has all frames. -/
theorem Running.received_eq (running : Running s h) (done : h.producer = .returned) :
    h.received = s.frames := by
  rw [← running.frames, running.returned done, inHand, done, List.append_nil, List.append_nil]

/-- A consumer that learns that there are no more frames has all of them. -/
theorem Running.complete (running : Running s h) (told : none ∈ h.answered) :
    h.received = s.frames := by
  obtain ⟨j, answered, done⟩ := running.answered
  rw [answered, List.mem_append] at told
  refine running.received_eq (done ?_)
  rintro rfl
  simp at told

/-- The answers to a consumer that has not cancelled are the frames, and behind the last frame there
are none. -/
theorem Running.answered_eq (running : Running s h) {k : Nat} {a : Option Frame}
    (e : h.answered[k]? = some a) : a = s.frames[k]? := by
  obtain ⟨j, answered, _⟩ := running.answered
  have told : a = none → h.received = s.frames := fun ha =>
    running.complete (ha ▸ List.mem_of_getElem? e)
  rw [answered] at e
  by_cases early : k < h.received.length
  · rw [List.getElem?_append_left (by simpa using early), List.getElem?_map,
      List.getElem?_eq_getElem early, Option.map_some] at e
    obtain ⟨behind, frames⟩ := running.received_prefix
    rw [← frames, List.getElem?_append_left early, List.getElem?_eq_getElem early]
    exact (Option.some.inj e).symm
  · rw [List.getElem?_append_right (by simpa using early)] at e
    have nothing : a = none := List.eq_of_mem_replicate (List.mem_of_getElem? e)
    rw [nothing, ← told nothing]
    exact (List.getElem?_eq_none (Nat.le_of_not_lt early)).symm

/-! ## No call waits for ever -/

end Handoff

namespace Producer

/-- How many moves the producer can make before it asks for another frame, and asking is one. -/
def work : Producer → Nat
  | fetching => 1
  | holding _ => 3
  | sending _ => 2
  | returned => 0

end Producer

namespace Consumer

/-- How many moves the consumer can make before it is called again. -/
def work : Consumer → Nat
  | idle => 0
  | waiting => 1
  | cancelling _ => 2
  | joining => 1
  | gone => 0

end Consumer

namespace Handoff

variable {h h' : Handoff} {m : Move} {ms : List Move} {s : Scanner}

/-- A bound on the moves that can be made before the consumer is called again. -/
def work (h : Handoff) : Nat := 3 * h.scanner.remaining + h.producer.work + h.consumer.work

namespace Move

/-- The consumer is called. -/
def Begins (m : Move) : Prop := m = .ask ∨ m = .cancel ∨ m = .drop

instance : DecidablePred Begins := fun m =>
  inferInstanceAs (Decidable (m = .ask ∨ m = .cancel ∨ m = .drop))

end Move

/-- A move that is no call takes something off the work that is left. -/
theorem Step.work_lt (step : Step h m h') (hm : ¬ m.Begins) : h'.work < h.work := by
  cases step with
  | fetch hp hn =>
    have less := Scanner.remaining_next? hn
    simp only [work, hp, Producer.work]
    omega
  | exhaust hp _ => simp [work, hp, Producer.work]
  | look hp _ => simp [work, hp, Producer.work]
  | stop hp _ => simp [work, hp, Producer.work]
  | hangUp hp _ => simp [work, hp, Producer.work]
  | transfer hp hc =>
    simp only [work, hp, hc, Producer.work, Consumer.work]
    omega
  | notice hp hc => simp [work, hp, hc, Consumer.work]
  | @close leaving hc => cases leaving <;> simp [work, hc, Consumer.work]
  | join hp hc => simp [work, hp, hc, Consumer.work]
  | ask _ _ => exact absurd (.inl rfl) hm
  | askInVain _ _ => exact absurd (.inl rfl) hm
  | cancel _ => exact absurd (.inr (.inl rfl)) hm
  | drop _ => exact absurd (.inr (.inr rfl)) hm

/-- So without a call, an interleaving comes to an end. -/
theorem length_le_work (e : h.moves ms = some h') (hms : ∀ m ∈ ms, ¬ m.Begins) :
    ms.length ≤ h.work := by
  induction ms generalizing h with
  | nil => exact Nat.zero_le _
  | cons m ms ih =>
    obtain ⟨next, hm, rest⟩ := Option.bind_eq_some_iff.mp e
    obtain ⟨first, others⟩ := List.forall_mem_cons.mp hms
    have less := (step_of_move hm).work_lt first
    have bound := ih rest others
    rw [List.length_cons]
    omega

/-- Where it ends, the call that was made last has been answered. -/
theorem Sound.rests (sound : Sound s h) (rest : ∀ m, ¬ m.Begins → h.move m = none) :
    h.consumer = .idle ∨ h.consumer = .gone := by
  have fetching : h.producer ≠ .fetching := fun hp => by
    have stuck := rest .fetch (by decide)
    simp only [move, hp] at stuck
    split at stuck <;> cases stuck
  have holding : ∀ f, h.producer ≠ .holding f := fun f hp => by
    simpa [move, hp] using rest .look (by decide)
  cases hc : h.consumer with
  | idle => exact .inl rfl
  | gone => exact .inr rfl
  | cancelling leaving => simpa [move, hc] using rest .close (by decide)
  | waiting => cases hp : h.producer with
    | fetching => exact absurd hp fetching
    | holding f => exact absurd hp (holding f)
    | sending f => simpa [move, hp, hc] using rest .transfer (by decide)
    | returned => simpa [move, hp, hc] using rest .notice (by decide)
  | joining =>
    -- Nobody listens to the producer here, so there is a move for it until it returns.
    have cancelled : h.cancelled = true := by
      refine eq_true_of_ne_false fun down => ?_
      rcases (sound.running down).consumer with hi | hi <;> simp [hc] at hi
    have deaf : h.listening = false :=
      (sound.halted cancelled).deaf.resolve_right (by simp [hc])
    cases hp : h.producer with
    | fetching => exact absurd hp fetching
    | holding f => exact absurd hp (holding f)
    | sending f => simpa [move, hp, deaf] using rest .hangUp (by decide)
    | returned => simpa [move, hp, hc] using rest .join (by decide)

/-- What a consumer can rely on, wherever an interleaving has come to. -/
structure Faithful (h : Handoff) (s : Scanner) : Prop where
  /-- No frame is lost, repeated or out of order. -/
  received : h.received <+: s.frames
  /-- Without cancelling, asking for the `k`-th time gives the `k`-th frame of the scanner, and
  nothing behind its last frame. -/
  answered : h.cancelled = false → ∀ (k : Nat) (a : Option Frame), h.answered[k]? = some a →
    a = s.frames[k]?
  complete : h.cancelled = false → none ∈ h.answered → h.received = s.frames
  /-- After cancelling there is nothing but `none`. -/
  halted : h.cancelled = true → ∀ ms h', h.moves ms = some h' →
    ∃ j, h'.answered = h.answered ++ List.replicate j none
  /-- A call is over after so many moves at most, unless there is another call. -/
  ends : ∀ ms h', h.moves ms = some h' → (∀ m ∈ ms, ¬ m.Begins) → ms.length ≤ h.work
  rests : (∀ m, ¬ m.Begins → h.move m = none) → h.consumer = .idle ∨ h.consumer = .gone

theorem Sound.faithful (sound : Sound s h) : Faithful h s where
  received := sound.received
  answered down _ _ e := (sound.running down).answered_eq e
  complete down told := (sound.running down).complete told
  halted up _ _ e := (sound.halted up).run e
  ends _ _ e hms := length_le_work e hms
  rests := sound.rests

end Handoff

end ScrapeConfig
