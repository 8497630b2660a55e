import ScrapeConfig.Proofs.Lexer.Replies

/-!
# Whoever listens

What a lexer emits is up to its frames, its rules and its context. A handler may have it stop at any
emission, by an output or by an error, or let it go on: when the lexer is asked again it takes up its
work where it left it, and nothing that it emits is lost, repeated or told out of turn.

Results:
1. `Event.emissions`: what is emitted of some events.
2. `Handler.recording`: a handler that also keeps a record. `Lexer.emitted`: the record of a lexer
   that is asked again and again. `Lexer.feed_recording` says what a single reply adds to it.
3. `Lexer.emitted_new`: the record does not depend on the handler.
-/

namespace ScrapeConfig

/-! ## Records -/

namespace Event

def emission? : Event → Option (Emission × Span)
  | .emit emission span => some (emission, span)
  | _ => none

/-- What is emitted, in the order of the events. -/
def emissions (es : List Event) : List (Emission × Span) := es.filterMap emission?

theorem emissions_append (es es' : List Event) :
    emissions (es ++ es') = emissions es ++ emissions es' :=
  List.filterMap_append

end Event

variable {σ ω : Type}

/-- Answers as before, and keeps a record of what is emitted. -/
def Handler.recording (h : Handler σ ω) : Handler (σ × List (Emission × Span)) ω where
  emit emission span s :=
    let (answer, t) := h.emit emission span s.1
    (answer, t, s.2 ++ [(emission, span)])
  fault e s :=
    let (e, t) := h.fault e s.1
    (e, t, s.2)

theorem Handler.recording_emit {h : Handler σ ω} {emission : Emission} {span : Span} {s t : σ}
    {answer : Except ParseError (Option ω)} (told : h.emit emission span s = (answer, t))
    (record : List (Emission × Span)) :
    h.recording.emit emission span (s, record) = (answer, t, record ++ [(emission, span)]) := by
  simp only [recording, told]

namespace Lexer

/-- The state of the handler behind the `k`-th reply, counted from zero. -/
def handled (l : Lexer) (h : Handler σ ω) (s : σ) : (k : Nat) → σ
  | 0 => (l.lex h s).2.2
  | k + 1 => (l.lex h s).2.1.handled h (l.lex h s).2.2 k

/-- What has been emitted by the `k`-th reply, counted from zero. -/
def emitted (l : Lexer) (h : Handler σ ω) (s : σ) (k : Nat) : List (Emission × Span) :=
  (l.handled h.recording (s, []) k).2

/-! ## A single reply -/

theorem feed_finished {h : Handler σ ω} {es : List Event} {s : σ}
    (finished : (feed h es s).1 = .finished) : (feed h es s).2.1 = [] := by
  fun_induction feed h es s with
  | case1 => rfl
  | case2 => cases finished
  | case3 => cases finished
  | case4 => cases finished
  | case5 => cases finished
  | case6 _ _ _ _ _ _ ih => exact ih finished

theorem length_feed {h : Handler σ ω} {es : List Event} {s : σ}
    (unfinished : (feed h es s).1 ≠ .finished) : (feed h es s).2.1.length < es.length := by
  fun_induction feed h es s with
  | case1 => exact absurd rfl unfinished
  | case2 => exact Nat.lt_succ_self _
  | case3 => exact Nat.lt_succ_self _
  | case4 => exact Nat.lt_succ_self _
  | case5 => exact Nat.lt_succ_self _
  | case6 _ _ _ _ _ _ ih => exact Nat.lt_succ_of_lt (ih unfinished)

/-- Up to a reply some of the events are passed on, and what is emitted of them is recorded. -/
theorem feed_recording (h : Handler σ ω) (es : List Event) (s : σ)
    (record : List (Emission × Span)) :
    ∃ front, es = front ++ (feed h es s).2.1 ∧
      feed h.recording es (s, record) = ((feed h es s).1, (feed h es s).2.1, (feed h es s).2.2,
        record ++ Event.emissions front) := by
  fun_induction feed h es s generalizing record with
  | case1 s => exact ⟨[], rfl, by rw [Event.emissions, List.filterMap_nil, List.append_nil, feed]⟩
  | case2 rest s =>
    have silent : Event.emissions [.abort] = [] := rfl
    exact ⟨[.abort], rfl, by rw [silent, List.append_nil, feed]⟩
  | case3 e rest s e' t fault =>
    have silent : Event.emissions [.fault e] = [] := rfl
    exact ⟨[.fault e], rfl, by simp only [silent, List.append_nil, feed, Handler.recording, fault]⟩
  | case4 emission span rest s e t told =>
    exact ⟨[.emit emission span], rfl, by rw [feed, Handler.recording_emit told]; rfl⟩
  | case5 emission span rest s o t told =>
    exact ⟨[.emit emission span], rfl, by rw [feed, Handler.recording_emit told]; rfl⟩
  | case6 emission span rest s t told ih =>
    obtain ⟨front, split, fed⟩ := ih (record ++ [(emission, span)])
    refine ⟨.emit emission span :: front, congrArg _ split, ?_⟩
    rw [feed, Handler.recording_emit told]
    show feed h.recording rest (t, _) = _
    rw [fed, List.append_assoc]
    rfl

/-! ## Reply by reply -/

/-- A lexer that has nothing more to say is finished. -/
theorem reply_of_nil {l : Lexer} (nothing : l.events = []) (h : Handler σ ω) (s : σ) (k : Nat) :
    l.reply h s k = .finished ∧ l.handled h s k = s := by
  induction k generalizing l with
  | zero =>
    obtain ⟨l', asked, _⟩ := l.lex_eq h s
    rw [nothing] at asked
    rw [reply, handled, asked]
    exact ⟨rfl, rfl⟩
  | succ k ih =>
    obtain ⟨l', asked, further⟩ := l.lex_eq h s
    rw [nothing] at asked further
    rw [reply, handled, asked]
    exact ih further

/-- What is recorded behind each reply, by induction on what the two lexers still have to say. -/
theorem handled_recording {es : List Event} {l l' : Lexer} (he : l.events = es)
    (he' : l'.events = es) (h : Handler σ ω) (s : σ) (record : List (Emission × Span)) :
    ∃ n, (∀ k < n, l.reply h s k ≠ .finished ∧
        (l'.handled h.recording (s, record) k).2 <+: record ++ Event.emissions es) ∧
      ∀ k ≥ n, l.reply h s k = .finished ∧
        (l'.handled h.recording (s, record) k).2 = record ++ Event.emissions es := by
  induction hn : es.length using Nat.strongRecOn generalizing es l l' s record with
  | ind length ih =>
    obtain ⟨next, asked, further⟩ := l.lex_eq h s
    obtain ⟨next', asked', further'⟩ := l'.lex_eq h.recording (s, record)
    obtain ⟨front, split, fed⟩ := feed_recording h es s record
    rw [he] at asked further
    rw [he', fed] at asked' further'
    have here : l.reply h s 0 = (feed h es s).1 := congrArg Prod.fst asked
    have recorded : (l'.handled h.recording (s, record) 0).2 = record ++ Event.emissions front :=
      congrArg (·.2.2.2) asked'
    have onward (k : Nat) : l.reply h s (k + 1) = next.reply h (feed h es s).2.2 k := by
      rw [reply, asked]
    have onward' (k : Nat) : l'.handled h.recording (s, record) (k + 1) =
        next'.handled h.recording ((feed h es s).2.2, record ++ Event.emissions front) k := by
      rw [handled, asked']
    by_cases finished : (feed h es s).1 = .finished
    · have nothing := feed_finished finished
      rw [nothing, List.append_nil] at split
      refine ⟨0, fun k hk => absurd hk (Nat.not_lt_zero k), fun k _ => ?_⟩
      cases k with
      | zero => exact ⟨here.trans finished, by rw [recorded, ← split]⟩
      | succ k =>
        rw [onward, onward', (reply_of_nil (further.trans nothing) ..).1,
          (reply_of_nil (further'.trans nothing) ..).2, ← split]
        exact ⟨rfl, rfl⟩
    · obtain ⟨n, before, behind⟩ := ih _ (hn ▸ length_feed finished) further further'
        (feed h es s).2.2 (record ++ Event.emissions front) rfl
      have all : record ++ Event.emissions front ++ Event.emissions (feed h es s).2.1 =
          record ++ Event.emissions es := by
        rw [List.append_assoc, ← Event.emissions_append, ← split]
      rw [all] at before behind
      refine ⟨n + 1, fun k hk => ?_, fun k hk => ?_⟩
      · cases k with
        | zero =>
          rw [here, recorded]
          exact ⟨finished, all ▸ List.prefix_append ..⟩
        | succ k =>
          rw [onward, onward']
          exact before k (Nat.lt_of_succ_lt_succ hk)
      · cases k with
        | zero => exact absurd hk (Nat.not_succ_le_zero n)
        | succ k =>
          rw [onward, onward']
          exact behind k (Nat.le_of_succ_le_succ hk)

/-- Whatever a handler answers, a lexer that is asked again and again emits to it what the frames, the
rules and the context have it emit, and no more: a beginning of it up to each reply, and all of it
once the lexer is finished. -/
theorem emitted_new (rules : List Rule) (context : Context) (frames : List Frame)
    (h : Handler σ ω) (s : σ) :
    let l := Lexer.new rules context frames
    let all := Event.emissions
      (.emit (.object "CTX" context) {} :: Event.ofFrames rules {} none {} frames)
    ∃ n, (∀ k < n, l.reply h s k ≠ .finished ∧ l.emitted h s k <+: all) ∧
      ∀ k ≥ n, l.reply h s k = .finished ∧ l.emitted h s k = all :=
  handled_recording (events_new rules context frames) (events_new rules context frames) h s []

end Lexer

end ScrapeConfig
