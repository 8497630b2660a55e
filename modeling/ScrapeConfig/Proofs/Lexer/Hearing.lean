import ScrapeConfig.Proofs.Lexer.Emissions
import ScrapeConfig.Proofs.Lexer.Legibility

/-!
# Errors that a handler is told

A lexer tells its handler a fault of the document before it answers with it. An error that the handler
itself has answered to an emission comes back without having been told.

Results:
1. `Handler.telling`: a handler that also records what it is told. `Lexer.told`: what it is told by a
   single reply.
2. `Lexer.told_iff`: all errors are told if and only if the handler refuses nothing that is emitted.
3. `Document.told_of_reply`: all errors of a document are told.
-/

namespace ScrapeConfig

variable {σ ω : Type}

/-- Answers as before, and keeps a record of the faults that it is told. -/
def Handler.telling (h : Handler σ ω) : Handler (σ × List ParseError) ω where
  emit emission span s :=
    let (answer, t) := h.emit emission span s.1
    (answer, t, s.2)
  fault e s :=
    let (e', t) := h.fault e s.1
    (e', t, s.2 ++ [e])

/-- The handler gives every fault back, and it answers an emission by an error if and only if it
refuses it, whatever its state is. -/
structure Handler.Refuses (h : Handler σ ω) (refused : Emission × Span → Prop) : Prop where
  fault : ∀ e s, (h.fault e s).1 = e
  emit : ∀ emission span s, (∃ e, (h.emit emission span s).1 = .error e) ↔ refused (emission, span)

/-- The emission does not name a token. -/
def Token.Refused (x : Emission × Span) : Prop := ∃ e, Token.ofEmission x.1 x.2 = .error e

theorem Token.refuses : Token.handler.Refuses Token.Refused where
  fault _ _ := rfl
  emit emission span _ := by
    simp only [Token.handler, Token.Refused]
    cases Token.ofEmission emission span <;> simp [Except.map]

theorem Transcript.refuses : Transcript.handler.Refuses Token.Refused where
  fault _ _ := rfl
  emit emission span t := by
    simp only [Transcript.handler, Token.Refused]
    cases Token.ofEmission emission span <;> simp

namespace Lexer

/-! ## A single reply -/

variable {h : Handler σ ω} {refused : Emission × Span → Prop} {es : List Event} {s : σ}

/-- What the handler is told of these events up to the reply. -/
def heard (h : Handler σ ω) (es : List Event) (s : σ) : List ParseError :=
  (feed h.telling es (s, [])).2.2.2

theorem heard_refused {emission : Emission} {span : Span} {rest : List Event} {e : ParseError} {t : σ}
    (told : h.emit emission span s = (.error e, t)) :
    heard h (.emit emission span :: rest) s = [] := by
  simp only [heard, feed, Handler.telling, told]

theorem heard_passed {emission : Emission} {span : Span} {rest : List Event} {t : σ}
    (told : h.emit emission span s = (.ok none, t)) :
    heard h (.emit emission span :: rest) s = heard h rest t := by
  simp only [heard, feed, Handler.telling, told]

theorem refused_of_error (hh : h.Refuses refused) {emission : Emission} {span : Span}
    {e : ParseError} {t : σ} (told : h.emit emission span s = (.error e, t)) :
    refused (emission, span) :=
  (hh.emit emission span s).mp ⟨e, by rw [told]⟩

theorem not_refused_of_ok (hh : h.Refuses refused) {emission : Emission} {span : Span}
    {o : Option ω} {t : σ} (told : h.emit emission span s = (.ok o, t)) :
    ¬ refused (emission, span) := by
  intro bad
  obtain ⟨e, failed⟩ := (hh.emit emission span s).mpr bad
  rw [told] at failed
  cases failed

/-- An error is either told or comes from an emission that is refused. -/
theorem heard_of_error (hh : h.Refuses refused) {e : ParseError}
    (answered : (feed h es s).1 = .error e) :
    heard h es s = [e] ∨ ∃ x ∈ Event.emissions es, refused x := by
  fun_induction feed h es s with
  | case1 => cases answered
  | case2 => cases answered
  | case3 e' rest s e'' t told =>
    obtain rfl : e'' = e' := (congrArg Prod.fst told).symm.trans (hh.fault e' s)
    cases answered
    exact .inl rfl
  | case4 emission span rest s e' t told =>
    exact .inr ⟨_, List.mem_cons_self, refused_of_error hh told⟩
  | case5 => cases answered
  | case6 emission span rest s t told ih =>
    rcases ih answered with heard | ⟨x, hx, bad⟩
    · exact .inl ((heard_passed told).trans heard)
    · exact .inr ⟨x, List.mem_cons_of_mem _ hx, bad⟩

/-- A refused emission is still to come, or the reply is an error that has not been told. -/
theorem refused_cases (hh : h.Refuses refused) {x : Emission × Span} (hx : x ∈ Event.emissions es)
    (bad : refused x) :
    x ∈ Event.emissions (feed h es s).2.1 ∨
      (∃ e, (feed h es s).1 = .error e) ∧ heard h es s = [] := by
  fun_induction feed h es s with
  | case1 => exact .inl hx
  | case2 => exact .inl hx
  | case3 => exact .inl hx
  | case4 emission span rest s e t told => exact .inr ⟨⟨e, rfl⟩, heard_refused told⟩
  | case5 emission span rest s o t told =>
    rcases List.mem_cons.mp hx with rfl | hx
    · exact absurd bad (not_refused_of_ok hh told)
    · exact .inl hx
  | case6 emission span rest s t told ih =>
    rcases List.mem_cons.mp hx with rfl | hx
    · exact absurd bad (not_refused_of_ok hh told)
    · rw [heard_passed told]
      exact ih hx

/-! ## Reply by reply -/

/-- What the handler is told by the `k`-th reply, counted from zero, and by no other one. -/
def told (l : Lexer) (h : Handler σ ω) (s : σ) : (k : Nat) → List ParseError
  | 0 => (l.lex h.telling (s, [])).2.2.2
  | k + 1 => (l.lex h s).2.1.told h (l.lex h s).2.2 k

theorem told_zero (l : Lexer) (h : Handler σ ω) (s : σ) : l.told h s 0 = heard h l.events s := by
  obtain ⟨_, asked, _⟩ := l.lex_eq h.telling (s, [])
  rw [told, asked]
  rfl

/-- If nothing is refused, every error is told. -/
theorem told_of_error (hh : h.Refuses refused) {l : Lexer}
    (good : ∀ x ∈ Event.emissions l.events, ¬ refused x) {k : Nat} {e : ParseError}
    (answered : l.reply h s k = .error e) : l.told h s k = [e] := by
  induction k generalizing l s with
  | zero =>
    obtain ⟨_, asked, _⟩ := l.lex_eq h s
    rw [reply, asked] at answered
    rcases heard_of_error hh answered with heard | ⟨x, hx, bad⟩
    · rw [told_zero, heard]
    · exact absurd bad (good x hx)
  | succ k ih =>
    obtain ⟨next, asked, further⟩ := l.lex_eq h s
    obtain ⟨front, split, _⟩ := feed_recording h l.events s []
    rw [reply, asked] at answered
    rw [told, asked]
    refine ih (fun x hx => good x ?_) answered
    rw [further] at hx
    rw [split, Event.emissions_append]
    exact List.mem_append_right _ hx

/-- If an emission is refused, some error is not told. By induction on what there is to say. -/
theorem exists_untold (hh : h.Refuses refused) {l : Lexer} {x : Emission × Span}
    (hx : x ∈ Event.emissions l.events) (bad : refused x) :
    ∃ k e, l.reply h s k = .error e ∧ l.told h s k = [] := by
  induction hn : l.events.length using Nat.strongRecOn generalizing l s with
  | ind length ih =>
    obtain ⟨next, asked, further⟩ := l.lex_eq h s
    rcases refused_cases (s := s) hh hx bad with later | ⟨⟨e, failed⟩, untold⟩
    · have unfinished : (feed h l.events s).1 ≠ .finished := by
        intro finished
        rw [feed_finished finished] at later
        cases later
      have shorter : next.events.length < length := by
        rw [further, ← hn]
        exact length_feed unfinished
      rw [← further] at later
      obtain ⟨k, e, failed, untold⟩ := ih _ shorter later rfl
      exact ⟨k + 1, e, by rw [reply, asked]; exact failed, by rw [told, asked]; exact untold⟩
    · exact ⟨0, e, by rw [reply, asked]; exact failed, (told_zero l h s).trans untold⟩

/-- All errors are told, each of them once and by its own reply, if and only if the handler refuses
nothing of what the frames, the rules and the context have the lexer emit. -/
theorem told_iff (hh : h.Refuses refused) (rules : List Rule) (context : Context)
    (frames : List Frame) (s : σ) :
    (∀ k e, (Lexer.new rules context frames).reply h s k = .error e →
        (Lexer.new rules context frames).told h s k = [e]) ↔
      ∀ x ∈ Event.emissions
        (.emit (.object "CTX" context) {} :: Event.ofFrames rules {} none {} frames), ¬ refused x := by
  rw [← events_new rules context frames]
  constructor
  · intro all x hx bad
    obtain ⟨k, e, failed, untold⟩ := exists_untold (s := s) hh hx bad
    have told := all k e failed
    rw [untold] at told
    cases told
  · exact fun good k e answered => told_of_error hh good answered

/-- Under a rule that takes every word for a keyword, `fetch` comes back as an error of which a
transcript is not told. -/
example :
    let l := Lexer.new [{ name := "word", source := "[a-z]+", action := .keyword }] {}
      [⟨some 0, "fetch".toList, {}⟩]
    l.reply Transcript.handler {} 0 = .error (.atSpan (.unknownKeyword "fetch") ⟨0, 5, 1, 1⟩) ∧
      l.told Transcript.handler {} 0 = [] :=
  ⟨by cbv, by cbv⟩

end Lexer

/-- What a document is emitted as names tokens, so that a handler which builds tokens, or takes them
down, is told all errors of the document. -/
theorem Document.told_of_reply {h : Handler σ ω} (hh : h.Refuses Token.Refused) (threaded : Bool)
    (context : Context) (source : String) (s : σ) :
    ∃ l, lexer threaded context source = .ok l ∧
      ∀ k e, l.reply h s k = .error e → l.told h s k = [e] := by
  obtain ⟨l, lexed, plain, _⟩ := exists_lexer threaded context source
  refine ⟨l, lexed, fun k e answered => Lexer.told_of_error hh (fun x hx => ?_) answered⟩
  rintro ⟨fault, bad⟩
  obtain ⟨event, he, emitted⟩ := List.mem_filterMap.mp hx
  cases event with
  | emit emission span =>
    obtain rfl := Option.some.inj emitted
    obtain ⟨token, good⟩ := plain _ he
    rw [good] at bad
    cases bad
  | _ => cases emitted

end ScrapeConfig
