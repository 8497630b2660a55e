import ScrapeConfig.Document.Load
import ScrapeConfig.Proofs.Lexer.Tokens
import ScrapeConfig.Proofs.Scan.Interleaving

/-!
# Tokens from another thread

A lexer that takes its frames from a consumer gets the first frames of the scanner only, however many
it has asked for. If it has come to the end of the document, or to an error, they are enough: the
frames behind them make no difference.

Results:
1. `Event.tokens_append`: the tokens of events are those of their parts.
2. `Event.tokens_of_isPrefix`: frames that decide the tokens of all frames that begin with them.
3. `Scanner.spawn_faithful`: what a consumer gets in any interleaving, and what is made of it.
-/

namespace ScrapeConfig

namespace Event

variable {rules : List Rule} {t t' : Tracker} {run run' : Option (List Char)} {f : Frame}
  {fs gs : List Frame} {es : List Event}

theorem tokens_append (h : .abort ∉ es) (es' : List Event) :
    tokens (es ++ es') = (tokens es).bind fun ts => (tokens es').map (ts ++ ·) := by
  induction es with
  | nil =>
    rw [List.nil_append, tokens, Except.bind]
    cases tokens es' <;> rfl
  | cons e es ih =>
    rw [List.mem_cons, not_or] at h
    have further := ih h.2
    cases e with
    | abort => exact absurd rfl h.1
    | fault e => rfl
    | emit emission span =>
      cases ht : Token.ofEmission emission span with
      | error e => rw [List.cons_append, tokens_emit_error ht, tokens_emit_error ht, Except.bind]
      | ok t =>
        rw [List.cons_append, tokens_emit ht, tokens_emit ht, further]
        cases tokens es with
        | error e => rfl
        | ok ts => cases tokens es' <;> rfl

/-- Frames that come to the end of a document, or to an error, decide its tokens. By induction on
the frames. -/
theorem tokens_of_isPrefix (h : fs <+: gs) (span : Span)
    (decided : (∃ f ∈ fs, f.isEnd) ∨ ∃ e, tokens (ofFrames rules t run span fs) = .error e) :
    tokens (ofFrames rules t run span gs) = tokens (ofFrames rules t run span fs) := by
  induction fs generalizing t run span gs with
  | nil =>
    rcases decided with ⟨f, hf, _⟩ | ⟨e, he⟩
    · exact absurd hf List.not_mem_nil
    · rw [ofFrames, tokens_closing] at he
      cases he
  | cons f fs ih =>
    obtain ⟨gs, rfl, further⟩ := List.cons_prefix_iff.mp h
    rcases ends_or_aborts_or_adds rules t run f with ends | ⟨i, r, hi, hr, skip, indent, ha⟩ |
      ⟨es, t', run', adds⟩
    · simp only [ofFrames, ends]
    · -- Nothing is said behind an abort, so what follows does not matter.
      rw [ofFrames_of_token hi hr skip indent, ofFrames_of_token hi hr skip indent, ha]
      rfl
    · rw [adds.ofFrames_eq, tokens_append adds.abort_notMem] at decided
      rw [adds.ofFrames_eq, adds.ofFrames_eq, tokens_append adds.abort_notMem,
        tokens_append adds.abort_notMem]
      cases hes : tokens es with
      | error e => rfl
      | ok ts =>
        -- The frame decides nothing, so those behind it do.
        rw [hes] at decided
        have behind : (∃ g ∈ fs, g.isEnd) ∨
            ∃ e, tokens (ofFrames rules t' run' f.span fs) = .error e := by
          rcases decided with ⟨g, hg, ends⟩ | ⟨e, he⟩
          · rcases List.mem_cons.mp hg with rfl | hg
            · exact absurd (adds.isEnd_eq_false.symm.trans ends) Bool.false_ne_true
            · exact .inl ⟨g, hg, ends⟩
          · cases hfs : tokens (ofFrames rules t' run' f.span fs) with
            | error e => exact .inr ⟨e, rfl⟩
            | ok _ =>
              rw [hfs] at he
              cases he
        rw [ih further f.span behind]

end Event

/-- Frames that come to the end of a document, or to an error, decide its tokens. -/
theorem Lexer.tokens_of_isPrefix {rules : List Rule} {context : Context} {fs gs : List Frame}
    (h : fs <+: gs)
    (decided : (∃ f ∈ fs, f.isEnd) ∨ ∃ e, (Lexer.new rules context fs).tokens = .error e) :
    (Lexer.new rules context fs).tokens = (Lexer.new rules context gs).tokens := by
  have tokens (fs : List Frame) : (Lexer.new rules context fs).tokens =
      (Event.tokens (Event.ofFrames rules {} none {} fs)).map (.opening context :: ·) := by
    rw [tokens_eq, events_new, Event.tokens_emit (Token.ofEmission_opening context)]
  rw [tokens, tokens, Event.tokens_of_isPrefix h]
  refine decided.imp_right fun ⟨e, he⟩ => ?_
  rw [tokens] at he
  cases hfs : Event.tokens (Event.ofFrames rules {} none {} fs) with
  | error e => exact ⟨e, rfl⟩
  | ok _ =>
    rw [hfs] at he
    cases he

theorem Document.frames_threaded (set : PatternSet) (source : String) :
    frames set true source = frames set false source := Scanner.drain_spawn _

theorem Document.tokenize_threaded (context : Context) (source : String) :
    tokenize true context source = tokenize false context source := by
  rw [tokenize, tokenize, lexer, lexer]
  simp only [Document.frames_threaded]

/-- Any interleaving of a producer and its consumer is faithful to the scanner that the producer owns,
and as soon as the frames that were received decide the tokens, these are the tokens of all frames.
So it makes no difference which way the frames of a document take. -/
theorem Scanner.spawn_faithful (s : Scanner) :
    (∀ ms h, s.spawn.moves ms = some h → h.Faithful s ∧
      ∀ rules context,
        ((∃ f ∈ h.received, f.isEnd) ∨
          ∃ e, (Lexer.new rules context h.received).tokens = .error e) →
        (Lexer.new rules context h.received).tokens = (Lexer.new rules context s.frames).tokens) ∧
      ∀ context source,
        Document.tokenize true context source = Document.tokenize false context source := by
  refine ⟨fun ms h e => ?_, Document.tokenize_threaded⟩
  have faithful := (Handoff.Sound.run (Handoff.sound_spawn s) e).faithful
  exact ⟨faithful, fun rules context => Lexer.tokens_of_isPrefix faithful.received⟩

/-- A consumer that cancels while the producer holds the second frame: it is not delivered, and the
first one is enough for a lexer without rules. -/
theorem Scanner.spawn_faithful_cancelling :
    ∃ set h, (Scanner.new set "aa").spawn.moves
        [.ask, .fetch, .look, .transfer, .fetch, .cancel, .look, .close, .ask] = some h ∧
      h.answered = [some ⟨some 0, ['a'], {}⟩, none] ∧ h.Faithful (Scanner.new set "aa") ∧
      (Lexer.new [] {} h.received).tokens =
        (Lexer.new [] {} (Scanner.new set "aa").frames).tokens := by
  have compiled : ∃ p, Pattern.compile "a" false = .ok p ∧
      ((Scanner.new ⟨[p]⟩ "aa").spawn.moves
        [.ask, .fetch, .look, .transfer, .fetch, .cancel, .look, .close, .ask]).map
          Handoff.answered = some [some ⟨some 0, ['a'], {}⟩, none] := ⟨_, rfl, by decide +kernel⟩
  obtain ⟨p, _, run⟩ := compiled
  obtain ⟨h, moved, answered⟩ := Option.map_eq_some_iff.mp run
  obtain ⟨faithful, decides⟩ := (Scanner.spawn_faithful _).1 _ h moved
  have received : h.received = [⟨some 0, ['a'], {}⟩] := by rw [Handoff.received, answered]; rfl
  have fails : ∃ e, (Lexer.new [] {} h.received).tokens = .error e := by
    rw [received, Lexer.tokens_eq, Lexer.events_new,
      Event.tokens_emit (Token.ofEmission_opening {})]
    exact ⟨_, rfl⟩
  exact ⟨⟨[p]⟩, h, moved, answered, faithful, decides [] {} (.inr fails)⟩

end ScrapeConfig
