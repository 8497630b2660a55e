import ScrapeConfig.Proofs.Layout.Nesting
import ScrapeConfig.Proofs.Lexer.Tokens

/-!
# Asking a lexer again and again

A lexer with any rules can be asked for tokens until it has no more, and beyond that, and a fault on
the way does not keep it from going on. What it then gives are the tokens between the two ends of the
document, and among them every block that is opened is closed again, the innermost first.

Results:
1. `Lexer.reply`: what a lexer replies when it is asked for the `k`-th time. `Lexer.reply_eq` reads it
   off the events.
2. `Token.nest`: the open blocks behind a token, if it closes none but the innermost one.
3. `Event.Nested`: what is kept up by events. `Event.Adds.nested` says so for a frame and
   `Event.nested_ofFrames` for all frames.
4. `Lexer.replies_balanced`: the replies of a lexer.
-/

namespace ScrapeConfig

/-! ## Frames -/

/-- If the frame is punctuation, it begins with an ASCII character. -/
def Frame.OpensAscii (rules : List Rule) (f : Frame) : Prop :=
  ∀ r ∈ f.pattern.bind (rules[·]?), r.action = .punct → f.text.head?.any (·.toNat ≤ 127)

instance (rules : List Rule) (f : Frame) : Decidable (f.OpensAscii rules) :=
  inferInstanceAs (Decidable (∀ r ∈ f.pattern.bind (rules[·]?), _))

namespace Event

theorem ofFrame_ne_abort {action : Action} {text : List Char}
    (ascii : action = .punct → text.head?.any (·.toNat ≤ 127)) (span : Span) :
    ofFrame action text span ≠ .abort := by
  cases action with
  | punct =>
    obtain ⟨c, hc, small⟩ := (Option.any_eq_true _ _).mp (ascii rfl)
    obtain ⟨cs, rfl⟩ := List.head?_eq_some_iff.mp hc
    have one : c.utf8Size = 1 := Char.utf8Size_eq_one_iff.mpr (of_decide_eq_true small)
    simp [ofFrame, leadingPunct, one]
  | _ => simp [ofFrame]

/-- A frame either ends the document or adds something to it. -/
theorem ends_or_adds {rules : List Rule} {f : Frame} (ascii : f.OpensAscii rules) (t : Tracker)
    (run : Option (List Char)) :
    f.pattern = none ∨ ∃ es t' run', Adds rules t run f es t' run' := by
  rcases ends_or_aborts_or_adds rules t run f with ends | ⟨i, r, hi, hr, _, _, aborts⟩ | adds
  · exact .inl ends
  · exact absurd aborts (ofFrame_ne_abort (ascii r (by rw [hi]; exact hr)) f.span)
  · exact .inr adds

end Event

/-! ## Replies -/

theorem Event.reply_eq_output_or_error (e : Event) (h : e ≠ .abort) :
    (∃ t, e.reply = .output t) ∨ ∃ error, e.reply = .error error := by
  cases e with
  | abort => exact absurd rfl h
  | fault error => exact .inr ⟨error, rfl⟩
  | emit emission span =>
    rw [reply]
    split
    · exact .inr ⟨_, rfl⟩
    · exact .inl ⟨_, rfl⟩

/-- What a reply gives. -/
def Reply.output? {ω : Type} : Reply ω → Option ω
  | .output o => some o
  | _ => none

namespace Lexer

/-- The reply of a lexer that is asked for the `k`-th time, counted from zero. Whatever it replies,
it is asked again. -/
def reply {σ ω : Type} (l : Lexer) (h : Handler σ ω) (s : σ) : (k : Nat) → Reply ω
  | 0 => (l.lex h s).1
  | k + 1 => (l.lex h s).2.1.reply h (l.lex h s).2.2 k

/-- Every event is replied to, and behind the last one the lexer is finished. -/
theorem reply_eq (l : Lexer) (k : Nat) :
    l.reply Token.handler () k = ((l.events.map Event.reply)[k]?).getD .finished := by
  induction k generalizing l with
  | zero => cases hes : l.events with
    | nil =>
      obtain ⟨l', asked, _⟩ := l.lex_eq Token.handler ()
      rw [reply, asked, hes]
      rfl
    | cons e es =>
      obtain ⟨l', asked, _⟩ := lex_of_events hes
      rw [reply, asked]
      rfl
  | succ k ih => cases hes : l.events with
    | nil =>
      obtain ⟨l', asked, further⟩ := l.lex_eq Token.handler ()
      rw [hes] at asked further
      rw [reply, asked, ih, further]
      rfl
    | cons e es =>
      obtain ⟨l', asked, further⟩ := lex_of_events hes
      rw [reply, asked, ih, further]
      rfl

end Lexer

/-! ## Blocks -/

namespace Token

/-- The open blocks behind a token, by their levels with the innermost first, where `blocks` are
open in front of it. None if it closes a block that is not the innermost one, or on another level. -/
def nest (blocks : List Nat) (t : Token) : Option (List Nat) :=
  match t.kind with
  | .blockOpen => match t.payload with
    | .level n => some (n :: blocks)
    | _ => none
  | .blockClose => match t.payload, blocks with
    | .level n, inner :: outer => if inner = n then some outer else none
    | _, _ => none
  | _ => some blocks

theorem nest_of_ne {t : Token} (opens : t.kind ≠ .blockOpen) (closes : t.kind ≠ .blockClose)
    (blocks : List Nat) : nest blocks t = some blocks := by
  unfold nest
  split
  · exact absurd ‹_› opens
  · exact absurd ‹_› closes
  · rfl

/-- A token leaves one block more open, or one less, or the same blocks. -/
theorem nest_cases {t : Token} {blocks blocks' : List Nat} (h : nest blocks t = some blocks') :
    (t.kind = .blockOpen ∧ ∃ n, blocks' = n :: blocks) ∨
      (t.kind = .blockClose ∧ ∃ n, blocks = n :: blocks') ∨
        (t.kind ≠ .blockOpen ∧ t.kind ≠ .blockClose ∧ blocks' = blocks) := by
  unfold nest at h
  split at h
  · next opens =>
    split at h
    · exact .inl ⟨opens, _, (Option.some.inj h).symm⟩
    · cases h
  · next closes =>
    split at h
    · split at h
      · exact .inr (.inl ⟨closes, _, congrArg _ (Option.some.inj h)⟩)
      · cases h
    · cases h
  · next opens closes => exact .inr (.inr ⟨opens, closes, (Option.some.inj h).symm⟩)

/-- Tokens that close every block that they open, and no others. -/
structure Balanced (ts : List Token) : Prop where
  /-- A block that is closed is the innermost open one, and no block stays open. -/
  nested : ts.foldlM nest [] = some []
  counted : ∀ front, front <+: ts →
    front.countP (·.kind = .blockClose) ≤ front.countP (·.kind = .blockOpen)

theorem count_of_nest {ts : List Token} {blocks blocks' : List Nat}
    (h : ts.foldlM nest blocks = some blocks') :
    ts.countP (·.kind = .blockClose) + blocks'.length =
      ts.countP (·.kind = .blockOpen) + blocks.length := by
  refine countP_of_steps (fun t blocks blocks' ht => ?_) h
  rcases nest_cases ht with ⟨kind, n, rfl⟩ | ⟨kind, n, rfl⟩ | ⟨opens, closes, rfl⟩
  · exact .inl ⟨by simp [kind], by simp [kind], n, rfl⟩
  · exact .inr (.inl ⟨by simp [kind], by simp [kind], n, rfl⟩)
  · exact .inr (.inr ⟨by simp [opens], by simp [closes], rfl⟩)

theorem balanced_of_nest {ts : List Token} (h : ts.foldlM nest [] = some []) :
    Balanced ts := by
  refine ⟨h, ?_⟩
  rintro front ⟨back, rfl⟩
  rw [List.foldlM_append] at h
  obtain ⟨inner, hfront, _⟩ := Option.bind_eq_some_iff.mp h
  have count := count_of_nest hfront
  rw [List.length_nil] at count
  omega

end Token

namespace Boundary

/-- Tokens of boundaries nest as the boundaries do. -/
theorem foldlM_nest_token (bs : List Boundary) (blocks : List Nat) (span : Span) :
    (bs.map (Boundary.token span)).foldlM Token.nest blocks = bs.foldlM nest blocks := by
  have single : (fun blocks (b : Boundary) => Token.nest blocks (b.token span)) = nest := by
    funext blocks b
    cases b with
    | blockClose level =>
      cases blocks with
      | nil => rfl
      | cons inner outer =>
        show (if inner = level then some outer else none) = _
        simp only [nest, List.head?_cons, Option.some_inj, List.tail_cons]
    | _ => rfl
  rw [List.foldlM_map, single]

end Boundary

/-- Collected white space announces boundaries that close the innermost blocks only. -/
theorem Tracker.Holds.nest_across {t : Tracker} {blocks : List Nat} (h : t.Holds blocks)
    (run : Option (List Char)) (span : Span) :
    ∃ blocks', (t.across run).settled.Holds blocks' ∧
      ((t.across run).pending.map (Boundary.token span)).foldlM Token.nest blocks = some blocks' := by
  cases run with
  | none =>
    refine ⟨blocks, ⟨rfl, h.levels⟩, ?_⟩
    rw [Tracker.across, h.pending]
    rfl
  | some space =>
    refine ⟨_, ⟨rfl, Tracker.levels_moveTo h (Tracker.measure space)⟩, ?_⟩
    rw [Tracker.across, Tracker.indent, Tracker.pending_moveTo h, Boundary.foldlM_nest_token]
    exact Boundary.nest_crossing _ blocks

/-! ## Events -/

/-- What a list of replies gives. -/
def Reply.outputs {ω : Type} (rs : List (Reply ω)) : List ω := rs.filterMap Reply.output?

namespace Event

/-- The tokens of events, where those that are no tokens are left out. -/
def given (es : List Event) : List Token := Reply.outputs (es.map reply)

theorem given_append (es es' : List Event) : given (es ++ es') = given es ++ given es' := by
  rw [given, List.map_append, Reply.outputs, List.filterMap_append]
  rfl

theorem given_boundaries (bs : List Boundary) (span : Span) :
    given (bs.map (boundary span)) = bs.map (Boundary.token span) := by
  induction bs with
  | nil => rfl
  | cons b bs ih =>
    have first : (boundary span b).reply = .output (b.token span) := by
      rw [boundary, reply, b.ofEmission_eq]
    rw [List.map_cons, given, List.map_cons, first, List.map_cons, ← ih]
    rfl

/-- Events between the two ends of a document, with the open blocks in front of them and behind. -/
structure Nested (blocks : List Nat) (es : List Event) (blocks' : List Nat) : Prop where
  goesOn : .abort ∉ es
  inner : ∀ t ∈ given es, t.kind ≠ .ctx ∧ t.kind ≠ .eof
  nest : (given es).foldlM Token.nest blocks = some blocks'

variable {blocks inner blocks' : List Nat} {es es' : List Event} {span : Span}

theorem nested_nil (blocks : List Nat) : Nested blocks [] blocks :=
  ⟨List.not_mem_nil, fun _ ht => absurd ht List.not_mem_nil, rfl⟩

theorem Nested.append (h : Nested blocks es inner) (h' : Nested inner es' blocks') :
    Nested blocks (es ++ es') blocks' where
  goesOn hmem := (List.mem_append.mp hmem).elim h.goesOn h'.goesOn
  inner := by
    rw [given_append]
    exact List.forall_mem_append.mpr ⟨h.inner, h'.inner⟩
  nest := by
    rw [given_append, List.foldlM_append, h.nest]
    exact h'.nest

theorem nested_fault (blocks : List Nat) (e : ParseError) : Nested blocks [.fault e] blocks :=
  ⟨by simp, fun _ ht => absurd ht List.not_mem_nil, rfl⟩

theorem nested_boundaries {bs : List Boundary}
    (h : (bs.map (Boundary.token span)).foldlM Token.nest blocks = some blocks') :
    Nested blocks (bs.map (boundary span)) blocks' where
  goesOn := by
    rw [List.mem_map]
    exact nofun
  inner := by
    rw [given_boundaries, List.forall_mem_map]
    rintro (_ | _ | _ | _) _ <;> exact ⟨nofun, nofun⟩
  nest := by rw [given_boundaries, h]

end Event

/-- No text is read as a token of the layout. -/
theorem Token.not_isStructural_of_text {c : Channel} {s : String} {span : Span} {t : Token}
    (h : ofEmission (.text c s) span = .ok t) : t.kind.isStructural = false := by
  unfold ofEmission at h
  split at h
  · next none => cases none
  · exact Except.ok.inj h ▸ rfl
  · exact Except.ok.inj h ▸ rfl
  · split at h
    · split at h
      · cases h
      · next content => exact Except.ok.inj h ▸ eq_false_of_ne_true content
    · cases h
  · next none => cases none

namespace Event

variable {blocks : List Nat} {rules : List Rule} {t t' : Tracker} {run run' : Option (List Char)}
  {f : Frame} {es : List Event}

theorem nested_text (blocks : List Nat) (c : Channel) (s : String) (span : Span) :
    Nested blocks [.emit (.text c s) span] blocks := by
  cases ht : Token.ofEmission (.text c s) span with
  | error e =>
    have nothing : given [.emit (.text c s) span] = [] := by
      simp [given, Reply.outputs, reply, Reply.output?, ht]
    refine ⟨by simp, ?_, ?_⟩
    · rw [nothing]
      exact fun _ ht => absurd ht List.not_mem_nil
    · rw [nothing]
      rfl
  | ok t =>
    have one : given [.emit (.text c s) span] = [t] := by
      simp [given, Reply.outputs, reply, Reply.output?, ht]
    have content := Token.not_isStructural_of_text ht
    have ne : ∀ k : TokenKind, k.isStructural → t.kind ≠ k := by
      rintro _ structural rfl
      exact absurd (content.symm.trans structural) Bool.false_ne_true
    refine ⟨by simp, ?_, ?_⟩
    · rw [one, List.forall_mem_singleton]
      exact ⟨ne .ctx (by decide), ne .eof (by decide)⟩
    · rw [one, List.foldlM_cons,
        Token.nest_of_ne (ne .blockOpen (by decide)) (ne .blockClose (by decide))]
      rfl

theorem nested_ofFrame {action : Action} {text : List Char} {span : Span}
    (goesOn : ofFrame action text span ≠ .abort) (blocks : List Nat) :
    Nested blocks [ofFrame action text span] blocks := by
  match action, goesOn with
  | .punct, goesOn =>
    rw [ofFrame] at goesOn ⊢
    split at goesOn
    · exact nested_text blocks _ _ _
    · exact absurd rfl goesOn
  | .keyword, _ => exact nested_text blocks _ _ _
  | .literal, _ => exact nested_text blocks _ _ _
  | .variable, _ => exact nested_text blocks _ _ _
  | .skip, _ => exact nested_fault blocks _
  | .indent, _ => exact nested_fault blocks _
  | .unexpected, _ => exact nested_fault blocks _

/-- What a frame adds closes the innermost blocks only. -/
theorem Adds.nested (h : Adds rules t run f es t' run') (ht : t.Holds blocks) :
    ∃ blocks', t'.Holds blocks' ∧ Nested blocks es blocks' := by
  cases h with
  | unknown _ _ => exact ⟨blocks, ht, nested_fault blocks _⟩
  | skip _ _ _ => exact ⟨blocks, ht, nested_nil blocks⟩
  | indent _ _ _ => exact ⟨blocks, ht, nested_nil blocks⟩
  | token _ _ _ _ goesOn =>
    obtain ⟨blocks', holds, nest⟩ := ht.nest_across run f.span
    exact ⟨blocks', holds, (nested_boundaries nest).append (nested_ofFrame goesOn blocks')⟩

theorem closing_eq (ht : t.Holds blocks) (span : Span) :
    ∃ es, closing t span = es ++ [eof span] ∧ Nested blocks es [] := by
  refine ⟨_, rfl, nested_boundaries ?_⟩
  rw [Tracker.pending_finish ht, Boundary.foldlM_nest_token]
  exact Boundary.nest_closing blocks

/-- The events of any frames: what they add up to, and then the end. By induction on the frames,
where the tracker holds the open blocks. -/
theorem nested_ofFrames {fs : List Frame} (ascii : ∀ f ∈ fs, f.OpensAscii rules)
    (ht : t.Holds blocks) (run : Option (List Char)) (span : Span) :
    ∃ es span', ofFrames rules t run span fs = es ++ [eof span'] ∧ Nested blocks es [] := by
  induction fs generalizing t blocks run span with
  | nil =>
    obtain ⟨es, closing, nested⟩ := closing_eq ht span
    exact ⟨es, span, closing, nested⟩
  | cons f fs ih =>
    obtain ⟨first, others⟩ := List.forall_mem_cons.mp ascii
    rcases ends_or_adds first t run with hi | ⟨added, t', run', adds⟩
    · obtain ⟨es, closing, nested⟩ := closing_eq ht f.span
      refine ⟨es, f.span, ?_, nested⟩
      simp only [ofFrames, hi, closing]
    · obtain ⟨inner, holds, nested⟩ := adds.nested ht
      obtain ⟨es, span', events, further⟩ := ih others holds run' f.span
      exact ⟨added ++ es, span', by rw [adds.ofFrames_eq, events, List.append_assoc],
        nested.append further⟩

end Event

/-! ## The replies of a document -/

namespace Lexer

/-- Asked again and again, whatever it replies, a lexer gives its context, then tokens and errors, and
then the end of the document; from there on it is finished. Its tokens close every block that they
open, the innermost first. -/
theorem replies_balanced (rules : List Rule) (context : Context) (frames : List Frame)
    (ascii : ∀ f ∈ frames, f.OpensAscii rules) :
    ∃ inner span,
      (∀ k, (Lexer.new rules context frames).reply Token.handler () k =
        ((.output (.opening context) :: inner ++ [.output ⟨.eof, .none, span⟩])[k]?).getD
          .finished) ∧
      (∀ r ∈ inner, (∃ t, r = .output t ∧ t.kind ≠ .ctx ∧ t.kind ≠ .eof) ∨ ∃ e, r = .error e) ∧
      Token.Balanced (Reply.outputs inner) := by
  obtain ⟨es, span, events, nested⟩ :=
    Event.nested_ofFrames ascii Tracker.holds_empty none {}
  have first : (Event.emit (.object "CTX" context) {}).reply = .output (.opening context) := by
    rw [Event.reply, Token.ofEmission_opening]
  have last : (Event.eof span).reply = .output ⟨.eof, .none, span⟩ := by
    rw [Event.eof, Event.reply, Token.ofEmission_eof]
  refine ⟨es.map Event.reply, span, fun k => ?_, ?_, Token.balanced_of_nest nested.nest⟩
  · rw [reply_eq, events_new, events, List.map_cons, List.map_append, List.map_singleton, first, last]
    rfl
  · rintro _ hr
    obtain ⟨e, he, rfl⟩ := List.mem_map.mp hr
    rcases e.reply_eq_output_or_error (ne_of_mem_of_not_mem he nested.goesOn) with ⟨t, ht⟩ | error
    · exact .inl ⟨t, ht, nested.inner t (List.mem_filterMap.mpr ⟨_, hr, by rw [ht]; rfl⟩)⟩
    · exact .inr error

/-- With a frame that no rule knows and a stray character in a block that stays open. -/
def faultyFrames : List Frame :=
  [⟨some 7, ['a'], {}⟩, ⟨some 2, ['\n', ' '], ⟨1, 1, 2⟩⟩, ⟨some 12, ['%'], ⟨3, 2, 2⟩⟩,
    ⟨some 7, ['b'], ⟨4, 2, 3⟩⟩, ⟨some 8, ['?'], ⟨5, 2, 4⟩⟩, ⟨some 1, [','], ⟨6, 2, 5⟩⟩,
    .finish ⟨7, 2, 6⟩]

theorem replies_balanced_of_faulty :
    (∀ f ∈ faultyFrames, f.OpensAscii Rule.documentRules) ∧
      ∃ inner span,
        (∀ k, (Lexer.new Rule.documentRules {} faultyFrames).reply Token.handler () k =
          ((.output (.opening {}) :: inner ++ [.output ⟨.eof, .none, span⟩])[k]?).getD .finished) ∧
        (∀ r ∈ inner, (∃ t, r = .output t ∧ t.kind ≠ .ctx ∧ t.kind ≠ .eof) ∨ ∃ e, r = .error e) ∧
        Token.Balanced (Reply.outputs inner) :=
  have ascii : ∀ f ∈ faultyFrames, f.OpensAscii Rule.documentRules := by decide
  ⟨ascii, replies_balanced Rule.documentRules {} faultyFrames ascii⟩

end Lexer

end ScrapeConfig
