import ScrapeConfig.Proofs.Lexer.Totality
import ScrapeConfig.Proofs.Lexer.Transcripts
import ScrapeConfig.Proofs.Text.Quoted

/-!
# Transcripts can be read back

The line of a token says everything about it but its context and where it stands in bytes, and is a
single line, since a quoted text has no line breaks. So the lines of a transcript can be told apart,
and the tokens can be read off them.

Results:
1. `Token.LooksLike`: tokens that have the same line.
2. `Token.looksLike_of_display`: what a token is displayed as.
3. `Transcript.forall₂_looksLike`: the lines of several tokens.
4. `Document.transcript_legible`: the transcript of a document.
-/

namespace ScrapeConfig

namespace Token

def level? (t : Token) : Option Nat :=
  match t.payload with
  | .level n => some n
  | _ => none

/-- Tokens of the same kind, level and text in the same line and column. -/
structure LooksLike (t t' : Token) : Prop where
  kind : t.kind = t'.kind
  level : t.level? = t'.level?
  text : t.text? = t'.text?
  line : t.span.line = t'.span.line
  column : t.span.column = t'.span.column

end Token

/-! ## Labels -/

namespace TokenKind

theorem mem_all (k : TokenKind) : k ∈ all := by
  cases k <;> decide

theorem label_inj {k k' : TokenKind} (h : k.label = k'.label) : k = k' := by
  have labels : (all.map label).Nodup := by decide +kernel
  exact List.inj_on_of_nodup_map labels k.mem_all k'.mem_all h

theorem notMem_label (k : TokenKind) : '(' ∉ k.label.toList ∧ '\n' ∉ k.label.toList := by
  cases k <;> decide

end TokenKind

namespace Token

/-! ## What tokens are displayed as -/

theorem notMem_digits {c : Char} (h : c.isDigit = false) (n : Nat) : c ∉ Nat.toDigits 10 n :=
  fun hmem => Bool.false_ne_true
    (h.symm.trans (Nat.isDigit_of_mem_toDigits (by decide) (le_refl _) hmem))

/-- What is displayed behind the label of a token. -/
def displayBehind : Payload → List Char
  | .none => []
  | .context _ => []
  | .level n => '(' :: (Nat.toDigits 10 n ++ [')'])
  | .text s => '(' :: (Quoted.encodeChars s.toList ++ [')'])

theorem toList_display (t : Token) :
    t.display.toList = t.kind.label.toList ++ displayBehind t.payload := by
  rw [display_eq, String.toList_append]
  cases t.payload <;> simp [details, displayBehind, Quoted.encode]

theorem newline_notMem_display (t : Token) : '\n' ∉ t.display.toList := by
  rw [toList_display, List.mem_append, not_or]
  refine ⟨t.kind.notMem_label.2, ?_⟩
  cases t.payload with
  | none => exact List.not_mem_nil
  | context => exact List.not_mem_nil
  | level n => simp [displayBehind, notMem_digits (c := '\n') (by decide)]
  | text s => simp [displayBehind, Quoted.newline_notMem_encodeChars]

/-- A quoted text is no number. -/
theorem digits_ne_encodeChars (n : Nat) (cs xs ys : List Char) :
    Nat.toDigits 10 n ++ xs ≠ Quoted.encodeChars cs ++ ys := by
  intro h
  have quote : '"' ∉ Nat.toDigits 10 n := notMem_digits (by decide) n
  cases digits : Nat.toDigits 10 n with
  | nil => exact Nat.toDigits_ne_nil digits
  | cons d ds =>
    rw [digits] at h quote
    exact quote ((List.cons.inj h).1 ▸ List.mem_cons_self)

theorem displayBehind_inj {p p' : Payload} (h : displayBehind p = displayBehind p') (k k' : TokenKind)
    (span span' : Span) : level? ⟨k, p, span⟩ = level? ⟨k', p', span'⟩ ∧
      text? ⟨k, p, span⟩ = text? ⟨k', p', span'⟩ := by
  cases p with
  | none | context _ =>
    cases p' with
    | none | context _ => exact ⟨rfl, rfl⟩
    | level _ | text _ => cases h
  | level n =>
    cases p' with
    | none | context _ => cases h
    | level n' =>
      have digits := List.append_cancel_right (List.cons.inj h).2
      obtain rfl := Quoted.toDigits_inj (by decide) (by decide) digits
      exact ⟨rfl, rfl⟩
    | text s => exact (digits_ne_encodeChars _ _ _ _ (List.cons.inj h).2).elim
  | text s =>
    cases p' with
    | none | context _ => cases h
    | level n => exact (digits_ne_encodeChars _ _ _ _ (List.cons.inj h).2.symm).elim
    | text s' =>
      have quoted := Quoted.encodeChars_inj (List.append_cancel_right (List.cons.inj h).2)
      obtain rfl := String.toList_inj.mp quoted
      exact ⟨rfl, rfl⟩

/-- The label ends where the bracket opens, if there is one. -/
theorem looksLike_of_display {t t' : Token} (h : t.display = t'.display) :
    t.kind = t'.kind ∧ t.level? = t'.level? ∧ t.text? = t'.text? := by
  have bracket (p : Payload) : ∃ more, displayBehind p ++ ['('] = '(' :: more := by
    cases p <;> exact ⟨_, rfl⟩
  have chars := congrArg String.toList h
  rw [toList_display, toList_display] at chars
  -- A bracket is put behind both, for the tokens of which only the label is displayed.
  obtain ⟨more, opens⟩ := bracket t.payload
  obtain ⟨more', opens'⟩ := bracket t'.payload
  have further := congrArg (· ++ ['(']) chars
  simp only [List.append_assoc, opens, opens'] at further
  obtain ⟨labels, -⟩ :=
    Quoted.append_cons_inj t.kind.notMem_label.1 t'.kind.notMem_label.1 further
  rw [labels] at chars
  exact ⟨TokenKind.label_inj (String.toList_inj.mp labels),
    displayBehind_inj (List.append_cancel_left chars) ..⟩

theorem LooksLike.display_eq {t t' : Token} (h : t.LooksLike t') : t.display = t'.display := by
  obtain ⟨kind, level, text, -, -⟩ := h
  rw [display, display, kind]
  cases hp : t.payload <;> cases hp' : t'.payload <;> simp_all [level?, text?]

end Token

/-! ## Lines -/

namespace Transcript

/-- The line of a token without its end. -/
def tokenText (t : Token) : String := s!"{t.span.line}:{t.span.column}\t{t.display}"

theorem tokenLine_eq (t : Token) : tokenLine t = tokenText t ++ "\n" := rfl

theorem toList_tokenText (t : Token) : (tokenText t).toList = Nat.toDigits 10 t.span.line ++
    ':' :: (Nat.toDigits 10 t.span.column ++ '\t' :: t.display.toList) := by
  show (toString t.span.line ++ ":" ++ toString t.span.column ++ "\t" ++ t.display).toList = _
  simp

theorem newline_notMem_tokenText (t : Token) : '\n' ∉ (tokenText t).toList := by
  rw [toList_tokenText]
  simp [Token.notMem_digits (c := '\n') (by decide), t.newline_notMem_display]

theorem looksLike_of_tokenText {t t' : Token} (h : tokenText t = tokenText t') : t.LooksLike t' := by
  have colon := Token.notMem_digits (c := ':') (by decide)
  have tab := Token.notMem_digits (c := '\t') (by decide)
  have chars := congrArg String.toList h
  rw [toList_tokenText, toList_tokenText] at chars
  obtain ⟨lines, chars⟩ := Quoted.append_cons_inj (colon _) (colon _) chars
  obtain ⟨columns, displays⟩ := Quoted.append_cons_inj (tab _) (tab _) chars
  obtain ⟨kind, level, text⟩ := Token.looksLike_of_display (String.toList_inj.mp displays)
  exact ⟨kind, level, text, Quoted.toDigits_inj (by decide) (by decide) lines,
    Quoted.toDigits_inj (by decide) (by decide) columns⟩

theorem tokenLine_of_looksLike {t t' : Token} (h : t.LooksLike t') : tokenLine t = tokenLine t' := by
  rw [tokenLine, tokenLine, h.line, h.column, h.display_eq]

/-- The tokens that some lines are for, by induction on the tokens: a line ends with the first line
break. -/
theorem forall₂_looksLike {ts ts' : List Token}
    (h : String.join (ts.map tokenLine) = String.join (ts'.map tokenLine)) :
    List.Forall₂ Token.LooksLike ts ts' := by
  have toList_line (t : Token) (text : String) :
      (tokenLine t ++ text).toList = (tokenText t).toList ++ '\n' :: text.toList := by
    rw [tokenLine_eq, String.toList_append, String.toList_append, List.append_assoc]
    rfl
  induction ts generalizing ts' with
  | nil =>
    cases ts' with
    | nil => exact .nil
    | cons t' ts' =>
      -- No line is empty.
      have chars := congrArg String.toList h
      rw [List.map_cons, String.join_cons, toList_line] at chars
      simp at chars
  | cons t ts ih =>
    rw [List.map_cons, String.join_cons] at h
    cases ts' with
    | nil =>
      have chars := congrArg String.toList h
      rw [toList_line] at chars
      simp at chars
    | cons t' ts' =>
      rw [List.map_cons, String.join_cons] at h
      have chars := congrArg String.toList h
      rw [toList_line, toList_line] at chars
      obtain ⟨line, lines⟩ := Quoted.append_cons_inj (newline_notMem_tokenText t)
        (newline_notMem_tokenText t') chars
      exact .cons (looksLike_of_tokenText (String.toList_inj.mp line))
        (ih (String.toList_inj.mp lines))

theorem join_of_looksLike {ts ts' : List Token} (h : List.Forall₂ Token.LooksLike ts ts') :
    String.join (ts.map tokenLine) = String.join (ts'.map tokenLine) := by
  induction h with
  | nil => rfl
  | cons like _ ih =>
    rw [List.map_cons, List.map_cons, String.join_cons, String.join_cons,
      tokenLine_of_looksLike like, ih]

end Transcript

/-! ## Documents -/

/-- If tokens are built, the replies to events without a fault are the tokens. -/
theorem Event.map_reply_of_tokens {es : List Event} {ts : List Token} (goesOn : .abort ∉ es)
    (h : Event.tokens es = .ok ts) : es.map Event.reply = ts.map .output := by
  induction es generalizing ts with
  | nil =>
    obtain rfl := Except.ok.inj h
    rfl
  | cons e es ih =>
    rw [List.mem_cons, not_or] at goesOn
    cases e with
    | abort => exact absurd rfl goesOn.1
    | fault e => cases h
    | emit emission span =>
      cases made : Token.ofEmission emission span with
      | error e =>
        rw [Event.tokens_emit_error made] at h
        cases h
      | ok t =>
        rw [Event.tokens_emit made] at h
        cases behind : Event.tokens es with
        | error e =>
          rw [behind] at h
          cases h
        | ok ts' =>
          rw [behind] at h
          obtain rfl := Except.ok.inj h
          rw [List.map_cons, List.map_cons, ih goesOn.2 behind, Event.reply, made]

namespace Document

variable {threaded threaded' : Bool} {context context' : Context} {source source' : String}
  {tokens tokens' : List Token} {l : Lexer}

/-- The text of the transcript of a document, to its end. -/
def transcript (threaded : Bool) (context : Context) (source : String) :
    Except PatternError (Option String) := do
  let l ← lexer threaded context source
  return (l.run Transcript.handler {}).2.1.text?

/-- A lexer of a document never aborts, and the end of the document is the last that it tells. -/
theorem exists_lexer (threaded : Bool) (context : Context) (source : String) :
    ∃ l, lexer threaded context source = .ok l ∧ (∀ e ∈ l.events, e.Plain) ∧
      Transcript.EndsInToken (l.events.map Event.reply) := by
  obtain ⟨set, hset, _⟩ := Rule.documentPatterns_eq_ok
  obtain ⟨es, span, behind, framed⟩ := (segments_frames hset threaded source).plain {} none {}
  have events := Lexer.events_new Rule.documentRules context (frames set threaded source)
  rw [behind] at events
  refine ⟨.new Rule.documentRules context (frames set threaded source), by rw [lexer, hset]; rfl,
    ?_, ?_⟩
  · rw [events]
    refine List.forall_mem_cons.mpr ⟨⟨_, Token.ofEmission_opening context⟩, ?_⟩
    exact List.forall_mem_append.mpr
      ⟨framed, List.forall_mem_singleton.mpr ⟨_, Token.ofEmission_eof span⟩⟩
  · rw [events, List.map_cons, List.map_append, ← List.cons_append]
    refine (Transcript.endsInToken_concat _ _).mpr ?_
    rw [Event.eof, Event.reply, Token.ofEmission_eof]
    rfl

/-- There is always room for a transcript that is kept whole. -/
theorem transcript_eq (h : lexer threaded context source = .ok l)
    (plain : ∀ e ∈ l.events, e.Plain)
    (token : Transcript.EndsInToken (l.events.map Event.reply)) :
    transcript threaded context source =
      .ok (some (String.join ((l.events.map Event.reply).map Transcript.line))) := by
  -- A failure would be for want of room.
  have tells := Transcript.tells_foldl none (l.events.map Event.reply)
  rw [← (Lexer.run_transcript plain _).2] at tells
  have unfailed : ¬ (l.run Transcript.handler { sink := { room := none } }).2.1.failed = true :=
    fun failed => by
      obtain ⟨_, _, _, exceeds⟩ := tells.failed.mp failed
      exact exceeds nofun
  have text := tells.text?_eq token
  rw [if_neg unfailed] at text
  rw [transcript, h]
  exact congrArg Except.ok text

theorem map_reply_of_tokenize (h : tokenize threaded context source = .ok tokens)
    (lexed : lexer threaded context source = .ok l) (plain : ∀ e ∈ l.events, e.Plain) :
    l.events.map Event.reply = tokens.map .output := by
  have built : l.tokens.mapError LoadError.parse = .ok tokens := by
    rw [tokenize, lexed] at h
    exact h
  rw [Lexer.tokens_eq] at built
  cases read : Event.tokens l.events with
  | error e =>
    rw [read] at built
    cases built
  | ok ts =>
    rw [read] at built
    obtain rfl := Except.ok.inj built
    exact Event.map_reply_of_tokens (fun abort => plain .abort abort) read

/-- The transcript of a document without faults. -/
theorem transcript_of_tokenize (h : tokenize threaded context source = .ok tokens) :
    transcript threaded context source =
      .ok (some (String.join (tokens.map Transcript.tokenLine))) := by
  obtain ⟨l, lexed, plain, token⟩ := exists_lexer threaded context source
  rw [transcript_eq lexed plain token, map_reply_of_tokenize h lexed plain, List.map_map,
    show Transcript.tokenLine = Transcript.line ∘ .output from funext Transcript.line_output]

/-- A transcript has a line for everything that the lexer of the document replies, one behind the
other, and there is no line break in what is written of a token. Two documents without faults have
the same transcript if and only if their tokens have the same kinds, levels, texts, lines and columns
all along. -/
theorem transcript_legible :
    (∀ threaded context source, ∃ l, lexer threaded context source = .ok l ∧
      transcript threaded context source =
        .ok (some (String.join (l.replies.map Transcript.line))) ∧
      ∀ r ∈ l.replies, ∃ text, Transcript.line r = text ++ "\n" ∧
        ∀ t, r = .output t → '\n' ∉ text.toList) ∧
    ∀ {threaded threaded' context context' source source' tokens tokens'},
      tokenize threaded context source = .ok tokens →
      tokenize threaded' context' source' = .ok tokens' →
        (transcript threaded context source = transcript threaded' context' source' ↔
          List.Forall₂ Token.LooksLike tokens tokens') := by
  constructor
  · intro threaded context source
    obtain ⟨l, lexed, plain, token⟩ := exists_lexer threaded context source
    have goesOn : .abort ∉ l.events := fun abort => plain .abort abort
    refine ⟨l, lexed, ?_, ?_⟩
    · rw [transcript_eq lexed plain token, Lexer.replies_eq goesOn]
    · rw [Lexer.replies_eq goesOn, List.forall_mem_map]
      intro e he
      rcases e.reply_eq_output_or_error (fun abort => goesOn (abort ▸ he)) with ⟨t, ht⟩ | ⟨error, he⟩
      · rw [ht]
        refine ⟨Transcript.tokenText t, (Transcript.line_output t).symm, fun t' same => ?_⟩
        obtain rfl := Reply.output.inj same
        exact Transcript.newline_notMem_tokenText t
      · rw [he]
        exact ⟨s!"{error.line}:{error.column}\tERROR {error.problem.message}", rfl, nofun⟩
  · intro threaded threaded' context context' source source' tokens tokens' h h'
    rw [transcript_of_tokenize h, transcript_of_tokenize h']
    exact ⟨fun same => Transcript.forall₂_looksLike (Option.some.inj (Except.ok.inj same)),
      fun like => by rw [Transcript.join_of_looksLike like]⟩

/-- The same literal between other quotes, and another context. -/
theorem transcript_legible_quotes :
    ∃ tokens tokens', tokenize false {} "\"a\"" = .ok tokens ∧
      tokenize true { auth := some ⟨"basic", .empty⟩ } "'a'" = .ok tokens' ∧
        transcript false {} "\"a\"" = transcript true { auth := some ⟨"basic", .empty⟩ } "'a'" := by
  have cut : Tokenizes {} {} none "\"a\"".toList _ :=
    .token (List.append_nil _).symm (Rule.cuts_dqString.mpr ⟨['a'], rfl, by decide⟩)
      (.dqString (v := ['a']) (by decide)) .finish
  have cut' : Tokenizes {} {} none "'a'".toList _ :=
    .token (List.append_nil _).symm (Rule.cuts_sqString.mpr ⟨['a'], rfl, by decide⟩)
      (.sqString (v := ['a']) (by decide)) .finish
  have h : tokenize false {} "\"a\"" = .ok _ := tokenize_eq_ok.mpr ⟨_, rfl, cut⟩
  have h' : tokenize true { auth := some ⟨"basic", .empty⟩ } "'a'" = .ok _ :=
    tokenize_eq_ok.mpr ⟨_, rfl, cut'⟩
  refine ⟨_, _, h, h', (transcript_legible.2 h h').mpr ?_⟩
  exact .cons ⟨rfl, rfl, rfl, rfl, rfl⟩
    (.cons ⟨rfl, rfl, rfl, rfl, rfl⟩ (.cons ⟨rfl, rfl, rfl, rfl, rfl⟩ .nil))

end Document

end ScrapeConfig
