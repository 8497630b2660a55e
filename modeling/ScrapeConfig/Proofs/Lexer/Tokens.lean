import ScrapeConfig.Proofs.Lexer.Events
import ScrapeConfig.Proofs.Lexer.Segments
import ScrapeConfig.Proofs.Token.Keyword

/-!
# The tokens of a document

A document is read into tokens text by text: comments and blanks are passed over, the white space
behind line breaks is collected, and any other text puts the block boundaries that this white space
announces in front of its own token.

Results:
1. `Lexer.tokens_eq`: the tokens of a lexer are those of its events.
2. `Tokenizes`: the tokens of a text, without frames and events between them.
3. `Document.tokenize_eq_ok`: these are the tokens of a document, whichever way its frames take.
-/

namespace ScrapeConfig

/-! ## From events to tokens -/

namespace Event

/-- The tokens that events become, unless one of them becomes none. -/
def tokens : List Event → Except ParseError (List Token)
  | [] => .ok []
  | .abort :: _ => .ok []
  | .fault e :: _ => .error e
  | .emit emission span :: rest => do
    let t ← Token.ofEmission emission span
    let ts ← tokens rest
    return t :: ts

theorem tokens_emit {emission : Emission} {span : Span} {t : Token} {rest : List Event}
    (h : Token.ofEmission emission span = .ok t) :
    tokens (.emit emission span :: rest) = (tokens rest).map (t :: ·) := by
  rw [tokens, h]
  cases tokens rest <;> rfl

theorem tokens_emit_error {emission : Emission} {span : Span} {e : ParseError} {rest : List Event}
    (h : Token.ofEmission emission span = .error e) :
    tokens (.emit emission span :: rest) = .error e := by
  rw [tokens, h]
  rfl

end Event

/-- The reply to an event, if tokens are built. -/
def Event.reply : Event → Reply Token
  | .abort => .aborted
  | .fault e => .error e
  | .emit emission span => match Token.ofEmission emission span with
    | .error e => .error e
    | .ok t => .output t

namespace Lexer

/-- If tokens are built, every event is replied to. -/
theorem lex_of_events {l : Lexer} {e : Event} {es : List Event} (h : l.events = e :: es) :
    ∃ l', l.lex Token.handler () = (e.reply, l', ()) ∧ l'.events = es := by
  have fed : feed Token.handler (e :: es) () = (e.reply, es, ()) := by
    cases e with
    | abort => rfl
    | fault e => rfl
    | emit emission span =>
      cases ht : Token.ofEmission emission span <;>
        simp [feed, Token.handler, Event.reply, ht, Except.map]
  obtain ⟨l', asked, further⟩ := l.lex_eq Token.handler ()
  rw [h, fed] at asked further
  exact ⟨l', asked, further⟩

/-- By induction on what the lexer has to say. -/
theorem collect_run (l : Lexer) :
    collect ((l.run Token.handler ()).1.map (·.1)) = Event.tokens l.events := by
  generalize hes : l.events = es
  induction es generalizing l with
  | nil =>
    obtain ⟨l', asked, _⟩ := l.lex_eq Token.handler ()
    rw [hes] at asked
    rw [run, asked]
    rfl
  | cons event es ih =>
    obtain ⟨l', asked, further⟩ := lex_of_events hes
    cases event with
    | abort =>
      rw [run, asked]
      rfl
    | fault e =>
      rw [run, asked]
      rfl
    | emit emission span =>
      cases ht : Token.ofEmission emission span with
      | error e =>
        rw [Event.reply, ht] at asked
        rw [run, asked, Event.tokens_emit_error ht]
        rfl
      | ok t =>
        rw [Event.reply, ht] at asked
        rw [run, asked, Event.tokens_emit ht, ← ih l' further]
        show (do return t :: (← collect _)) = _
        cases collect ((l'.run Token.handler ()).1.map (·.1)) <;> rfl

theorem tokens_eq (l : Lexer) : l.tokens = Event.tokens l.events := collect_run l

end Lexer

/-! ## The token of a text -/

namespace Boundary

def kind : Boundary → TokenKind
  | .blockOpen _ => .blockOpen
  | .sameLevel _ => .sameLevel
  | .blockClose _ => .blockClose
  | .badIndent _ => .badIndent

def token (span : Span) (b : Boundary) : Token := ⟨b.kind, .level b.level, span⟩

theorem ofEmission_eq (b : Boundary) (span : Span) :
    Token.ofEmission (.boundary b.name b.level) span = .ok (b.token span) := by
  obtain ⟨open_, same, close, bad, _⟩ := Keyword.lookup_structural
  cases b <;> simp only [Token.ofEmission, name, open_, same, close, bad] <;> rfl

end Boundary

namespace Token

/-- The token that a document begins with. -/
def opening (context : Context) : Token := ⟨.ctx, .context context, {}⟩

theorem ofEmission_opening (context : Context) :
    ofEmission (.object "CTX" context) {} = .ok (opening context) := by
  rw [ofEmission, if_pos Keyword.lookup_structural.2.2.2.2.1]
  rfl

theorem ofEmission_eof (span : Span) :
    ofEmission (.boundary "EOF" 0) span = .ok ⟨.eof, .none, span⟩ := by
  simp only [ofEmission, Keyword.lookup_structural]
  rfl

end Token

namespace Event

theorem tokens_boundaries (bs : List Boundary) (span : Span) (rest : List Event) :
    tokens (bs.map (boundary span) ++ rest) =
      (tokens rest).map (bs.map (Boundary.token span) ++ ·) := by
  induction bs with
  | nil =>
    rw [List.map_nil, List.nil_append]
    cases tokens rest <;> rfl
  | cons b bs ih =>
    rw [List.map_cons, List.cons_append, boundary, tokens_emit (b.ofEmission_eq span), ih]
    cases tokens rest <;> rfl

theorem tokens_closing (t : Tracker) (span : Span) :
    tokens (closing t span) =
      .ok (t.finish.pending.map (Boundary.token span) ++ [⟨.eof, .none, span⟩]) := by
  rw [closing, tokens_boundaries, Event.eof, tokens_emit (Token.ofEmission_eof span)]
  rfl

end Event

namespace Rule

open Lexical

/-- What the texts of document rules mean that are neither white space nor comments: the kind of
their token and what the token carries. -/
inductive Means : Nat → List Char → TokenKind → Payload → Prop
  | comma {text : List Char} : IsComma text → Means 1 text .comma .none
  | keyword {k : TokenKind} {text : List Char} :
      k ∈ TokenKind.keywords → Spells k.label.toList text → Means 4 text k .none
  | dqString {v : List Char} :
      '"' ∉ v → Means 5 ('"' :: (v ++ ['"'])) .strLiteral (.text (String.ofList v))
  | sqString {v : List Char} :
      '\'' ∉ v → Means 6 ('\'' :: (v ++ ['\''])) .strLiteral (.text (String.ofList v))
  | identifier {text : List Char} :
      IsIdentifier text → Means 7 text .identifier (.text (String.ofList text))

theorem exists_means {i : Nat} {text : List Char} (h : Denotes i text) :
    (∃ kind payload, Means i text kind payload) ∨ i = 0 ∨ i = 2 ∨ i = 3 ∨ i = 8 := by
  match i, h with
  | 0, _ | 2, _ | 3, _ | 8, _ => simp
  | 1, h => exact .inl ⟨_, _, .comma h⟩
  | 4, ⟨_, hk, h⟩ => exact .inl ⟨_, _, .keyword hk h⟩
  | 5, ⟨_, heq, hv⟩ =>
    subst heq
    exact .inl ⟨_, _, .dqString hv⟩
  | 6, ⟨_, heq, hv⟩ =>
    subst heq
    exact .inl ⟨_, _, .sqString hv⟩
  | 7, h => exact .inl ⟨_, _, .identifier h⟩

theorem Means.not_isStructural {i : Nat} {text : List Char} {kind : TokenKind} {payload : Payload}
    (h : Means i text kind payload) : kind.isStructural = false := by
  cases h with
  | keyword hk _ => exact Keyword.not_isStructural hk
  | _ => rfl

/-- What is done with a text that has a meaning: it is emitted, and what is emitted becomes the
token. -/
def Emits (i : Nat) (text : List Char) (span : Span) (token : Token) : Prop :=
  ∃ r emission, documentRules[i]? = some r ∧ r.action ≠ .skip ∧ r.action ≠ .indent ∧
    Event.ofFrame r.action text span = .emit emission span ∧
    Token.ofEmission emission span = .ok token

theorem withoutQuotes_eq {quote : Char} (hq : quote.utf8Size = 1) (v : List Char) :
    Event.withoutQuotes (quote :: (v ++ [quote])) = v := by
  rw [Event.withoutQuotes, if_pos ⟨hq, by simp [hq]⟩, List.dropLast_concat]

theorem Means.emits {i : Nat} {text : List Char} {kind : TokenKind} {payload : Payload}
    (h : Means i text kind payload) (span : Span) : Emits i text span ⟨kind, payload, span⟩ := by
  cases h with
  | comma h =>
    obtain ⟨v, rfl, _⟩ := h
    refine ⟨_, .text .punct ",", rfl, by decide, by decide, rfl, ?_⟩
    rw [Token.ofEmission, Keyword.lookup_comma]
    · rfl
    · exact nofun
    · exact nofun
  | keyword hk h =>
    refine ⟨_, .text .keyword (String.ofList text), rfl, by decide, by decide, rfl, ?_⟩
    rw [Token.ofEmission, Keyword.lookup_of_spells hk h]
    · simp only [Keyword.not_isStructural hk]
      rfl
    · exact nofun
    · exact nofun
  | @dqString v h =>
    refine ⟨_, .text .literal (String.ofList v), rfl, by decide, by decide, ?_, rfl⟩
    simp only [Event.ofFrame, withoutQuotes_eq (by decide : '"'.utf8Size = 1)]
  | @sqString v h =>
    refine ⟨_, .text .literal (String.ofList v), rfl, by decide, by decide, ?_, rfl⟩
    simp only [Event.ofFrame, withoutQuotes_eq (by decide : '\''.utf8Size = 1)]
  | identifier h =>
    exact ⟨_, .text .variable (String.ofList text), rfl, by decide, by decide, rfl, rfl⟩

/-- What is emitted becomes one token. -/
theorem Means.unique {i : Nat} {text : List Char} {kind kind' : TokenKind} {payload payload' : Payload}
    (h : Means i text kind payload) (h' : Means i text kind' payload') :
    kind = kind' ∧ payload = payload' := by
  obtain ⟨r, emission, hr, _, _, hframe, htoken⟩ := h.emits {}
  obtain ⟨r', emission', hr', _, _, hframe', htoken'⟩ := h'.emits {}
  obtain rfl := Option.some.inj (hr.symm.trans hr')
  obtain ⟨rfl, _⟩ := Event.emit.inj (hframe.symm.trans hframe')
  obtain ⟨hkind, hpayload, _⟩ := Token.mk.inj (Except.ok.inj (htoken.symm.trans htoken'))
  exact ⟨hkind, hpayload⟩

end Rule

/-! ## The tokens of a text -/

open Rule (Cuts)

/-- The tokens of a text that begins at a position, with the white space that was collected in front
of it. -/
inductive Tokenizes : Position → Tracker → Option (List Char) → List Char → List Token → Prop
  | finish {p : Position} {t : Tracker} {run : Option (List Char)} :
      Tokenizes p t run [] (t.finish.pending.map (Boundary.token (.covering p [])) ++
        [⟨.eof, .none, .covering p []⟩])
  | skip {p : Position} {t : Tracker} {run : Option (List Char)} {i : Nat}
      {cs text rest : List Char} {ts : List Token} :
      cs = text ++ rest → Cuts i text rest → i = 0 ∨ i = 3 →
      Tokenizes (p.past text) t run rest ts → Tokenizes p t run cs ts
  | indent {p : Position} {t : Tracker} {run : Option (List Char)} {cs text rest : List Char}
      {ts : List Token} :
      cs = text ++ rest → Cuts 2 text rest →
      Tokenizes (p.past text) t (some (run.getD [] ++ text)) rest ts → Tokenizes p t run cs ts
  | token {p : Position} {t : Tracker} {run : Option (List Char)} {i : Nat}
      {cs text rest : List Char} {ts : List Token} {kind : TokenKind} {payload : Payload} :
      cs = text ++ rest → Cuts i text rest → Rule.Means i text kind payload →
      Tokenizes (p.past text) (t.across run).settled none rest ts →
      Tokenizes p t run cs ((t.across run).pending.map (Boundary.token (.covering p text)) ++
        ⟨kind, payload, .covering p text⟩ :: ts)

namespace Event

open Rule (documentRules)

theorem tokens_ofFrames_of_emits {t : Tracker} {run : Option (List Char)} {span : Span} {i : Nat}
    {text : List Char} {p : Position} {fs : List Frame} {token : Token}
    (h : Rule.Emits i text (.covering p text) token) :
    tokens (ofFrames documentRules t run span (⟨some i, text, p⟩ :: fs)) =
      (tokens (ofFrames documentRules (t.across run).settled none (.covering p text) fs)).map
        ((t.across run).pending.map (Boundary.token (.covering p text)) ++ token :: ·) := by
  obtain ⟨r, emission, hr, skip, indent, hframe, htoken⟩ := h
  have goesOn : ofFrame r.action text (.covering p text) ≠ .abort := by
    rw [hframe]
    exact nofun
  rw [(Adds.token rfl hr skip indent goesOn).ofFrames_eq, List.append_assoc, tokens_boundaries,
    Frame.span, hframe, List.singleton_append, tokens_emit htoken]
  cases tokens _ <;> rfl

/-- A stray character is a fault, whatever boundaries stand in front of it. -/
theorem tokens_ofFrames_of_stray {t : Tracker} {run : Option (List Char)} {span : Span}
    {text : List Char} {p : Position} {fs : List Frame} :
    tokens (ofFrames documentRules t run span (⟨some 8, text, p⟩ :: fs)) = .error (.atSpan
      (.unexpectedInput (Quoted.encode (String.ofList text))) (.covering p text)) := by
  have unexpected : documentRules[8]? =
      some { name := "unexpected", source := ".", action := .unexpected } := rfl
  rw [ofFrames_of_token rfl unexpected (by decide) (by decide), tokens_boundaries]
  rfl

end Event

/-! ## The tokens of a document -/

open Rule (documentRules)

theorem tokenizes_of_events {p : Position} {cs : List Char} {fs : List Frame}
    (h : Segments p cs fs) {t : Tracker} {run : Option (List Char)} {span : Span} {ts : List Token}
    (hts : Event.tokens (Event.ofFrames documentRules t run span fs) = .ok ts) :
    Tokenizes p t run cs ts := by
  induction h generalizing t run span ts with
  | @finish p =>
    have hts : Event.tokens (Event.closing t (.covering p [])) = .ok ts := hts
    rw [Event.tokens_closing] at hts
    obtain rfl := Except.ok.inj hts
    exact .finish
  | @piece p i cs text rest fs heq cut _ ih =>
    rcases Rule.exists_means cut.denotes with ⟨kind, payload, meant⟩ | rfl | rfl | rfl | rfl
    · rw [Event.tokens_ofFrames_of_emits (meant.emits _)] at hts
      cases behind : Event.tokens (Event.ofFrames documentRules (t.across run).settled none
          (.covering p text) fs) with
      | error e => simp [behind, Except.map] at hts
      | ok ts' =>
        rw [behind] at hts
        obtain rfl := Except.ok.inj hts
        exact .token heq cut meant (ih behind)
    · exact .skip heq cut (.inl rfl) (ih hts)
    · exact .indent heq cut (ih hts)
    · exact .skip heq cut (.inr rfl) (ih hts)
    · rw [Event.tokens_ofFrames_of_stray] at hts
      exact nomatch hts

theorem events_of_tokenizes {p : Position} {t : Tracker} {run : Option (List Char)}
    {cs : List Char} {ts : List Token} (h : Tokenizes p t run cs ts) :
    ∃ fs, Segments p cs fs ∧
      ∀ span, Event.tokens (Event.ofFrames documentRules t run span fs) = .ok ts := by
  induction h with
  | finish => exact ⟨_, .finish, fun span => Event.tokens_closing ..⟩
  | skip heq cut hi _ ih =>
    obtain ⟨fs, segments, hfs⟩ := ih
    refine ⟨_, .piece heq cut segments, fun span => ?_⟩
    rcases hi with rfl | rfl <;> exact hfs _
  | indent heq cut _ ih =>
    obtain ⟨fs, segments, hfs⟩ := ih
    exact ⟨_, .piece heq cut segments, fun span => hfs _⟩
  | token heq cut meant _ ih =>
    obtain ⟨fs, segments, hfs⟩ := ih
    refine ⟨_, .piece heq cut segments, fun span => ?_⟩
    rw [Event.tokens_ofFrames_of_emits (meant.emits _), hfs]
    rfl

/-- A text has its tokens only. -/
theorem Tokenizes.unique {p : Position} {t : Tracker} {run : Option (List Char)} {cs : List Char}
    {ts ts' : List Token} (h : Tokenizes p t run cs ts) (h' : Tokenizes p t run cs ts') :
    ts = ts' := by
  obtain ⟨fs, segments, hfs⟩ := events_of_tokenizes h
  obtain ⟨fs', segments', hfs'⟩ := events_of_tokenizes h'
  obtain rfl := segments.unique segments'
  exact Except.ok.inj ((hfs {}).symm.trans (hfs' {}))

namespace Document

/-- The tokens of a document are those of the events of its frames, behind the opening one. -/
theorem tokenize_eq {set : PatternSet} (hset : Rule.documentPatterns = .ok set) (threaded : Bool)
    (context : Context) (source : String) :
    tokenize threaded context source =
      ((Event.tokens (Event.ofFrames documentRules {} none {} (frames set threaded source))).map
        (.opening context :: ·)).mapError .parse := by
  rw [← Event.tokens_emit (Token.ofEmission_opening context), tokenize, lexer, hset]
  show (Lexer.tokens _).mapError _ = _
  rw [Lexer.tokens_eq]
  rfl

/-- The tokens of a document, by way of another thread or not. -/
theorem tokenize_eq_ok {threaded : Bool} {context : Context} {source : String}
    {tokens : List Token} :
    tokenize threaded context source = .ok tokens ↔
      ∃ ts, tokens = .opening context :: ts ∧ Tokenizes {} {} none source.toList ts := by
  obtain ⟨set, hset, _⟩ := Rule.documentPatterns_eq_ok
  have segments := segments_frames hset threaded source
  rw [tokenize_eq hset]
  constructor
  · intro h
    cases hts : Event.tokens (Event.ofFrames documentRules {} none {} (frames set threaded source)) with
    | error e => simp [hts, Except.map, Except.mapError] at h
    | ok ts =>
      rw [hts] at h
      obtain rfl := Except.ok.inj h
      exact ⟨ts, rfl, tokenizes_of_events segments hts⟩
  · rintro ⟨ts, rfl, h⟩
    obtain ⟨fs, segments', hfs⟩ := events_of_tokenizes h
    obtain rfl := segments.unique segments'
    rw [hfs]
    rfl

end Document

end ScrapeConfig
