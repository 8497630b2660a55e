import ScrapeConfig.Proofs.Lexer.Tokens

/-!
# Nothing is left over

The rules of documents leave nothing of a text out. Every character stands in a frame, every frame
belongs to a rule, and what is emitted as a keyword or a comma is in the keyword table. So all that
can go wrong is a character that only the last rule takes.

Results:
1. `Rule.Cuts.resolves`: what the keyword table says of a text that a rule cuts off.
2. `Segments.tokens_or_stray`: frames become tokens unless there is a stray character among them.
3. `Document.tokenize_total`: all of this for a document.
-/

namespace ScrapeConfig

open Rule (Cuts documentRules)

/-! ## Frames and their rules -/

namespace Rule

/-- What the keyword table says of a text with which this is done: keywords and commas resolve to
what they are emitted as, and identifiers to nothing but names of layout. -/
def Resolves : Action → List Char → Prop
  | .keyword, text => ∃ k, Keyword.lookup (String.ofList text) = some k ∧ k.isStructural = false
  | .punct, text => ∃ c, Event.leadingPunct text = some c ∧ Keyword.lookup c.toString = some .comma
  | .variable, text => ∀ k, Keyword.lookup (String.ofList text) = some k → k.isStructural
  | _, _ => True

/-- A text that could be a keyword is none of an identifier: the rule of keywords comes first. -/
theorem Cuts.lookup_identifier {text rest : List Char} (h : Cuts 7 text rest) {k : TokenKind}
    (hk : Keyword.lookup (String.ofList text) = some k) : k.isStructural :=
  (Keyword.isKeyword_of_lookup h.denotes hk).resolve_left (h.first 4 (by decide))

theorem Cuts.resolves {i : Nat} {text rest : List Char} (h : Cuts i text rest) :
    ∃ r, documentRules[i]? = some r ∧ Resolves r.action text := by
  match i with
  | 0 | 2 | 3 | 5 | 6 | 8 => exact ⟨_, rfl, trivial⟩
  | 1 =>
    obtain ⟨v, rfl, _⟩ := h.denotes
    exact ⟨_, rfl, ',', rfl, Keyword.lookup_comma⟩
  | 4 =>
    obtain ⟨k, hk, spells⟩ := h.denotes
    exact ⟨_, rfl, k, Keyword.lookup_of_spells hk spells, Keyword.not_isStructural hk⟩
  | 7 => exact ⟨_, rfl, fun k hk => h.lookup_identifier hk⟩
  | n + 9 => exact absurd (denotes_lt h.denotes) (by simp [exprs])

end Rule

/-! ## Tokens -/

/-- The frame holds a character that only the last rule takes. -/
def Frame.IsStray (f : Frame) : Prop := f.pattern = some 8

/-- What a stray character is reported as. -/
def Frame.strayFault (f : Frame) : ParseError :=
  .atSpan (.unexpectedInput (Quoted.encode (String.ofList f.text))) f.span

/-- A frame that is not stray adds to the tokens of the frames behind it. -/
theorem Event.tokens_ofFrames_cons {i : Nat} {text rest : List Char} (cut : Cuts i text rest)
    (hi : i ≠ 8) (p : Position) (t : Tracker) (run : Option (List Char)) (span : Span)
    (fs : List Frame) :
    ∃ t' run' add, tokens (ofFrames documentRules t run span (⟨some i, text, p⟩ :: fs)) =
      (tokens (ofFrames documentRules t' run' (.covering p text) fs)).map add := by
  have map_id : ∀ x : Except ParseError (List Token), x = x.map id := fun x => by cases x <;> rfl
  rcases Rule.exists_means cut.denotes with ⟨kind, payload, meant⟩ | rfl | rfl | rfl | stray
  · exact ⟨_, _, _, tokens_ofFrames_of_emits (meant.emits _)⟩
  · exact ⟨t, run, id, map_id _⟩
  · exact ⟨t, some (run.getD [] ++ text), id, map_id _⟩
  · exact ⟨t, run, id, map_id _⟩
  · exact absurd stray hi

/-- Frames become tokens unless one of them is stray, by induction on how the text is cut. -/
theorem Segments.tokens_or_stray {p : Position} {cs : List Char} {fs : List Frame}
    (h : Segments p cs fs) (t : Tracker) (run : Option (List Char)) (span : Span) :
    ((∃ ts, Event.tokens (Event.ofFrames documentRules t run span fs) = .ok ts) ∧
        ∀ f ∈ fs, ¬ f.IsStray) ∨
      ∃ f ∈ fs, f.IsStray ∧
        Event.tokens (Event.ofFrames documentRules t run span fs) = .error f.strayFault := by
  induction h generalizing t run span with
  | finish => exact .inl ⟨⟨_, Event.tokens_closing ..⟩, List.forall_mem_singleton.mpr nofun⟩
  | @piece p i cs text rest fs _ cut _ ih =>
    by_cases hi : i = 8
    · subst hi
      exact .inr ⟨_, List.mem_cons_self, rfl, Event.tokens_ofFrames_of_stray⟩
    · obtain ⟨t', run', add, onward⟩ := Event.tokens_ofFrames_cons cut hi p t run span fs
      rcases ih t' run' (.covering p text) with ⟨⟨ts, hts⟩, clean⟩ | ⟨f, hf, stray, hts⟩
      · refine .inl ⟨⟨add ts, by rw [onward, hts]; rfl⟩, List.forall_mem_cons.mpr ⟨?_, clean⟩⟩
        exact fun stray => hi (Option.some.inj stray)
      · exact .inr ⟨f, List.mem_cons_of_mem _ hf, stray, by rw [onward, hts]; rfl⟩

/-- An identifier among the tokens of a text is a text that the rule of identifiers cuts off. -/
theorem Tokenizes.cuts_identifier {p : Position} {t : Tracker} {run : Option (List Char)}
    {cs : List Char} {ts : List Token} (h : Tokenizes p t run cs ts) :
    ∀ token ∈ ts, token.kind = .identifier →
      ∃ text rest, token.payload = .text (String.ofList text) ∧ Cuts 7 text rest := by
  have boundaries : ∀ (bs : List Boundary) (span : Span), ∀ token ∈ bs.map (Boundary.token span),
      token.kind ≠ .identifier := fun bs span => by
    rw [List.forall_mem_map]
    rintro (_ | _ | _ | _) _ <;> exact nofun
  induction h with
  | finish =>
    intro token hmem hkind
    rcases List.mem_append.mp hmem with hmem | hmem
    · exact absurd hkind (boundaries _ _ token hmem)
    · obtain rfl := List.mem_singleton.mp hmem
      exact nomatch hkind
  | skip _ _ _ _ ih => exact ih
  | indent _ _ _ ih => exact ih
  | token _ cut meant _ ih =>
    intro token hmem hkind
    rcases List.mem_append.mp hmem with hmem | hmem
    · exact absurd hkind (boundaries _ _ token hmem)
    · rcases List.mem_cons.mp hmem with rfl | hmem
      · cases meant with
        | keyword hk _ =>
          obtain rfl : _ = TokenKind.identifier := hkind
          exact absurd hk (by decide)
        | identifier _ => exact ⟨_, _, rfl, cut⟩
        | _ => exact nomatch hkind
      · exact ih token hmem hkind

/-- The frames of a document hold all of its text, and each of them belongs to a rule whose meaning
the keyword table bears out. The document has tokens if no frame is stray, none of them an
identifier that the table resolves to a keyword; otherwise a stray frame is what is reported. -/
theorem Document.tokenize_total (threaded : Bool) (context : Context) (source : String) :
    ∃ set, Rule.documentPatterns = .ok set ∧
      (frames set threaded source).flatMap (·.text) = source.toList ∧
      (∀ f ∈ frames set threaded source, ∀ i, f.pattern = some i →
        ∃ r, documentRules[i]? = some r ∧ Rule.Resolves r.action f.text) ∧
      (((∃ tokens, tokenize threaded context source = .ok tokens ∧
            ∀ token ∈ tokens, token.kind = .identifier → ∃ text, token.payload = .text text ∧
              ∀ k, Keyword.lookup text = some k → k.isStructural) ∧
          ∀ f ∈ frames set threaded source, ¬ f.IsStray) ∨
        ∃ f ∈ frames set threaded source, f.IsStray ∧
          tokenize threaded context source = .error (.parse f.strayFault) ∧
          f.strayFault.problem.kind = .unexpectedInput) := by
  obtain ⟨set, hset, _⟩ := Rule.documentPatterns_eq_ok
  have segments := segments_frames hset threaded source
  refine ⟨set, hset, segments.flatMap_text, fun f hf i hi => ?_, ?_⟩
  · obtain ⟨rest, cut⟩ := segments.exists_cut hf hi
    exact cut.resolves
  · rcases segments.tokens_or_stray {} none {} with ⟨⟨ts, hts⟩, clean⟩ | ⟨f, hf, stray, hts⟩
    · refine .inl ⟨⟨.opening context :: ts, by rw [tokenize_eq hset, hts]; rfl, ?_⟩, clean⟩
      refine List.forall_mem_cons.mpr ⟨nofun, fun token hmem hkind => ?_⟩
      have cuts := tokenizes_of_events segments hts
      obtain ⟨text, rest, payload, cut⟩ := cuts.cuts_identifier token hmem hkind
      exact ⟨_, payload, fun k hk => cut.lookup_identifier hk⟩
    · exact .inr ⟨f, hf, stray, by rw [tokenize_eq hset, hts]; rfl, rfl⟩

end ScrapeConfig
