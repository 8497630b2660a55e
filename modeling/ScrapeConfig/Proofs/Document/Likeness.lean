import ScrapeConfig.Proofs.Document.Progress
import ScrapeConfig.Proofs.Document.Resemblance

/-!
# What the grammar does not see

Where tokens stand, how far lines are indented and how names are quoted makes no difference to what
is read of them: two streams that differ in nothing else are read as the same tree, or the same kind
of error is reported, at tokens that have the same place in the two streams.

Results:
1. `Token.Like`: tokens that differ in nothing that the grammar sees.
2. `Pairing.places`: such tokens at the same place of two streams.
3. `Document.ofTokens_like`: how two streams of such tokens are read.
-/

namespace ScrapeConfig

/-- Tokens that the grammar does not tell apart. -/
inductive Token.Like : Token → Token → Prop
  | moved {kind : TokenKind} {payload : Payload} (span span' : Span) :
      Like ⟨kind, payload, span⟩ ⟨kind, payload, span'⟩
  /-- Tokens of the layout on other levels. -/
  | leveled {kind : TokenKind} (n n' : Nat) (span span' : Span) : kind.isStructural →
      Like ⟨kind, .level n, span⟩ ⟨kind, .level n', span'⟩
  /-- The same name, as a literal or as an identifier. -/
  | quoted {kind kind' : TokenKind} (text : String) (span span' : Span) : kind.IsName →
      kind'.IsName → Like ⟨kind, .text text, span⟩ ⟨kind', .text text, span'⟩

namespace Token.Like

variable {t t' : Token}

theorem word_eq (h : t.Like t') : t.word = t'.word := by
  cases h with
  | moved => rfl
  | leveled => rfl
  | quoted text span span' name name' => rw [word, word, if_pos name, if_pos name']; rfl

theorem context_eq (h : t.Like t') : t.context = t'.context := by
  cases h <;> rfl

end Token.Like

/-- Like tokens at the same place of two streams go together. -/
def Pairing.places (tokens tokens' : List Token) : Pairing where
  pairs t t' := t.Like t' ∧ ∃ i : Nat, tokens[i]? = some t ∧ tokens'[i]? = some t'
  word_eq h := h.1.word_eq
  context_eq h _ := h.1.context_eq

variable {tokens tokens' : List Token}

theorem Pairing.forall₂_places (h : List.Forall₂ Token.Like tokens tokens') :
    List.Forall₂ (places tokens tokens').pairs tokens tokens' := by
  obtain ⟨length, like⟩ := List.forall₂_iff_get.mp h
  refine List.forall₂_iff_get.mpr ⟨length, fun i hi hi' => ⟨like i hi hi', i, ?_, ?_⟩⟩
  · exact List.getElem?_eq_getElem hi
  · exact List.getElem?_eq_getElem hi'

namespace Document

/-- The same tree, or errors of the same kind at tokens that have the same place. -/
inductive ReadLike (tokens tokens' : List Token) :
    Except ReadFault Configuration → Except ReadFault Configuration → Prop
  | tree (c : Configuration) : ReadLike tokens tokens' (.ok c) (.ok c)
  | problem {p p' : Problem} {t t' : Token} (i : Nat) :
      tokens[i]? = some t → tokens'[i]? = some t' → p.kind = p'.kind →
      ReadLike tokens tokens' (.error (.error (.atSpan p t.span)))
        (.error (.error (.atSpan p' t'.span)))

theorem ReadLike.of_alike {f f' : ReadFault} (h : f.Alike (.places tokens tokens') f')
    (ends : f ≠ .endless) : ReadLike tokens tokens' (.error f) (.error f') := by
  cases h with
  | endless => exact absurd rfl ends
  | unexpected expected pair =>
    obtain ⟨_, i, hi, hi'⟩ := pair
    exact .problem i hi hi' rfl
  | problem p spans =>
    obtain ⟨t, t', ⟨_, i, hi, hi'⟩, rfl, rfl⟩ := spans
    exact .problem i hi hi' rfl

/-- Two streams of like tokens in which the end of input stands are read as the same tree, or errors
of the same kind are reported at tokens that have the same place. -/
theorem ofTokens_like (h : List.Forall₂ Token.Like tokens tokens')
    (eof : ∃ t ∈ tokens, t.kind = .eof) :
    ReadLike tokens tokens' (ofTokens tokens) (ofTokens tokens') := by
  have halts : Halts (fun _ => True) (ofTokens tokens) := ofTokens_halts fun _ => eof
  obtain ⟨t, ht, _⟩ := eof
  have ends := ofTokens_alike (Pairing.forall₂_places h) (List.ne_nil_of_mem ht)
  generalize ofTokens tokens = x, ofTokens tokens' = x' at halts ends ⊢
  cases ends with
  | @ok c c' same =>
    obtain rfl := same
    exact .tree c
  | error alike => exact .of_alike alike fun endless => halts.ne_endless (congrArg _ endless)

/-- The tokens of a service with a setting, with the names in the kind given, the block on the level
given, and all of them at the place given. -/
def settingTokens (names : TokenKind) (level : Nat) (span : Span) : List Token :=
  [⟨.ctx, .context {}, span⟩, ⟨.forService, .none, span⟩, ⟨names, .text "a", span⟩,
    ⟨.blockOpen, .level level, span⟩, ⟨.set, .none, span⟩, ⟨names, .text "mode", span⟩,
    ⟨.to, .none, span⟩, ⟨names, .text "push", span⟩, ⟨.blockClose, .level level, span⟩,
    ⟨.eof, .none, span⟩]

theorem ofTokens_like_setting :
    List.Forall₂ Token.Like (settingTokens .identifier 2 {})
        (settingTokens .strLiteral 8 ⟨5, 9, 2, 4⟩) ∧
      (∃ t ∈ settingTokens .identifier 2 {}, t.kind = .eof) ∧
      ReadLike (settingTokens .identifier 2 {}) (settingTokens .strLiteral 8 ⟨5, 9, 2, 4⟩)
        (ofTokens (settingTokens .identifier 2 {}))
        (ofTokens (settingTokens .strLiteral 8 ⟨5, 9, 2, 4⟩)) := by
  have name (text : String) (span span' : Span) : Token.Like ⟨.identifier, .text text, span⟩
      ⟨.strLiteral, .text text, span'⟩ := .quoted text span span' (.inr rfl) (.inl rfl)
  have like : List.Forall₂ Token.Like (settingTokens .identifier 2 {})
      (settingTokens .strLiteral 8 ⟨5, 9, 2, 4⟩) :=
    .cons (.moved _ _) <| .cons (.moved _ _) <| .cons (name ..) <|
      .cons (.leveled _ _ _ _ (by decide)) <| .cons (.moved _ _) <| .cons (name ..) <|
      .cons (.moved _ _) <| .cons (name ..) <| .cons (.leveled _ _ _ _ (by decide)) <|
      .cons (.moved _ _) .nil
  have eof : ∃ t ∈ settingTokens .identifier 2 {}, t.kind = .eof :=
    ⟨⟨.eof, .none, {}⟩, by simp [settingTokens], rfl⟩
  exact ⟨like, eof, ofTokens_like like eof⟩

end Document

end ScrapeConfig
