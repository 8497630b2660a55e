import ScrapeConfig.Proofs.Document.Predictive

/-!
# Predictive readers of tokens and blocks

Results:
1. `Stream.expect_predictive`, `Stream.expectText_predictive`, `Stream.expectTexts_predictive`:
   readers of tokens and names.
2. `Stream.PredictiveLines`: readers of lines. `Stream.block_predictive`,
   `Stream.optionalBlock_predictive`: readers of blocks of such lines.
-/

namespace ScrapeConfig

open Syntax

variable {α β σ τ : Type} {L M : Language Word} {p q : Word → Prop} {tokens : List Token}

namespace Stream

/-! ## Single tokens and names -/

theorem expect_predictive {k : TokenKind} (hn : ¬ k.IsName) (hk : k ≠ .eof) :
    Predictive p (word k) (·.expect k) := by
  have kind (s : Stream) : [s.current.word] ∈ word k ↔ s.kind = k := by
    rw [mem_word, List.cons.injEq, and_iff_left rfl, Token.word_eq_mark_iff, and_iff_left hn]
    rfl
  refine .single Token.span k.label ⟨_, rfl⟩ ?_ (fun s h => if_pos ((kind s).mp h)) fun s h => ?_
  · rintro _ rfl
    exact ⟨⟨k, .none, {}⟩, congrArg (List.cons · []) (if_neg hn).symm, hk⟩
  · exact if_neg (mt (kind s).mpr h)

theorem text_mem {s : Stream} :
    [s.current.word] ∈ text ↔ s.kind = .strLiteral ∨ s.kind = .identifier := by
  rw [mem_text]
  constructor
  · rintro ⟨n, heq⟩
    exact (Token.word_eq_name_iff.mp (List.cons.inj heq).1.symm).1
  · intro name
    exact ⟨_, congrArg (List.cons · []) (Token.word_eq_name_iff.mpr ⟨name, rfl⟩).symm⟩

/-- A token for a name. -/
theorem name_of_text {v : List Word} (hv : v ∈ text) : ∃ t : Token, v = [t.word] ∧ t.kind ≠ .eof := by
  obtain ⟨n, rfl⟩ := hv
  exact ⟨⟨.identifier, .text n, {}⟩, rfl, by simp⟩

theorem expectText_predictive (what : String) : Predictive p text (·.expectText what) := by
  exact .single (fun t => t.text?.getD "") what ⟨_, "", rfl⟩ (fun _ => name_of_text)
    (fun s h => if_pos (text_mem.mp h)) fun s h => if_neg (mt text_mem.mpr h)

/-- A comma and the text behind it. -/
def commaText (what : String) (s : Stream) : Except ReadFault (String × Stream) := do
  let (_, s) ← s.expect .comma
  s.expectText what

theorem commaText_predictive (what : String) :
    Predictive p (word .comma * text) (commaText what) :=
  .bind (expect_predictive (by decide) (by decide)) (fun _ => expectText_predictive what) leads_true

theorem moreTexts_commaText {s : Stream} {what : String} (comma : s.kind = .comma) :
    moreTexts what s = (do
      let (text, s) ← commaText what s
      let (texts, s) ← moreTexts what s
      return (text :: texts, s)) := by
  have read : commaText what s = s.advance.expectText what := by
    rw [commaText, expect, if_pos comma]
    rfl
  rw [moreTexts_comma comma, read]

/-- By induction on the tokens. -/
theorem moreTexts_outlook (what : String) (tidy : Tidy (tokens.map Token.word)) :
    Outlook (language more) (moreTexts what) tokens := by
  induction hn : tokens.length using Nat.strongRecOn generalizing tokens with
  | ind n ih =>
    obtain ⟨t, ts, rfl⟩ := exists_cons_of_tidy tidy
    rw [language_more]
    by_cases comma : t.kind = .comma
    · have first : Outlook (word .comma * text) (commaText what) (t :: ts) :=
        (commaText_predictive (p := fun _ => True) what).outlook tidy
      have some : ∃ v, v ∈ language more := ⟨_, [], rfl⟩
      refine (first.bind some fun {passed behind t'} name split words => ?_).congr (fun _ => .inr)
        fun rest last => moreTexts_commaText comma
      have shorter : (t' :: behind).length < n := by
        obtain ⟨_, _, heq⟩ := mem_word_mul.mp words
        have passed := congrArg List.length heq
        rw [List.length_map] at passed
        rw [← hn, split, List.length_append, ← passed]
        simp
      exact (ih _ shorter (Tidy.behind (split ▸ tidy)) rfl).map (name :: ·)
    · exact .reads [] t ts [] rfl (.inl rfl) fun rest last => by
        rw [moreTexts]
        exact if_neg comma

theorem expectTexts_predictive (what : String) :
    Predictive (· ≠ .mark .comma) (language Series.names) (·.expectTexts what) where
  some := ⟨_, ⟨"", []⟩, rfl⟩
  spelled := by
    rintro _ ⟨names, rfl⟩
    refine (spelled_name names.first).append (spelled_flatMap fun n _ => ?_)
    exact (spelled_mark (k := .comma) (by decide)).append (spelled_name n)
  outlook {tokens} tidy := by
    rw [language_names]
    have first : Outlook text (·.expectText what) tokens :=
      (expectText_predictive (p := fun _ => True) what).outlook tidy
    refine first.bind ⟨_, [], rfl⟩ fun name split _ => ?_
    exact (moreTexts_outlook what (Tidy.behind (split ▸ tidy))).map (name :: ·)
  accepts := by
    rintro s _ w ws ⟨names, rfl⟩ hw hs
    obtain ⟨t, e, ht⟩ := @expectTexts_ok _ _ _ what _ hs hw
    rw [e]
    exact .ok ht

/-! ## Blocks -/

section

variable {item : σ → Stream → Except ReadFault (σ × Stream)} {words : τ → List Word}
  {s u v : Stream} {a b : σ} {ws : List Word}

/-- One line, and the rest of the block behind it. -/
theorem blockLines_line (skipped : s.skipSameLevel = .ok u) (notClosed : u.kind ≠ .blockClose)
    (further : u.kind ≠ .eof) (read : item a u = .ok (b, v))
    (ends : v.kind = .sameLevel ∨ v.kind = .blockClose)
    (shorter : v.rest.length < s.rest.length) : blockLines item a s = blockLines item b v := by
  rw [blockLines, skipped]
  dsimp only
  rw [if_neg notClosed, if_neg further, read]
  dsimp only
  rw [if_pos ends, if_pos shorter]

/-- A word that ends a line. -/
def EndsLine (w : Word) : Prop :=
  w = .mark .sameLevel ∨ w = .mark .blockClose ∨ w = .mark .eof

theorem EndsLine.ne {w : Word} (h : EndsLine w) {k : TokenKind}
    (hk : k ∉ [.sameLevel, .blockClose, .eof]) : w ≠ .mark k := by
  rintro rfl
  simp only [EndsLine, Word.mark.injEq] at h
  exact hk (by simpa using h)

/-- A reader of lines: none of them begins with a boundary. -/
structure PredictiveLines (item : σ → Stream → Except ReadFault (σ × Stream))
    (words : τ → List Word) : Prop where
  predictive : ∀ a, Predictive EndsLine (language words) (item a)
  content : ∀ x, ∃ w ws, words x = w :: ws ∧ w.IsContent

/-- Same-level tokens in front of a token of another kind. -/
theorem skip_same (same : List Token) {ts : List Token} {t last : Token} (hsame : ∀ x ∈ same, x.kind = .sameLevel)
    (other : t.kind ≠ .sameLevel) :
    skipSameLevel ⟨same ++ t :: ts, last⟩ = .ok ⟨t :: ts, last⟩ := by
  have dropped : (same ++ t :: ts).dropWhile (·.kind == .sameLevel) = t :: ts := by
    rw [List.dropWhile_append_of_pos fun x hx => beq_iff_eq.mpr (hsame x hx),
      List.dropWhile_cons_of_neg (by simpa using other)]
  rw [skipSameLevel]
  dsimp only
  rw [dropped]
  rfl

/-- What is known of the rest of a block, where a line has ended. -/
def Resumes (item : σ → Stream → Except ReadFault (σ × Stream)) (words : τ → List Word) (n : Nat) :
    Prop :=
  ∀ {t : Token} {ts : List Token} (a : σ), (t :: ts).length ≤ n → Tidy ((t :: ts).map Token.word) →
    t.kind = .sameLevel ∨ t.kind = .blockClose →
      Outlook (language (linesWords words)) (blockLines item a) (t :: ts)

section

variable {same passed behind : List Token} {t t' : Token} {M : Language Word}

/-- A line that is not read, perhaps with a same-level token in front. -/
theorem blockLines_rejects (rejects : Rejects (language words) (item a) (t :: behind))
    (content : t.word.IsContent) (hsame : ∀ x ∈ same, x.kind = .sameLevel)
    (hM : ∀ s : Series τ, same.map Token.word ++ linesOf words s ∈ M) :
    Rejects M (blockLines item a) (same ++ t :: behind) := by
  obtain ⟨passed, t', behind, e, split, place, fails⟩ := rejects
  refine .intro (same ++ passed) t' behind e ?_ (fun unexpected => ⟨(place unexpected).1, ?_⟩)
    fun rest last => ?_
  · rw [split, List.append_assoc]
  · obtain ⟨_, ⟨x, rfl⟩, before⟩ := (place unexpected).2
    refine ⟨_, hM ⟨x, []⟩, ?_⟩
    rw [List.map_append, List.prefix_append_right_inj]
    exact before.trans (List.prefix_append _ _)
  · obtain ⟨rest', heq⟩ := exists_cons_of_split split rest
    have notClosed : kind ⟨t :: rest', last⟩ ≠ .blockClose := content.kind_ne rfl
    have further : kind ⟨t :: rest', last⟩ ≠ .eof := content.kind_ne rfl
    rw [List.append_assoc, heq, blockLines, skip_same same hsame (content.kind_ne rfl)]
    dsimp only
    rw [if_neg notClosed, if_neg further, ← heq, fails rest last]

/-- A line read up to the token `t`, perhaps with same-level tokens in front. -/
structure ReadsLine (item : σ → Stream → Except ReadFault (σ × Stream)) (a b : σ)
    (same passed : List Token) (t : Token) : Prop where
  sameLevel : ∀ x ∈ same, x.kind = .sameLevel
  content : ∃ c passed', passed = c :: passed' ∧ c.word.IsContent
  reads : ∀ rest last, item a ⟨passed ++ t :: rest, last⟩ = .ok (b, ⟨t :: rest, last⟩)

namespace ReadsLine

/-- The line ends with `t`, and the rest of the block begins with it. -/
theorem blockLines_eq (h : ReadsLine item a b same passed t)
    (ends : t.kind = .sameLevel ∨ t.kind = .blockClose) (rest : List Token) (last : Token) :
    blockLines item a ⟨(same ++ passed) ++ t :: rest, last⟩ = blockLines item b ⟨t :: rest, last⟩ := by
  obtain ⟨c, passed', rfl, content⟩ := h.content
  have skipped : skipSameLevel ⟨same ++ c :: (passed' ++ t :: rest), last⟩ =
      .ok ⟨c :: (passed' ++ t :: rest), last⟩ := skip_same same h.sameLevel (content.kind_ne rfl)
  rw [List.append_assoc]
  refine blockLines_line skipped (content.kind_ne rfl) (content.kind_ne rfl) (h.reads rest last)
    ends ?_
  simp only [List.length_append, List.length_cons]
  omega

/-- Only the end of the line could come next. -/
theorem blockLines_rejects (h : ReadsLine item a b same passed t)
    (more : ¬ (t.kind = .sameLevel ∨ t.kind = .blockClose))
    (hM : ∀ xs : List τ, (same ++ passed).map Token.word ++ linesWords words xs ∈ M)
    (behind : List Token) : Rejects M (blockLines item a) ((same ++ passed) ++ t :: behind) := by
  have rejects : Rejects (language (linesWords words))
      (fun s => (.error (s.unexpected "end of line") : Except ReadFault (σ × Stream)))
      (t :: behind) := .unexpected ⟨_, [], rfl⟩ fun _ _ => rfl
  refine rejects.ahead (same ++ passed) ?_ fun rest last => ?_
  · rintro _ ⟨xs, rfl⟩
    exact hM xs
  · obtain ⟨c, passed', rfl, content⟩ := h.content
    have skipped : skipSameLevel ⟨same ++ c :: (passed' ++ t :: rest), last⟩ =
        .ok ⟨c :: (passed' ++ t :: rest), last⟩ := skip_same same h.sameLevel (content.kind_ne rfl)
    have notClosed : kind ⟨c :: (passed' ++ t :: rest), last⟩ ≠ .blockClose := content.kind_ne rfl
    have further : kind ⟨c :: (passed' ++ t :: rest), last⟩ ≠ .eof := content.kind_ne rfl
    have read := h.reads rest last
    rw [List.cons_append] at read
    rw [List.append_assoc, List.cons_append, blockLines, skipped]
    dsimp only
    rw [if_neg notClosed, if_neg further, read]
    exact if_neg more

end ReadsLine

/-- A line and what stands behind it, perhaps with same-level tokens in front. -/
theorem Resumes.line {n : Nat} (ih : Resumes item words n) (h : PredictiveLines item words)
    (same : List Token) (a : σ) (length : behind.length ≤ n)
    (tidy : Tidy ((t :: behind).map Token.word)) (content : t.word.IsContent)
    (hsame : ∀ x ∈ same, x.kind = .sameLevel)
    (hM : ∀ s : Series τ, same.map Token.word ++ linesOf words s ∈ M) :
    Outlook M (blockLines item a) (same ++ t :: behind) := by
  cases (h.predictive a).outlook tidy with
  | rejects rejects => exact .rejects (blockLines_rejects rejects content hsame hM)
  | reads passed t' behind' b split passedWords reads =>
    obtain ⟨x, hx⟩ := passedWords
    have begins : ∃ c passed', passed = c :: passed' ∧ c.word.IsContent := by
      obtain ⟨w, ws, heq, content⟩ := h.content x
      obtain ⟨c, passed', rfl, rfl, _⟩ := List.map_eq_cons_iff.mp (hx.symm.trans heq)
      exact ⟨c, passed', rfl, content⟩
    have line : ReadsLine item a b same passed t' := ⟨hsame, begins, reads⟩
    have fits (xs : List τ) : (same ++ passed).map Token.word ++ linesWords words xs ∈ M := by
      rw [List.map_append, ← hx, List.append_assoc]
      exact hM ⟨x, xs⟩
    rw [split, ← List.append_assoc]
    by_cases ends : t'.kind = .sameLevel ∨ t'.kind = .blockClose
    · have shorter : (t' :: behind').length ≤ n := by
        obtain ⟨c, passed', rfl, _⟩ := begins
        have := congrArg List.length split
        simp only [List.length_cons, List.length_append] at *
        omega
      refine (ih b shorter (Tidy.behind (split ▸ tidy)) ends).ahead _ ?_ (line.blockLines_eq ends)
      rintro _ ⟨xs, rfl⟩
      exact fits xs
    · exact .rejects (line.blockLines_rejects ends fits behind')

end

/-- By induction on the number of tokens. -/
theorem resumes (h : PredictiveLines item words) (n : Nat) : Resumes item words n := by
  induction n with
  | zero => exact fun _ length => absurd length (by simp)
  | succ n ih =>
    intro t ts a length tidy ends
    rw [List.length_cons] at length
    rcases ends with same | close
    · have word : t.word = .mark .sameLevel := Token.word_eq_mark_iff.mpr ⟨same, by decide⟩
      have tidy' := tidy.tail (by simp [word])
      obtain ⟨c, ts, rfl⟩ := exists_cons_of_tidy tidy'
      rw [List.length_cons] at length
      refine ih.line h [t] a (by omega) tidy' (tidy.content (.inr word))
        (List.forall_mem_singleton.mpr same) fun s => ⟨s.toList, ?_⟩
      have behind := linesWords_cons words s.first s.rest []
      rw [List.append_nil, List.append_nil] at behind
      rw [List.map_singleton, word]
      exact behind
    · have word : t.word = .mark .blockClose := Token.word_eq_mark_iff.mpr ⟨close, by decide⟩
      obtain ⟨t', ts, rfl⟩ := exists_cons_of_tidy (tidy.tail (by simp [word]))
      refine .reads [t] t' ts a rfl ⟨[], by rw [List.map_singleton, word]; rfl⟩ ?_
      intro rest last
      have skipped : skipSameLevel ⟨t :: t' :: rest, last⟩ = .ok ⟨t :: t' :: rest, last⟩ :=
        skip_same [] (by decide) (by rw [close]; decide)
      have closed : kind ⟨t :: t' :: rest, last⟩ = .blockClose := close
      rw [List.singleton_append, blockLines, skipped]
      dsimp only
      rw [if_pos closed, advance_cons (by rw [close]; decide)]

theorem linesWords_begin (words : τ → List Word) (xs : List τ) (ws : List Word) :
    ∃ k rest, linesWords words xs ++ ws = .mark k :: rest ∧ (k = .sameLevel ∨ k = .blockClose) := by
  cases xs with
  | nil => exact ⟨.blockClose, ws, rfl, .inr rfl⟩
  | cons x xs => exact ⟨.sameLevel, _, rfl, .inl rfl⟩

theorem accepts_line (h : PredictiveLines item words) {n : Nat} {x : τ} {xs : List τ}
    (hs : s.Shows (sameLevels n ++ (words x ++ (linesWords words xs ++ ws))))
    (behind : ∀ b {t : Stream}, t.Shows (linesWords words xs ++ ws) →
      Accepts ws (blockLines item b t)) : Accepts ws (blockLines item a s) := by
  obtain ⟨w, rest, hx, content⟩ := h.content x
  obtain ⟨k, more, hmore, hk⟩ := linesWords_begin words xs ws
  rw [hx, List.cons_append] at hs
  obtain ⟨u, skipped, hu⟩ := skip_ok hs fun heq => content.not_beginsLine (.inr heq)
  have current : u.current.word = w := hu.word_current
  have content : u.current.word.IsContent := current.symm ▸ content
  rw [← List.cons_append, ← hx, hmore] at hu
  have endsLine : EndsLine (.mark k) := by rcases hk with rfl | rfl <;> simp [EndsLine]
  have line := (h.predictive a).accepts ⟨x, rfl⟩ endsLine hu
  cases read : item a u with
  | error fault =>
    rw [read] at line
    cases line with
    | error other =>
      rw [blockLines, skipped]
      dsimp only
      have notClosed : u.kind ≠ .blockClose := content.kind_ne rfl
      have further : u.kind ≠ .eof := content.kind_ne rfl
      rw [if_neg notClosed, if_neg further, read]
      exact .error other
  | ok found =>
    obtain ⟨b, t⟩ := found
    rw [read] at line
    cases line with
    | ok ht =>
      have ends : t.kind = .sameLevel ∨ t.kind = .blockClose := by rwa [ht.kind_eq]
      have shorter : t.rest.length < s.rest.length := by
        rw [ht.length, hs.length, ← hmore]
        simp only [List.length_append, List.length_cons]
        omega
      rw [blockLines_line skipped (content.kind_ne rfl) (content.kind_ne rfl) read ends shorter]
      exact behind b (hmore ▸ ht)

theorem accepts_lines (h : PredictiveLines item words) {xs : List τ}
    (hs : s.Shows (linesWords words xs ++ ws)) : Accepts ws (blockLines item a s) := by
  induction xs generalizing a s with
  | nil =>
    obtain ⟨u, skipped, hu⟩ := skip_ok (n := 0) hs (by simp)
    rw [blockLines, skipped]
    dsimp only
    rw [if_pos hu.kind_eq]
    exact .ok (hu.advance (by decide))
  | cons x xs ih =>
    rw [linesWords_cons] at hs
    exact accepts_line h (n := 1) hs fun b _ => ih

theorem block_predictive (h : PredictiveLines item words) [Nonempty τ] (a : σ) :
    Predictive p (language (Series.block words)) (block item a) where
  some := ⟨_, ⟨Classical.arbitrary τ, []⟩, rfl⟩
  spelled := by
    rintro _ ⟨series, rfl⟩
    have line (x : τ) : Spelled (words x) := (h.predictive a).spelled _ ⟨x, rfl⟩
    refine (spelled_mark (k := .blockOpen) (by decide)).append ((line _).append (.append ?_ ?_))
    · exact spelled_flatMap fun x _ => (spelled_mark (k := .sameLevel) (by decide)).append (line x)
    · exact spelled_mark (by decide)
  outlook {tokens} tidy := by
    rw [language_block]
    have opened : Outlook (word .blockOpen) (·.expect .blockOpen) tokens :=
      (expect_predictive (p := fun _ => True) (k := .blockOpen) (by decide) (by decide)).outlook tidy
    have some : ∃ v, v ∈ language (linesOf words) := ⟨_, ⟨Classical.arbitrary τ, []⟩, rfl⟩
    refine opened.bind some fun {passed behind t} _ split passedWords => ?_
    obtain ⟨_, rfl, word⟩ := List.map_eq_singleton_iff.mp (mem_word.mp passedWords)
    rw [split] at tidy
    have content : t.word.IsContent := tidy.content (.inl word)
    have resumes : Resumes item words behind.length := resumes h _
    exact Resumes.line resumes h [] a le_rfl (Tidy.behind tidy) content (by decide) fun s => ⟨s, rfl⟩
  accepts := by
    rintro s _ w ws ⟨series, rfl⟩ _ hs
    rw [block_words, List.cons_append, List.append_assoc] at hs
    obtain ⟨opened, hu⟩ := expect_ok hs (by decide)
    rw [block, opened]
    exact accepts_line h (n := 0) hu fun b _ => accepts_lines h

theorem optionalBlock_predictive (h : PredictiveLines item words) [Nonempty τ] (a : σ) :
    Predictive EndsLine (language (Syntax.optionalBlock words)) (optionalBlock item a) := by
  rw [language_optionalBlock]
  have opened : Predictive EndsLine (word .blockOpen * language (linesOf words)) (block item a) := by
    rw [← language_block]
    exact block_predictive h a
  exact (opened.optional (by decide) a).weaken fun w hw => ⟨hw, hw.ne (by decide)⟩

end

end Stream

end ScrapeConfig
