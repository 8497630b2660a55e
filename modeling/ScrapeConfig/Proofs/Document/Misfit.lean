import ScrapeConfig.Proofs.Document.Foresight
import ScrapeConfig.Proofs.Document.Resemblance

/-!
# The first token that does not fit

If a document can not be read because of a token that was not expected, then it is that token with
which it stops being the beginning of a document: what stands before it can be gone on with to a
sentence of the grammar, and no sentence goes on with it.

Results:
1. `Document.sections_outlook`, `Document.sections_quiet`: the reader of sections is predictive, up
   to the end of the document.
2. `Document.ofTokens_quiet`: a sentence of the grammar has no unexpected token.
3. `Document.unexpected_first_misfit`: where an unexpected token is reported.
-/

namespace ScrapeConfig.Document

open Syntax
open ScrapeConfig.Stream (EndsLine skip_ok skip_same strip)

variable {context : Context} {s t u : Stream} {d d' : Draft}

/-! ## Sections up to the end of the document -/

/-- What can stand where a section begins: nothing more, or sections up to the end. -/
def closings : Language Word :=
  word .eof + language fun r : Section × List (Nat × Section) × Nat =>
    r.1.words ++ behindWords r.2.1 r.2.2

theorem section_mem_closings (x : Section) {ws : List Word}
    (h : (∃ behind, ws = behindWords [] behind) ∨ ∃ v ∈ closings, ws = .mark .sameLevel :: v) :
    x.words ++ ws ∈ closings := by
  obtain ⟨behind, rfl⟩ | ⟨v, rfl | ⟨⟨x', lines, behind⟩, rfl⟩, rfl⟩ := h
  · exact .inr ⟨(x, [], behind), rfl⟩
  · exact .inr ⟨(x, [], 1), rfl⟩
  · refine .inr ⟨(x, (0, x') :: lines, behind), ?_⟩
    show x.words ++ behindWords ((0, x') :: lines) behind = _
    rw [behindWords_cons]
    rfl

/-- One section that has another line behind it. -/
theorem sections_line (further : ¬ s.atEnd) (read : documentSection context d s = .ok (d', t))
    (more : ¬ t.atEnd) (same : t.kind = .sameLevel) (skipped : t.skipSameLevel = .ok u)
    (shorter : u.rest.length < s.rest.length) :
    sections context d s = sections context d' u := by
  rw [sections, if_neg further, read]
  dsimp only
  rw [if_neg more, if_pos same, skipped]
  dsimp only
  rw [if_pos shorter]

theorem atEnd_cons_iff {t last : Token} {rest : List Token} :
    Stream.atEnd ⟨t :: rest, last⟩ ↔ t.kind = .eof := by
  rw [Stream.atEnd, List.isEmpty_cons, Bool.false_or, beq_iff_eq]
  rfl

section

variable {passed behind : List Token} {t : Token}

/-- A section read up to the token `t`. -/
structure ReadsSection (context : Context) (d d' : Draft) (passed : List Token) (t : Token) :
    Prop where
  words : passed.map Token.word ∈ language Section.words
  reads : ∀ rest last,
    documentSection context d ⟨passed ++ t :: rest, last⟩ = .ok (d', ⟨t :: rest, last⟩)

/-- A section that is not read. -/
theorem sections_rejects (rejects : Rejects (language Section.words) (documentSection context d) (t :: behind))
    (further : t.kind ≠ .eof) : Rejects closings (sections context d) (t :: behind) := by
  obtain ⟨passed, t', behind', e, split, place, fails⟩ := rejects
  refine .intro passed t' behind' e split (fun unexpected => ⟨(place unexpected).1, ?_⟩)
    fun rest last => ?_
  · obtain ⟨_, ⟨x, rfl⟩, before⟩ := (place unexpected).2
    exact ⟨_, section_mem_closings x (.inl ⟨0, rfl⟩), before.trans (List.prefix_append _ _)⟩
  · obtain ⟨rest', heq⟩ := exists_cons_of_split split rest
    rw [heq, sections, if_neg (mt atEnd_cons_iff.mp further), ← heq, fails rest last]

namespace ReadsSection

theorem exists_cons (h : ReadsSection context d d' passed t) :
    ∃ c passed', passed = c :: passed' ∧ c.kind ≠ .eof := by
  obtain ⟨x, hx⟩ := h.words
  obtain ⟨w, ws, heq, content⟩ := section_content x
  obtain ⟨c, passed', rfl, rfl, _⟩ := List.map_eq_cons_iff.mp (hx.symm.trans heq)
  exact ⟨c, passed', rfl, content.kind_ne rfl⟩

/-- The reader of sections once the section has been read. -/
theorem sections_eq (h : ReadsSection context d d' passed t) (rest : List Token) (last : Token) :
    ¬ Stream.atEnd ⟨passed ++ t :: rest, last⟩ ∧
      (t.kind = .eof → sections context d ⟨passed ++ t :: rest, last⟩ = .ok d') ∧
      (t.kind ≠ .eof → t.kind ≠ .sameLevel → sections context d ⟨passed ++ t :: rest, last⟩ =
        .error (Stream.unexpected ⟨t :: rest, last⟩ "end of line")) := by
  obtain ⟨c, passed', rfl, further⟩ := h.exists_cons
  have further : ¬ Stream.atEnd ⟨c :: (passed' ++ t :: rest), last⟩ := mt atEnd_cons_iff.mp further
  have read := h.reads rest last
  rw [List.cons_append] at read ⊢
  refine ⟨further, fun eof => ?_, fun more other => ?_⟩
  · rw [sections, if_neg further, read]
    exact if_pos (atEnd_cons_iff.mpr eof)
  · rw [sections, if_neg further, read]
    dsimp only
    rw [if_neg (mt atEnd_cons_iff.mp more)]
    exact if_neg other

/-- The section has another line behind it. -/
theorem sections_line (h : ReadsSection context d d' passed t) (same : t.kind = .sameLevel)
    {c : Token} (content : c.word.IsContent) (rest : List Token) (last : Token) :
    sections context d ⟨passed ++ t :: c :: rest, last⟩ = sections context d' ⟨c :: rest, last⟩ := by
  obtain ⟨_, _, rfl, _⟩ := h.exists_cons
  have more : ¬ Stream.atEnd ⟨t :: c :: rest, last⟩ := mt atEnd_cons_iff.mp (by simp [same])
  refine Document.sections_line (h.sections_eq _ last).1 (h.reads (c :: rest) last) more same
    (skip_same [t] (List.forall_mem_singleton.mpr same) (content.kind_ne rfl)) ?_
  simp only [List.length_append, List.length_cons]
  omega

/-- Only the end of the line could come next. -/
theorem sections_rejects (h : ReadsSection context d d' passed t) (more : t.kind ≠ .eof)
    (other : t.kind ≠ .sameLevel) (behind : List Token) :
    Rejects closings (sections context d) (passed ++ t :: behind) := by
  have rejects : Rejects (word .eof)
      (fun s => (.error (s.unexpected "end of line") : Except ReadFault Draft)) (t :: behind) :=
    .unexpected ⟨_, rfl⟩ fun _ _ => rfl
  refine rejects.ahead passed ?_ fun rest last => (h.sections_eq rest last).2.2 more other
  obtain ⟨x, hx⟩ := h.words
  rintro _ rfl
  rw [← hx]
  exact section_mem_closings x (.inl ⟨0, rfl⟩)

end ReadsSection

/-- Where a section begins, the sections are read up to the end of the document, or the reader
rejects them. By induction on the number of tokens. -/
theorem sections_outlook {n : Nat} (length : (t :: behind).length ≤ n)
    (tidy : Tidy ((t :: behind).map Token.word)) (d : Draft) :
    (∃ d', ∀ last, sections context d ⟨t :: behind, last⟩ = .ok d') ∨
      Rejects closings (sections context d) (t :: behind) := by
  induction n generalizing t behind d with
  | zero => exact absurd length (by simp)
  | succ n ih =>
    by_cases eof : t.kind = .eof
    · refine .inl ⟨d, fun last => ?_⟩
      rw [sections, if_pos (atEnd_cons_iff.mpr eof)]
    cases (section_predictive context d).outlook tidy with
    | rejects rejects => exact .inr (sections_rejects rejects eof)
    | reads passed t' behind' d' split words reads =>
      have line : ReadsSection context d d' passed t' := ⟨words, reads⟩
      rw [split] at length tidy ⊢
      by_cases eof' : t'.kind = .eof
      · exact .inl ⟨d', fun last => (line.sections_eq behind' last).2.1 eof'⟩
      by_cases same : t'.kind = .sameLevel
      · have word : t'.word = .mark .sameLevel := Token.word_eq_mark_iff.mpr ⟨same, by decide⟩
        have tidy' := tidy.behind.tail (by simp [word])
        obtain ⟨c, behind', rfl⟩ := exists_cons_of_tidy tidy'
        have next := line.sections_line same (tidy.behind.content (.inr word))
        have shorter : (c :: behind').length ≤ n := by
          simp only [List.length_append, List.length_cons] at length ⊢
          omega
        rcases ih shorter tidy' d' with ⟨d'', rest⟩ | rejects
        · exact .inl ⟨d'', fun last => (next behind' last).trans (rest last)⟩
        · rw [List.append_cons]
          refine .inr (rejects.ahead _ (fun v hv => ?_) fun rest last => ?_)
          · obtain ⟨x, hx⟩ := words
            rw [List.map_append, List.map_singleton, ← hx, word, List.append_assoc]
            exact section_mem_closings x (.inr ⟨v, hv, rfl⟩)
          · rw [List.append_assoc]
            exact next rest last
      · exact .inr (line.sections_rejects eof' same behind')

end

/-- A section, and what is done behind it. -/
theorem sections_quiet_section {x : Section} {w : Word} {ws : List Word}
    (hs : s.Shows (x.words ++ w :: ws)) (hw : EndsLine w)
    (behind : ∀ {d' t}, documentSection context d s = .ok (d', t) → t.Shows (w :: ws) →
      Quiet (sections context d s)) : Quiet (sections context d s) := by
  have first := (section_predictive context d).accepts ⟨x, rfl⟩ hw hs
  cases read : documentSection context d s with
  | ok found =>
    rw [read] at first
    cases first with
    | ok ht => exact behind read ht
  | error fault =>
    rw [read] at first
    cases first with
    | error other =>
      rw [sections, if_neg (not_atEnd hs), read]
      exact quiet_problem other

theorem sections_quiet_step {x : Section} {n : Nat} {w : Word} {ws : List Word}
    (hs : s.Shows (x.words ++ (sameLevels (n + 1) ++ w :: ws))) (hw : w ≠ .mark .sameLevel)
    (next : ∀ {d' u}, u.Shows (w :: ws) → Quiet (sections context d' u)) :
    Quiet (sections context d s) := by
  refine sections_quiet_section hs (.inl rfl) fun {d' t} read ht => ?_
  have same : t.kind = .sameLevel := ht.kind_eq
  have more : ¬ t.atEnd := fun hend => by simpa using ht.atEnd_iff.mp hend
  obtain ⟨u, skipped, hu⟩ := skip_ok (n := n + 1) ht hw
  have shorter : u.rest.length < s.rest.length := by
    rw [hu.length, hs.length]
    simp only [List.length_append, sameLevels, List.length_replicate]
    omega
  rw [sections_line (not_atEnd hs) read more same skipped shorter]
  exact next hu

theorem sections_quiet_end {ws : List Word} (hs : s.Shows (.mark .eof :: ws)) :
    Quiet (sections context d s) := by
  rw [sections, if_pos (hs.atEnd_iff.mpr rfl)]
  exact quiet_ok d

/-- Sections of a sentence have no unexpected token. By induction on the lines. -/
theorem sections_quiet {x : Section} {lines : List (Nat × Section)} {behind : Nat}
    (hs : s.Shows (x.words ++ behindWords lines behind)) : Quiet (sections context d s) := by
  induction lines generalizing s x d with
  | nil =>
    cases behind with
    | zero =>
      refine sections_quiet_section hs (.inr (.inr rfl)) fun read ht => ?_
      rw [sections, if_neg (not_atEnd hs), read]
      dsimp only
      rw [if_pos (ht.atEnd_iff.mpr rfl)]
      exact quiet_ok _
    | succ n => exact sections_quiet_step hs (by decide) sections_quiet_end
  | cons line lines ih =>
    obtain ⟨n, x'⟩ := line
    obtain ⟨w, rest, hx, content⟩ := section_content x'
    rw [behindWords_cons, hx] at hs
    refine sections_quiet_step (n := n) hs (fun heq => content.not_beginsLine (.inr heq)) fun hu => ?_
    exact ih (by rwa [hx])

/-! ## Documents -/

/-- What stands behind the context. -/
def body (context : Context) (s : Stream) : Except ReadFault Draft := do
  let s ← s.skipSameLevel
  sections context {} s

/-- What can stand there. -/
def bodies : Language Word := {v | ∃ x : Syntax.Document, x.words = .mark .ctx :: v}

theorem sameLevels_mem_bodies (n : Nat) {v : List Word} (hv : v ∈ closings) :
    sameLevels n ++ v ∈ bodies := by
  rcases hv with rfl | ⟨⟨x, lines, behind⟩, rfl⟩
  · exact ⟨⟨n, none, 0⟩, words_of_none n 0⟩
  · exact ⟨⟨n, some ⟨x, lines⟩, behind⟩, words_of_lines n behind x lines⟩

theorem body_outlook {ts : List Token} (tidy : Tidy (ts.map Token.word)) :
    (∃ d, ∀ last, body context ⟨ts, last⟩ = .ok d) ∨ Rejects bodies (body context) ts := by
  obtain ⟨same, t, rest, rfl, hsame, other, words⟩ : ∃ same t rest, ts = same ++ t :: rest ∧
      (∀ x ∈ same, x.kind = .sameLevel) ∧ t.kind ≠ .sameLevel ∧
        same.map Token.word = sameLevels same.length := by
    obtain ⟨t, ts, rfl⟩ := exists_cons_of_tidy tidy
    by_cases same : t.kind = .sameLevel
    · have word : t.word = .mark .sameLevel := Token.word_eq_mark_iff.mpr ⟨same, by decide⟩
      obtain ⟨c, ts, rfl⟩ := exists_cons_of_tidy (tidy.tail (by simp [word]))
      have content : c.word.IsContent := tidy.content (.inr word)
      exact ⟨[t], c, ts, rfl, List.forall_mem_singleton.mpr same, content.kind_ne rfl,
        congrArg (List.cons · []) word⟩
    · exact ⟨[], t, ts, rfl, (by decide), same, rfl⟩
  have skipped (rest last) :
      body context ⟨same ++ t :: rest, last⟩ = sections context {} ⟨t :: rest, last⟩ := by
    rw [body, skip_same same hsame other]
    rfl
  rcases sections_outlook le_rfl tidy.behind {} with ⟨d, read⟩ | rejects
  · exact .inl ⟨d, fun last => (skipped rest last).trans (read last)⟩
  · refine .inr (rejects.ahead same (fun v hv => ?_) skipped)
    rw [words]
    exact sameLevels_mem_bodies _ hv

theorem body_quiet {v : List Word} (hv : v ∈ bodies) (hs : s.Shows v) : Quiet (body context s) := by
  obtain ⟨⟨before, lines, behind⟩, heq⟩ := hv
  cases lines with
  | none =>
    rw [words_of_none] at heq
    obtain rfl := (List.cons.inj heq).2
    obtain ⟨u, skipped, hu⟩ := skip_ok hs (by decide)
    rw [body, skipped]
    exact sections_quiet_end hu
  | some lines =>
    obtain ⟨x, lines⟩ := lines
    rw [words_of_lines] at heq
    obtain rfl := (List.cons.inj heq).2
    obtain ⟨w, rest, hx, content⟩ := section_content x
    rw [hx] at hs
    obtain ⟨u, skipped, hu⟩ := skip_ok hs fun heq => content.not_beginsLine (.inr heq)
    rw [body, skipped]
    exact sections_quiet (x := x) (by rwa [hx])

theorem spelled_sameLevels (n : Nat) : Spelled (sameLevels n) := by
  induction n with
  | zero => exact spelled_nil
  | succ n ih => exact (spelled_mark (k := .sameLevel) (by decide)).append ih

/-- The words of a sentence are those of some tokens. -/
theorem spelled_words (x : Syntax.Document) : Spelled x.words := by
  obtain ⟨before, lines, behind⟩ := x
  have one (x : Section) : Spelled x.words := (section_predictive {} {}).spelled _ ⟨x, rfl⟩
  have closed : Spelled (sameLevels behind ++ [.mark .eof]) :=
    (spelled_sameLevels behind).append (spelled_mark (by decide))
  refine (spelled_mark (k := .ctx) (by decide)).append ((spelled_sameLevels before).append ?_)
  refine Spelled.append ?_ closed
  cases lines with
  | none => exact spelled_nil
  | some lines =>
    exact (one lines.first).append (spelled_flatMap fun line _ =>
      (spelled_sameLevels (line.1 + 1)).append (one line.2))

theorem context_of_kind {s : Stream} (ctx : s.kind = .ctx) :
    Document.context s = .ok (s.current.context, s.advance) := by
  rw [Document.context, if_pos ctx, Token.context]
  cases s.current.payload <;> rfl

/-- The reader of documents on tokens that begin with a context. -/
theorem ofTokens_cons {t : Token} {ts : List Token} (ctx : t.kind = .ctx)
    (none_bad : ∀ x ∈ t :: ts, x.kind ≠ .badIndent) :
    ofTokens (t :: ts) = (do
      let d ← body t.context ⟨ts, (Stream.ofList (t :: ts)).last⟩
      return d.configuration) := by
  have opened : Document.context (.ofList (t :: ts)) =
      .ok (t.context, ⟨ts, (Stream.ofList (t :: ts)).last⟩) := by
    have next : (Stream.ofList (t :: ts)).advance = ⟨ts, (Stream.ofList (t :: ts)).last⟩ :=
      Stream.advance_cons (by rw [ctx]; decide)
    rw [context_of_kind (s := .ofList (t :: ts)) ctx, next]
    rfl
  rw [ofTokens, none_badIndent.mpr none_bad]
  show (Document.context _ >>= _) = _
  rw [opened, body, bind_assoc]
  rfl

/-- A sentence of the grammar has no unexpected token. -/
theorem ofTokens_quiet {tokens : List Token} (x : Syntax.Document)
    (hwords : tokens.map Token.word = x.words) : Quiet (ofTokens tokens) := by
  obtain ⟨t, ts, rfl⟩ : ∃ t ts, tokens = t :: ts :=
    List.exists_cons_of_ne_nil fun none => by rw [none] at hwords; cases hwords
  obtain ⟨first, rest⟩ := List.cons.inj hwords
  have ctx : t.kind = .ctx := (Token.word_eq_mark_iff.mp first).1
  rw [ofTokens_cons ctx (none_badIndent_of_words hwords)]
  refine Quiet.bind (body_quiet ⟨x, hwords ▸ ?_⟩ rfl) fun _ => quiet_ok _
  exact congrArg (List.cons · _) first

/-- Where an unexpected token is reported, the tokens before it are the beginning of a sentence of
the grammar, and no sentence goes on with it. -/
theorem unexpected_first_misfit {threaded : Bool} {source : String} {tokens : List Token}
    {e : ParseError} (h : tokenize threaded context source = .ok tokens)
    (none_bad : ∀ t ∈ tokens, t.kind ≠ .badIndent) (fails : ofTokens tokens = .error (.error e))
    (unexpected : e.problem.kind = .unexpectedToken) :
    ∃ before t behind, tokens = before ++ t :: behind ∧ e.IsAt t ∧
      (∃ x : Syntax.Document, before.map Token.word <+: x.words) ∧
        ∀ x : Syntax.Document, ¬ (before ++ [t]).map Token.word <+: x.words := by
  obtain ⟨ts, rfl, cut⟩ := tokenize_eq_ok.mp h
  rw [ofTokens_cons rfl none_bad] at fails
  have tidy := tidy_of_tokenizes cut rfl
  rcases @body_outlook (Token.opening context).context ts tidy with
    ⟨d, read⟩ | ⟨passed, t, behind, e', split, place, rejects⟩
  · rw [read] at fails
    cases fails
  · rw [split, rejects] at fails
    obtain rfl : e' = e := by
      cases fails
      rfl
    obtain ⟨isAt, v, ⟨x, hx⟩, before⟩ := place unexpected
    refine ⟨.opening context :: passed, t, behind, by rw [split]; rfl, isAt, ⟨x, ?_⟩, ?_⟩
    · rw [hx]
      exact (List.cons_prefix_cons).mpr ⟨rfl, before⟩
    · rintro y ⟨ws, hy⟩
      -- The sentence is that of tokens which go on behind `t`, and there the error is the same.
      have spelled := spelled_words y
      rw [← hy] at spelled
      obtain ⟨behind', rfl⟩ := spelled.of_append
      have hwords : (Token.opening context :: (passed ++ t :: behind')).map Token.word = y.words := by
        rw [← hy]
        simp
      have quiet := ofTokens_quiet y hwords
      rw [ofTokens_cons rfl (none_badIndent_of_words hwords), rejects] at quiet
      obtain ⟨_, ⟨⟩, other⟩ := quiet _ rfl
      exact other unexpected

/-- A metric that names a type where its lines begin, in a service of a stack. -/
def strayTypeText : String := "FOR_STACK \"web\"
  DEFINE_AUTH \"basic\" AS \"main\"
  FOR_SERVICE \"api\", \"login\" AS \"main\"
    SET \"location\" TO \"http://h\"
    METRIC
      NAME \"hits\"
      COUNTER
"

def strayType : List Outline :=
  let line (k : TokenKind) (ws : List Word) : Phrase := Syntax.spaced (.mark k) ws
  let services : Phrase := ⟨.mark .forService, [(.space, .name "api"), (.comma, .name "login"),
    (.space, .mark .as), (.space, .name "main")]⟩
  [.node (line .forStack [.name "web"])
    [.node (line .defineAuth [.name "basic", .mark .as, .name "main"]) [],
      .node services [.node (line .set [.name "location", .mark .to, .name "http://h"]) [],
        .node (line .metric [])
          [.node (line .name [.name "hits"]) [], .node (line .counter []) []]]]]

def strayTypeTokens : List Token := .opening {} :: Outline.tokens 2 strayType

def strayTypeError : ParseError :=
  ⟨.unexpectedToken "NAME, TYPE, DESCRIPTION, HELP, LABELS, FROM or SET" "COUNTER", 7, 7⟩

set_option maxRecDepth 2000 in
theorem strayTypeText_eq : strayTypeText = Outline.text 2 strayType := by
  rfl

theorem unexpected_first_misfit_strayType :
    tokenize false {} strayTypeText = .ok strayTypeTokens ∧
      ofTokens strayTypeTokens = .error (.error strayTypeError) ∧
      ∃ before t behind, strayTypeTokens = before ++ t :: behind ∧ strayTypeError.IsAt t ∧
        (∃ x : Syntax.Document, before.map Token.word <+: x.words) ∧
          ∀ x : Syntax.Document, ¬ (before ++ [t]).map Token.word <+: x.words := by
  have tokens : tokenize false {} strayTypeText = .ok strayTypeTokens :=
    strayTypeText_eq ▸ tokenize_text 2 (by decide) false {}
  have fails : ofTokens strayTypeTokens = .error (.error strayTypeError) := by decide +kernel
  exact ⟨tokens, fails, unexpected_first_misfit tokens (by decide) fails rfl⟩

end ScrapeConfig.Document
