import ScrapeConfig.Proofs.Document.Coverage
import ScrapeConfig.Proofs.Document.Resemblance
import ScrapeConfig.Proofs.Lexer.Contents

/-!
# Line ends

A carriage return in front of a line feed becomes the end of a comment, of blanks or of layout, or it
is passed over by itself. It is counted as a character of a line only if something else follows it. So
the tokens of a document and their lines and columns stay the same when all its lines are ended in
this way, if no literal goes over a line end.

Results:
1. `Lexical.crlf`: a text with carriage returns in front of all its line feeds.
2. `Facing`, `Rule.Cuts.crlf_skip`, `crlf_indent`, `crlf_token`: such a text is cut in the same way, up
   to the carriage return behind a comment or blanks.
3. `Tokenizes.crlf`: the tokens of such a text.
4. `Document.tokenize_crlf`: the tokens and the tree of a document with other line ends.
-/

namespace ScrapeConfig

open Lexical (IsSpace IsBlank IsBlanks IsComment IsComma IsIndent Layout)
open Rule (Cuts Stops Denotes IsLetter NamesWithin)

namespace Lexical

/-- The text with a carriage return in front of every line feed. -/
def crlf (cs : List Char) : List Char := cs.flatMap fun c => if c = '\n' then ['\r', '\n'] else [c]

@[simp] theorem crlf_nil : crlf [] = [] := rfl

@[simp] theorem crlf_break (cs : List Char) : crlf ('\n' :: cs) = '\r' :: '\n' :: crlf cs := rfl

theorem crlf_cons {c : Char} (hc : c ≠ '\n') (cs : List Char) : crlf (c :: cs) = c :: crlf cs := by
  rw [crlf, List.flatMap_cons, if_neg hc]
  rfl

theorem crlf_append (xs ys : List Char) : crlf (xs ++ ys) = crlf xs ++ crlf ys := List.flatMap_append

theorem crlf_eq_self {cs : List Char} (h : '\n' ∉ cs) : crlf cs = cs := by
  induction cs with
  | nil => rfl
  | cons c cs ih =>
    rw [List.mem_cons, not_or] at h
    rw [crlf_cons (Ne.symm h.1), ih h.2]

theorem break_mem_crlf {cs : List Char} : '\n' ∈ crlf cs ↔ '\n' ∈ cs := by
  induction cs with
  | nil => rfl
  | cons c cs ih =>
    by_cases hc : c = '\n'
    · simp [hc]
    · rw [crlf_cons hc, List.mem_cons, List.mem_cons, ih]

theorem forall_mem_crlf {P : Char → Prop} (return_ : P '\r') {cs : List Char} (h : ∀ c ∈ cs, P c) :
    ∀ c ∈ crlf cs, P c := by
  intro c hc
  obtain ⟨d, hd, hcd⟩ := List.mem_flatMap.mp hc
  split at hcd
  · next hbreak =>
    rcases List.mem_pair.mp hcd with rfl | rfl
    · exact return_
    · exact hbreak ▸ h d hd
  · exact List.mem_singleton.mp hcd ▸ h d hd

/-- Behind the last line feed nothing changes. -/
theorem lastLine_crlf (cs : List Char) : lastLine (crlf cs) = lastLine cs := by
  induction cs using List.reverseRecOn with
  | nil => rfl
  | append_singleton cs c ih =>
    rw [crlf_append, lastLine_concat]
    by_cases hc : c = '\n'
    · have broken : crlf cs ++ crlf ['\n'] = crlf cs ++ ['\r'] ++ ['\n'] := by simp
      rw [if_pos hc, hc, broken, lastLine_concat, if_pos rfl]
    · rw [if_neg hc, crlf_cons hc, crlf_nil, lastLine_concat, if_neg hc, ih]

/-- The line ends of comments and of blank lines, by induction on the layout. -/
theorem Layout.crlf {v : List Char} (h : Layout v) : Layout (crlf v) := by
  induction h with
  | nil => exact .nil
  | @space c u hc _ ih =>
    by_cases hbreak : c = '\n'
    · subst hbreak
      exact .space (by decide) (.space (by decide) ih)
    · rw [crlf_cons hbreak]
      exact .space hc ih
  | @comment v u hv _ ih =>
    rw [crlf_cons (by decide), crlf_append, crlf_eq_self hv]
    have hv' : '\n' ∉ v ++ ['\r'] := by simp [hv]
    simpa using Layout.comment hv' ih

end Lexical

open Lexical (crlf)

/-! ## Places -/

namespace Position

/-- The same line and column. -/
def Level (p p' : Position) : Prop := p.line = p'.line ∧ p.column = p'.column

theorem Level.next {p p' : Position} (h : p.Level p') (c : Char) : (p.next c).Level (p'.next c) :=
  ⟨by simp only [Position.next, h.1], by simp only [Position.next, h.2]⟩

/-- A line feed ends a line, whatever the column. -/
theorem level_next_break {p p' : Position} (h : p.line = p'.line) :
    (p.next '\n').Level (p'.next '\n') := ⟨by simp only [Position.next, h], rfl⟩

theorem Level.past_crlf {p p' : Position} (h : p.Level p') (cs : List Char) :
    (p.past cs).Level (p'.past (crlf cs)) := by
  induction cs generalizing p p' with
  | nil => exact h
  | cons c cs ih =>
    by_cases hc : c = '\n'
    · subst hc
      exact ih (level_next_break h.1)
    · rw [Lexical.crlf_cons hc]
      exact ih (h.next c)

end Position

/-- The same kind and payload at the same line and column. -/
structure Token.Level (t t' : Token) : Prop where
  kind : t.kind = t'.kind
  payload : t.payload = t'.payload
  line : t.span.line = t'.span.line
  column : t.span.column = t'.span.column

theorem Position.Level.token {p p' : Position} (h : p.Level p') (kind : TokenKind) (payload : Payload)
    (text text' : List Char) :
    Token.Level ⟨kind, payload, .covering p text⟩ ⟨kind, payload, .covering p' text'⟩ :=
  ⟨rfl, rfl, h.1, h.2⟩

theorem Position.Level.boundaries {p p' : Position} (h : p.Level p') (bs : List Boundary)
    (text text' : List Char) : List.Forall₂ Token.Level (bs.map (Boundary.token (.covering p text)))
      (bs.map (Boundary.token (.covering p' text'))) := by
  rw [List.forall₂_map_left_iff, List.forall₂_map_right_iff, List.forall₂_same]
  exact fun b _ => h.token b.kind (.level b.level) text text'

/-! ## Cuts -/

/-- A text and what there is of it with other line ends: all of it, or all but the carriage return
in front, which is counted as part of the line before. -/
inductive Facing : Position → List Char → Position → List Char → Prop
  | here {p p' : Position} {cs : List Char} : p.Level p' → Facing p cs p' (crlf cs)
  | broken {p p' : Position} {cs : List Char} :
      p.line = p'.line → Facing p ('\n' :: cs) p' ('\n' :: crlf cs)

namespace Rule

variable {text rest : List Char} {i : Nat}

theorem Cuts.ne_break (h : Cuts i text rest) (hi : i ≠ 2) (behind : List Char) :
    text ++ rest ≠ '\n' :: behind := by
  intro heq
  obtain ⟨c, u, rfl⟩ := List.exists_cons_of_ne_nil (denotes_ne_nil h.denotes)
  obtain rfl := (List.cons.inj heq).1
  simpa [Lexical.IsBlank, IsLetter, Lexical.OpensName, hi] using denotes_cons h.denotes

theorem head?_crlf (rest : List Char) :
    (crlf rest).head? = rest.head? ∨ ∃ behind, rest = '\n' :: behind := by
  cases rest with
  | nil => exact .inl rfl
  | cons c rest =>
    by_cases hc : c = '\n'
    · exact .inr ⟨rest, by rw [hc]⟩
    · exact .inl (by rw [Lexical.crlf_cons hc]; rfl)

/-- Names go on with neither of the two characters that end a line. -/
theorem namesWithin_crlf (rest : List Char) : NamesWithin (crlf rest) rest := by
  intro j w u hj hd hu
  induction rest generalizing w u with
  | nil => exact hu
  | cons c rest ih =>
    cases u with
    | nil => exact List.nil_prefix
    | cons d u =>
      by_cases hc : c = '\n'
      · subst hc
        obtain ⟨rfl, _⟩ := List.cons_prefix_cons.mp hu
        exact absurd (List.mem_append_right _ List.mem_cons_self) (not_mem_name (by decide) hd hj)
      · rw [Lexical.crlf_cons hc] at hu
        obtain ⟨rfl, within⟩ := List.cons_prefix_cons.mp hu
        have hd : Denotes j (w ++ [d] ++ u) := by rwa [List.append_assoc]
        exact List.cons_prefix_cons.mpr ⟨rfl, ih hd within⟩

theorem Stops.crlf (h : Stops rest) : Stops (crlf rest) := by
  intro c hc
  rcases head?_crlf rest with same | ⟨behind, rfl⟩
  · rw [same] at hc
    exact ⟨(h c hc).1, fun hash => mt Lexical.break_mem_crlf.mp ((h c hc).2 hash)⟩
  · exact absurd (.inr rfl) (h '\n' rfl).1

/-- What is cut off as a comment or as blanks takes in the carriage return behind it. -/
theorem Cuts.crlf_skip {p p' : Position} (h : Cuts i text rest) (hi : i = 0 ∨ i = 3)
    (same : p.Level p') : ∃ text' rest', crlf (text ++ rest) = text' ++ rest' ∧ Cuts i text' rest' ∧
      Facing (p.past text) rest (p'.past text') rest' := by
  have unbroken : '\n' ∉ text := by
    intro hmem
    rcases hi with rfl | rfl
    · obtain ⟨⟨v, rfl, hv⟩, _⟩ := cuts_comment.mp h
      exact hv (List.mem_of_ne_of_mem (by decide) hmem)
    · exact absurd ((cuts_blanks.mp h).1.2 _ hmem) (by decide)
  have past := same.past_crlf text
  rw [Lexical.crlf_eq_self unbroken] at past
  rw [Lexical.crlf_append, Lexical.crlf_eq_self unbroken]
  rcases head?_crlf rest with head | ⟨behind, rfl⟩
  · refine ⟨text, _, rfl, ?_, .here past⟩
    rcases hi with rfl | rfl
    · exact cuts_comment.mpr (head ▸ cuts_comment.mp h)
    · exact cuts_blanks.mpr (head ▸ cuts_blanks.mp h)
  · refine ⟨text ++ ['\r'], '\n' :: crlf behind, by simp, ?_, .broken ?_⟩
    · rcases hi with rfl | rfl
      · obtain ⟨⟨v, rfl, hv⟩, _⟩ := cuts_comment.mp h
        exact cuts_comment.mpr ⟨⟨v ++ ['\r'], rfl, by simp [hv]⟩, by simp⟩
      · obtain ⟨⟨hne, hall⟩, _⟩ := cuts_blanks.mp h
        refine cuts_blanks.mpr ⟨⟨by simp, ?_⟩, by simp [Lexical.IsBlank]⟩
        exact List.forall_mem_append.mpr ⟨hall, List.forall_mem_singleton.mpr (by decide)⟩
    · rw [Position.past_append]
      exact past.1

/-- Line ends belong to layout, the carriage returns of its comments to these comments. -/
theorem Cuts.crlf_indent {v : List Char} (h : Cuts 2 ('\n' :: v) rest) :
    Cuts 2 ('\n' :: crlf v) (crlf rest) := by
  obtain ⟨⟨_, heq, layout⟩, stops⟩ := cuts_indent.mp h
  obtain rfl := (List.cons.inj heq).2
  exact cuts_indent.mpr ⟨⟨_, rfl, layout.crlf⟩, stops.crlf⟩

/-- What is cut off as a token is the same text, or a comma with more white space behind it. -/
theorem Cuts.crlf_token {kind : TokenKind} {payload : Payload} (h : Cuts i text rest)
    (meant : Means i text kind payload) (unbroken : i ≠ 1 → '\n' ∉ text) :
    Cuts i (crlf text) (crlf rest) ∧ Means i (crlf text) kind payload := by
  by_cases comma : i = 1
  · subst comma
    obtain ⟨⟨v, rfl, hv⟩, hrest⟩ := cuts_comma.mp h
    have grown : IsComma (crlf (',' :: v)) := by
      rw [Lexical.crlf_cons (by decide)]
      exact ⟨_, rfl, Lexical.forall_mem_crlf (by decide) hv⟩
    cases meant with
    | comma _ =>
      refine ⟨cuts_comma.mpr ⟨grown, fun c hc => ?_⟩, .comma grown⟩
      rcases head?_crlf rest with head | ⟨behind, rfl⟩
      · exact hrest c (head ▸ hc)
      · exact absurd (.inr rfl) (hrest '\n' rfl)
  · rw [Lexical.crlf_eq_self (unbroken comma)]
    refine ⟨?_, meant⟩
    cases meant with
    | comma _ => exact absurd rfl comma
    | keyword _ _ => exact h.name (.inl rfl) ((namesWithin_crlf rest).ends text)
    | dqString _ => exact cuts_dqString.mpr (cuts_dqString.mp h)
    | sqString _ => exact cuts_sqString.mpr (cuts_sqString.mp h)
    | identifier _ => exact h.name (.inr rfl) ((namesWithin_crlf rest).ends text)

end Rule

/-! ## Tokens -/

/-- White space that was collected, and the same with other line ends. -/
inductive SameLine : Option (List Char) → Option (List Char) → Prop
  | none : SameLine none none
  | some {space space' : List Char} : '\n' ∈ space → '\n' ∈ space' →
      lastLine space = lastLine space' → SameLine (some space) (some space')

namespace SameLine

theorem across_eq {run run' : Option (List Char)} (h : SameLine run run') (t : Tracker) :
    t.across run = t.across run' := by
  cases h with
  | none => rfl
  | some broken broken' same => exact t.across_of_lastLine broken broken' same

theorem collected (run run' : Option (List Char)) (v : List Char) :
    SameLine (run.getD [] ++ '\n' :: v) (run'.getD [] ++ '\n' :: crlf v) := by
  refine .some (by simp) (by simp) ?_
  have last := Lexical.lastLine_crlf ('\n' :: v)
  rw [Lexical.crlf_break, ← List.singleton_append, lastLine_append List.mem_cons_self] at last
  rw [lastLine_append List.mem_cons_self, lastLine_append List.mem_cons_self, last]

end SameLine

/-- No literal that goes over a line end. -/
def Token.Unbroken (t : Token) : Prop := t.kind = .strLiteral → ∀ s ∈ t.text?, '\n' ∉ s.toList

instance : DecidablePred Token.Unbroken := fun t =>
  inferInstanceAs (Decidable (t.kind = .strLiteral → ∀ s ∈ t.text?, '\n' ∉ s.toList))

theorem Rule.Means.unbroken {i : Nat} {text : List Char} {kind : TokenKind} {payload : Payload}
    {span : Span} (h : Means i text kind payload) (token : (Token.mk kind payload span).Unbroken)
    (comma : i ≠ 1) : '\n' ∉ text := by
  cases h with
  | comma _ => exact absurd rfl comma
  | keyword hk hs =>
    have name : Denotes 4 text := ⟨_, hk, hs⟩
    exact break_not_mem name (.inl rfl)
  | @dqString v _ =>
    have inside := token rfl (String.ofList v) rfl
    rw [String.toList_ofList] at inside
    simp [inside]
  | @sqString v _ =>
    have inside := token rfl (String.ofList v) rfl
    rw [String.toList_ofList] at inside
    simp [inside]
  | identifier ht =>
    have name : Denotes 7 text := ht
    exact break_not_mem name (.inr rfl)

namespace Facing

variable {p p' : Position} {cs' : List Char}

/-- Only a line end can be taken in by what is in front of it. -/
theorem of_cuts {i : Nat} {text rest : List Char} (h : Facing p (text ++ rest) p' cs')
    (cut : Cuts i text rest) (hi : i ≠ 2) : p.Level p' ∧ cs' = crlf (text ++ rest) := by
  generalize hcs : text ++ rest = cs at h
  cases h with
  | here same => exact ⟨same, rfl⟩
  | broken _ => exact absurd hcs (cut.ne_break hi _)

/-- At a line end the carriage return is passed over, if nothing in front took it in. -/
theorem tokenizes_break {t : Tracker} {run : Option (List Char)} {cs : List Char} {ts : List Token}
    (h : Facing p ('\n' :: cs) p' cs')
    (line : ∀ {q : Position}, p.line = q.line →
      ∃ ts', Tokenizes q t run ('\n' :: crlf cs) ts' ∧ List.Forall₂ Token.Level ts ts') :
    ∃ ts', Tokenizes p' t run cs' ts' ∧ List.Forall₂ Token.Level ts ts' := by
  cases h with
  | here same =>
    obtain ⟨ts', cuts, level⟩ := line (q := p'.next '\r') same.1
    have return_ : Cuts 3 ['\r'] ('\n' :: crlf cs) :=
      Rule.cuts_blanks.mpr ⟨⟨by simp, by simp [IsBlank]⟩, by simp [IsBlank]⟩
    have split : crlf ('\n' :: cs) = ['\r'] ++ '\n' :: crlf cs := rfl
    exact ⟨ts', .skip split return_ (.inr rfl) cuts, level⟩
  | broken hline => exact line hline

end Facing

/-- With other line ends a text has the same tokens at the same lines and columns, by induction on how
it is cut. -/
theorem Tokenizes.crlf {p p' : Position} {t : Tracker} {run run' : Option (List Char)}
    {cs cs' : List Char} {ts : List Token} (h : Tokenizes p t run cs ts)
    (literals : ∀ token ∈ ts, token.Unbroken) (facing : Facing p cs p' cs')
    (collected : SameLine run run') :
    ∃ ts', Tokenizes p' t run' cs' ts' ∧ List.Forall₂ Token.Level ts ts' := by
  induction h generalizing p' run' cs' with
  | finish =>
    cases facing with
    | here same =>
      exact ⟨_, .finish, List.rel_append (same.boundaries _ _ _) (.cons (same.token _ _ _ _) .nil)⟩
  | skip heq cut hi _ ih =>
    subst heq
    obtain ⟨same, rfl⟩ := facing.of_cuts cut (by omega)
    obtain ⟨text', rest', heq, cut', facing⟩ := cut.crlf_skip hi same
    obtain ⟨ts', cuts, level⟩ := ih literals facing collected
    exact ⟨ts', .skip heq cut' hi cuts, level⟩
  | @indent p t run cs text rest ts heq cut _ ih =>
    obtain ⟨⟨v, rfl, _⟩, _⟩ := Rule.cuts_indent.mp cut
    subst heq
    refine facing.tokenizes_break fun {q} hq => ?_
    have level := (Position.level_next_break hq).past_crlf v
    obtain ⟨ts', cuts, places⟩ := ih literals (.here level) (.collected run run' v)
    have split : '\n' :: Lexical.crlf (v ++ rest) = '\n' :: Lexical.crlf v ++ Lexical.crlf rest :=
      congrArg _ (Lexical.crlf_append v rest)
    exact ⟨ts', .indent split cut.crlf_indent cuts, places⟩
  | @token p t run i cs text rest ts kind payload heq cut meant _ ih =>
    subst heq
    obtain ⟨_, here, behind⟩ := by
      simpa only [List.forall_mem_append, List.forall_mem_cons] using literals
    have noBreak : i ≠ 2 := by
      rintro rfl
      cases meant
    obtain ⟨same, rfl⟩ := facing.of_cuts cut noBreak
    obtain ⟨cut', meant'⟩ := cut.crlf_token meant (meant.unbroken here)
    obtain ⟨ts', cuts, level⟩ := ih behind (.here (same.past_crlf text)) .none
    rw [collected.across_eq t] at cuts ⊢
    refine ⟨_, .token (Lexical.crlf_append text rest) cut' meant' cuts, ?_⟩
    exact List.rel_append (same.boundaries _ _ _) (.cons (same.token _ _ _ _) level)

/-! ## Documents -/

/-- The same tokens at the same lines and columns go together. -/
def Pairing.level : Pairing where
  pairs := Token.Level
  word_eq h := by
    rw [Token.word, Token.word, Token.text?, Token.text?, h.kind, h.payload]
  context_eq h _ := by rw [Token.context, Token.context, h.payload]

theorem ReadFault.Alike.eq_of_level {f f' : ReadFault} (h : f.Alike .level f') : f = f' := by
  cases h with
  | endless => rfl
  | @unexpected t t' expected pair =>
    rw [ParseError.atSpan, ParseError.atSpan, Token.display, Token.display, pair.kind, pair.payload,
      pair.line, pair.column]
  | problem p spans =>
    obtain ⟨t, t', pair, rfl, rfl⟩ := spans
    rw [ParseError.atSpan, ParseError.atSpan, pair.line, pair.column]

theorem Ends.eq_of_level {α : Type} {x x' : Except ReadFault α} (h : Ends .level Eq x x') :
    x = x' := by
  cases h with
  | ok same => rw [same]
  | error alike => rw [alike.eq_of_level]

namespace Document

variable {threaded : Bool} {context : Context} {source : String} {tokens : List Token}

/-- A document in which no literal goes over a line end has the same tokens at the same lines and
columns if there is a carriage return in front of every line feed. So it is read as the same tree, or
the same is reported at the same place. -/
theorem tokenize_crlf (h : tokenize threaded context source = .ok tokens)
    (literals : ∀ token ∈ tokens, token.Unbroken) :
    (∃ tokens', tokenize threaded context (.ofList (crlf source.toList)) = .ok tokens' ∧
        List.Forall₂ Token.Level tokens tokens') ∧
      parse threaded context (.ofList (crlf source.toList)) = parse threaded context source := by
  obtain ⟨ts, rfl, cuts⟩ := tokenize_eq_ok.mp h
  obtain ⟨_, unbroken⟩ := List.forall_mem_cons.mp literals
  obtain ⟨ts', cuts', level⟩ := cuts.crlf unbroken (.here ⟨rfl, rfl⟩) .none
  have levels : List.Forall₂ Token.Level (.opening context :: ts) (.opening context :: ts') :=
    .cons ⟨rfl, rfl, rfl, rfl⟩ level
  have tokenized : tokenize threaded context (.ofList (crlf source.toList)) = .ok _ :=
    tokenize_eq_ok.mpr ⟨ts', rfl, by rwa [String.toList_ofList]⟩
  refine ⟨⟨_, tokenized, levels⟩, ?_⟩
  rw [parse, parse, tokenized, h]
  show (ofTokens _).mapError _ = (ofTokens _).mapError _
  rw [(ofTokens_alike (R := .level) levels (List.cons_ne_nil _ _)).eq_of_level]

/-- Three lines, with line ends behind a comment and a comma. -/
theorem tokenize_crlf_commented : ∃ tokens,
    tokenize false {} "# é\nSET 'é',\n \"b\" # end" = .ok tokens ∧
      (∀ token ∈ tokens, token.Unbroken) ∧
        (∃ tokens', tokenize false {} (.ofList (crlf "# é\nSET 'é',\n \"b\" # end".toList)) =
          .ok tokens' ∧ List.Forall₂ Token.Level tokens tokens') ∧
        parse false {} (.ofList (crlf "# é\nSET 'é',\n \"b\" # end".toList)) =
          parse false {} "# é\nSET 'é',\n \"b\" # end" :=
  ⟨_, tokenize_commented, by decide +kernel,
    tokenize_crlf tokenize_commented (by decide +kernel)⟩

end Document

end ScrapeConfig
