import ScrapeConfig.Proofs.Document.Joint

/-!
# The text of a document

The tokens of a document and the gaps between them are all of its text. A frame can be passed over, or
add to white space that is measured further on, but none is read twice, and none is left out.

Results:
1. `Token.OwnText`: the text that a token was read from.
2. `Lexical.Gap`: what can stand in front of a token, and what can stand behind the last one.
3. `Covered`: a text as the texts of tokens and the gaps around them. `Tokenizes.covered` says that the
   text of tokens is covered by them.
4. `Document.tokens_cover`: the text of a document.
-/

namespace ScrapeConfig

open Lexical (IsSpace IsBlank IsComma IsComment IsIdentifier Layout)
open Rule (Cuts)

/-! ## The texts of tokens -/

/-- The text is that of a token of this kind and with this payload. -/
inductive OwnText : TokenKind → Payload → List Char → Prop
  | keyword {k : TokenKind} {text : List Char} : k ∈ TokenKind.keywords →
      Keyword.normalize (String.ofList text) = k.label → OwnText k .none text
  | comma {space : List Char} : (∀ c ∈ space, IsSpace c) → OwnText .comma .none (',' :: space)
  | literal {quote : Char} {v : List Char} : quote = '"' ∨ quote = '\'' → quote ∉ v →
      OwnText .strLiteral (.text (String.ofList v)) (quote :: (v ++ [quote]))
  | identifier {text : List Char} : IsIdentifier text →
      OwnText .identifier (.text (String.ofList text)) text

theorem Rule.Means.ownText {i : Nat} {text : List Char} {kind : TokenKind} {payload : Payload}
    (h : Rule.Means i text kind payload) : OwnText kind payload text := by
  cases h with
  | comma h =>
    obtain ⟨space, rfl, hspace⟩ := h
    exact .comma hspace
  | keyword hk spells =>
    refine .keyword hk ?_
    rw [Keyword.normalize, String.toList_ofList,
      Keyword.normalizeChars_of_spells (Rule.mem_keywordNames.mpr ⟨_, hk, rfl⟩) spells,
      String.ofList_toList]
  | dqString h => exact .literal (.inl rfl) h
  | sqString h => exact .literal (.inr rfl) h
  | identifier h => exact .identifier h

/-- No token begins with a line break. -/
theorem Rule.Means.break_notMem {i : Nat} {text rest : List Char} {kind : TokenKind}
    {payload : Payload} (h : Rule.Means i text kind payload) : '\n' ∉ (text ++ rest).head? := by
  have named {j : Nat} (hd : Rule.Denotes j text) (hj : j = 4 ∨ j = 7) :
      '\n' ∉ (text ++ rest).head? := fun hmem => by
    rw [List.head?_append_of_ne_nil _ (Rule.denotes_ne_nil hd)] at hmem
    exact Rule.break_not_mem hd hj (List.mem_of_mem_head? hmem)
  cases h with
  | comma h =>
    obtain ⟨v, rfl, _⟩ := h
    exact fun hmem => absurd (Option.some.inj hmem) (by decide)
  | keyword hk spells => exact named (j := 4) ⟨_, hk, spells⟩ (.inl rfl)
  | dqString _ => exact fun hmem => absurd (Option.some.inj hmem) (by decide)
  | sqString _ => exact fun hmem => absurd (Option.some.inj hmem) (by decide)
  | identifier h => exact named (j := 7) h (.inr rfl)

/-! ## Gaps -/

/-- What can stand between two tokens as far as it has been read, with `rest` behind it: a comment
has its line break still in front of it. -/
def OpenGap (gap rest : List Char) : Prop :=
  Layout gap ∨ ∃ space comment, gap = space ++ comment ∧ Layout space ∧ IsComment comment ∧
    ∀ c ∈ rest.head?, c = '\n'

/-- What can stand behind the last token. -/
def LastGap (gap : List Char) : Prop :=
  ∃ space comment, gap = space ++ comment ∧ Layout space ∧ Trailing comment

theorem OpenGap.layout {gap rest : List Char} (h : OpenGap gap rest) (hne : rest ≠ [])
    (unbroken : '\n' ∉ rest.head?) : Layout gap := by
  rcases h with layout | ⟨_, _, _, _, _, further⟩
  · exact layout
  · obtain ⟨c, rest, rfl⟩ := List.exists_cons_of_ne_nil hne
    exact absurd (congrArg some (further c rfl)) unbroken

theorem OpenGap.last {gap : List Char} (h : OpenGap gap []) : LastGap gap := by
  rcases h with layout | ⟨space, comment, rfl, layout, hcomment, _⟩
  · exact ⟨gap, [], (List.append_nil _).symm, layout, .inl rfl⟩
  · exact ⟨space, comment, rfl, layout, .inr hcomment⟩

theorem layout_of_blanks {u : List Char} (h : ∀ c ∈ u, IsBlank c) : Layout u := by
  induction u with
  | nil => exact .nil
  | cons c u ih =>
    obtain ⟨hc, hu⟩ := List.forall_mem_cons.mp h
    exact .space (.inl hc) (ih hu)

theorem OpenGap.indent {gap text rest : List Char} (h : OpenGap gap (text ++ rest))
    (cut : Cuts 2 text rest) : Layout (gap ++ text) := by
  obtain ⟨⟨v, rfl, hv⟩, _⟩ := Rule.cuts_indent.mp cut
  rcases h with layout | ⟨space, comment, rfl, layout, hcomment, _⟩
  · exact Rule.Layout.append layout (.space (.inr rfl) hv)
  · rw [List.append_assoc]
    exact Rule.Layout.append layout (layout_trailing (.inr hcomment) hv)

theorem OpenGap.skip {gap text rest : List Char} {i : Nat} (h : OpenGap gap (text ++ rest))
    (cut : Cuts i text rest) (hi : i = 0 ∨ i = 3) : OpenGap (gap ++ text) rest := by
  rcases hi with rfl | rfl
  · obtain ⟨⟨v, rfl, hv⟩, further⟩ := Rule.cuts_comment.mp cut
    refine .inr ⟨gap, _, rfl, h.layout nofun ?_, ⟨v, rfl, hv⟩, further⟩
    exact fun hmem => absurd (Option.some.inj hmem) (by decide)
  · obtain ⟨⟨hne, blanks⟩, _⟩ := Rule.cuts_blanks.mp cut
    obtain ⟨c, text, rfl⟩ := List.exists_cons_of_ne_nil hne
    refine .inl (Rule.Layout.append (h.layout nofun fun hmem => ?_) (layout_of_blanks blanks))
    exact absurd (blanks _ (List.mem_cons.mpr (.inl (Option.some.inj hmem).symm))) (by decide)

/-! ## Coverage -/

/-- The text `rest`, which stands behind `before`, is that of the tokens and of the gaps around
them. -/
inductive Covered : (before rest : List Char) → List Token → Prop
  | close {before gap : List Char} : LastGap gap → Covered before gap []
  | token {before gap text rest : List Char} {t : Token} {ts : List Token} :
      Layout gap → OwnText t.kind t.payload text →
      t.span = .covering (.behind (before ++ gap)) text →
      Covered (before ++ gap ++ text) rest ts → Covered before (gap ++ text ++ rest) (t :: ts)

/-- The tokens that do not stand for the layout of a document or for its ends. -/
def Token.real (ts : List Token) : List Token := ts.filter (!·.kind.isStructural)

theorem Token.real_boundaries (bs : List Boundary) (span : Span) (ts : List Token) :
    real (bs.map (Boundary.token span) ++ ts) = real ts := by
  rw [real, List.filter_append, List.filter_eq_nil_iff.mpr]
  · rfl
  · rw [List.forall_mem_map]
    intro b _
    rw [b.isStructural_token]
    nofun

/-- By induction on how the text is cut, where the gap grows until a token comes. -/
theorem Tokenizes.covered {p : Position} {t : Tracker} {run : Option (List Char)} {cs : List Char}
    {ts : List Token} (h : Tokenizes p t run cs ts) {before gap : List Char}
    (place : p = .behind (before ++ gap)) (between : OpenGap gap cs) :
    Covered before (gap ++ cs) (Token.real ts) := by
  induction h generalizing before gap with
  | finish =>
    rw [Token.real_boundaries, List.append_nil]
    exact .close between.last
  | @skip p _ _ i cs text rest ts heq cut hi _ ih =>
    subst heq place
    rw [← List.append_assoc]
    refine ih ?_ (between.skip cut hi)
    rw [Position.past_behind, List.append_assoc]
  | @indent p _ _ cs text rest ts heq cut _ ih =>
    subst heq place
    rw [← List.append_assoc]
    refine ih ?_ (.inl (between.indent cut))
    rw [Position.past_behind, List.append_assoc]
  | @token p _ _ i cs text rest ts kind payload heq cut meant _ ih =>
    subst heq place
    have layout := between.layout
      (List.append_ne_nil_of_left_ne_nil (Rule.denotes_ne_nil cut.denotes) _) meant.break_notMem
    rw [Token.real_boundaries, Token.real, List.filter_cons_of_pos (by simp [meant.not_isStructural]),
      ← List.append_assoc]
    refine .token layout meant.ownText rfl ?_
    have behind := @ih (before ++ gap ++ text) [] (by rw [Position.past_behind, List.append_nil])
      (.inl .nil)
    exact behind

namespace Covered

variable {before rest : List Char} {ts : List Token}

/-- The text of a token is the slice that its span stands for. -/
theorem slice (h : Covered before rest ts) {t : Token} (ht : t ∈ ts) :
    ∃ front text back, rest = front ++ text ++ back ∧
      t.span = .covering (.behind (before ++ front)) text ∧ OwnText t.kind t.payload text := by
  induction h with
  | close _ => cases ht
  | @token before gap text rest first ts _ own spanned _ ih =>
    rcases List.mem_cons.mp ht with rfl | ht
    · exact ⟨gap, text, rest, rfl, spanned, own⟩
    · obtain ⟨front, text', back, rfl, spanned', own'⟩ := ih ht
      refine ⟨gap ++ text ++ front, text', back, by simp only [List.append_assoc], ?_, own'⟩
      rw [spanned']
      simp only [List.append_assoc]

theorem pairwise (h : Covered before rest ts) :
    ts.Pairwise fun s t => s.span.stop ≤ t.span.start := by
  induction h with
  | close _ => exact .nil
  | @token before gap text rest first ts _ _ spanned behind ih =>
    refine .cons (fun t ht => ?_) ih
    obtain ⟨front, _, _, _, spanned', _⟩ := behind.slice ht
    rw [spanned, spanned', Span.stop_covering]
    show _ ≤ byteLength _
    rw [byteLength_append _ front]
    exact Nat.le_add_right _ _

end Covered

namespace Document

/-- The tokens of a document that are not its layout stand in the order of the source and apart from
each other, each with its own text and the place of this text, and outside their texts there is white
space, and comments that end with their line. -/
theorem tokens_cover {threaded : Bool} {context : Context} {source : String} {tokens : List Token}
    (h : tokenize threaded context source = .ok tokens) :
    (Token.real tokens).Pairwise (fun s t => s.span.stop ≤ t.span.start) ∧
      (∀ t ∈ Token.real tokens, ∃ front text back, source.toList = front ++ text ++ back ∧
        t.span = .covering (.behind front) text ∧ OwnText t.kind t.payload text) ∧
      Covered [] source.toList (Token.real tokens) := by
  obtain ⟨ts, rfl, cuts⟩ := tokenize_eq_ok.mp h
  have covered : Covered [] source.toList (Token.real ts) := cuts.covered rfl (.inl .nil)
  have real : Token.real (.opening context :: ts) = Token.real ts :=
    List.filter_cons_of_neg (by simp [Token.opening, TokenKind.isStructural, TokenKind.structural])
  rw [real]
  exact ⟨covered.pairwise, fun t ht => covered.slice ht, covered⟩

/-- With a comment in front and at the end, a comma that goes on in the next line, and a character of
two bytes. -/
theorem tokenize_commented : tokenize false {} "# é\nSET 'é',\n \"b\" # end" = .ok [.opening {},
    ⟨.sameLevel, .level 0, ⟨5, 8, 2, 1⟩⟩, ⟨.set, .none, ⟨5, 8, 2, 1⟩⟩,
    ⟨.strLiteral, .text "é", ⟨9, 13, 2, 5⟩⟩, ⟨.comma, .none, ⟨13, 16, 2, 8⟩⟩,
    ⟨.strLiteral, .text "b", ⟨16, 19, 3, 2⟩⟩, ⟨.eof, .none, ⟨25, 25, 3, 11⟩⟩] := by
  have chars : "# é\nSET 'é',\n \"b\" # end".toList = ['#', ' ', 'é', '\n', 'S', 'E', 'T', ' ', '\'',
      'é', '\'', ',', '\n', ' ', '"', 'b', '"', ' ', '#', ' ', 'e', 'n', 'd'] := by decide +kernel
  have name : ['S', 'E', 'T'] ∈ Rule.keywordNames := by decide
  have set_ := Rule.Means.keyword (k := .set) (by decide) (Rule.spells_self name)
  have comment (v rest : List Char) (hv : '\n' ∉ v) (hrest : ∀ c ∈ rest.head?, c = '\n') :
      Cuts 0 ('#' :: v) rest := Rule.cuts_comment.mpr ⟨⟨v, rfl, hv⟩, hrest⟩
  have blank (c : Char) (rest : List Char) (hc : ¬ IsBlank c) : Cuts 3 [' '] (c :: rest) :=
    Rule.cuts_blanks.mpr ⟨⟨List.cons_ne_nil _ _, List.forall_mem_singleton.mpr (by decide)⟩,
      fun d hd => Option.some.inj hd ▸ hc⟩
  have single (rest : List Char) : Cuts 6 ['\'', 'é', '\''] rest :=
    Rule.cuts_sqString.mpr ⟨['é'], rfl, by decide⟩
  have double (rest : List Char) : Cuts 5 ['"', 'b', '"'] rest :=
    Rule.cuts_dqString.mpr ⟨['b'], rfl, by decide⟩
  have goesOn : IsComma [',', '\n', ' '] := ⟨['\n', ' '], rfl, by simp [IsSpace, IsBlank]⟩
  have comma (rest : List Char) : Cuts 1 [',', '\n', ' '] ('"' :: rest) :=
    Rule.cuts_comma.mpr ⟨goesOn, fun c hc => Option.some.inj hc ▸ by decide⟩
  have indent : Cuts 2 ['\n'] ['S', 'E', 'T', ' ', '\'', 'é', '\'', ',', '\n', ' ', '"', 'b', '"',
      ' ', '#', ' ', 'e', 'n', 'd'] := Rule.cuts_indent.mpr ⟨⟨[], rfl, .nil⟩, fun c hc => by
    rw [← Option.some.inj hc]
    exact ⟨by decide, fun h => absurd h (by decide)⟩⟩
  have cut : Tokenizes {} {} none _ _ :=
    .skip rfl (comment [' ', 'é'] _ (by decide) (by simp)) (.inl rfl) <|
      .indent rfl indent <| .token rfl (Rule.cuts_keyword name (by simp)) set_ <|
      .skip rfl (blank _ _ (by decide)) (.inr rfl) <|
      .token rfl (single _) (.sqString (v := ['é']) (by decide)) <|
      .token rfl (comma _) (.comma goesOn) <|
      .token rfl (double _) (.dqString (v := ['b']) (by decide)) <|
      .skip rfl (blank _ _ (by decide)) (.inr rfl) <|
      .skip rfl (comment [' ', 'e', 'n', 'd'] [] (by decide) (by simp)) (.inl rfl) .finish
  exact tokenize_eq_ok.mpr ⟨_, rfl, chars ▸ cut⟩

/-- The texts of its four tokens, and the gaps around them. -/
theorem tokens_cover_commented :
    ∃ tokens, tokenize false {} "# é\nSET 'é',\n \"b\" # end" = .ok tokens ∧
      (Token.real tokens).Pairwise (fun s t => s.span.stop ≤ t.span.start) ∧
      (∀ t ∈ Token.real tokens, ∃ front text back,
        "# é\nSET 'é',\n \"b\" # end".toList = front ++ text ++ back ∧
          t.span = .covering (.behind front) text ∧ OwnText t.kind t.payload text) ∧
      Covered [] "# é\nSET 'é',\n \"b\" # end".toList (Token.real tokens) :=
  ⟨_, tokenize_commented, tokens_cover tokenize_commented⟩

end Document

end ScrapeConfig
