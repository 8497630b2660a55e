import ScrapeConfig.Proofs.Lexer.Tokens

/-!
# Words

What the grammar of documents sees of a token: its kind, and the text of a name, be it a literal or
an identifier.

Results:
1. `Token.word`: the word of a token.
2. `Tidy`: the shape of everything that the lexer gives. A block opens, and a line begins, in front
   of a token that is no boundary itself, and the end of input comes last and only once.
3. `tidy_of_tokenizes`: the tokens of a text are tidy.
-/

namespace ScrapeConfig

inductive Word where
  | name (text : String)
  | mark (kind : TokenKind)
  deriving DecidableEq, Repr

/-- The kinds of tokens that are names. -/
def TokenKind.IsName (k : TokenKind) : Prop := k = .strLiteral ∨ k = .identifier

instance : DecidablePred TokenKind.IsName := fun k =>
  inferInstanceAs (Decidable (k = .strLiteral ∨ k = .identifier))

def Token.word (t : Token) : Word :=
  if t.kind.IsName then .name (t.text?.getD "") else .mark t.kind

theorem Token.word_eq_name_iff {t : Token} {text : String} :
    t.word = .name text ↔ t.kind.IsName ∧ t.text?.getD "" = text := by
  rw [word]
  split
  · next name => rw [Word.name.injEq, and_iff_right name]
  · next mark => exact iff_of_false nofun fun h => mark h.1

theorem Token.word_eq_mark_iff {t : Token} {k : TokenKind} :
    t.word = .mark k ↔ t.kind = k ∧ ¬ k.IsName := by
  rw [word]
  split
  · next name => exact iff_of_false nofun fun h => h.2 (h.1 ▸ name)
  · next mark =>
    rw [Word.mark.injEq]
    exact ⟨fun h => ⟨h, h ▸ mark⟩, And.left⟩

namespace Word

/-- A name, a keyword or a comma. -/
def IsContent : Word → Prop
  | .name _ => True
  | .mark k => k.isStructural = false

instance : DecidablePred IsContent
  | .name _ => inferInstanceAs (Decidable True)
  | .mark k => inferInstanceAs (Decidable (k.isStructural = false))

theorem IsContent.ne_eof {w : Word} (h : w.IsContent) : w ≠ .mark .eof := by
  rintro rfl
  exact absurd h (by decide)

/-- What a line begins with: a boundary that opens a block or that stays on its level. -/
def BeginsLine (w : Word) : Prop := w = .mark .blockOpen ∨ w = .mark .sameLevel

theorem IsContent.not_beginsLine {w : Word} (h : w.IsContent) : ¬ w.BeginsLine := by
  rintro (rfl | rfl) <;> exact absurd h (by decide)

end Word

/-- The shape of the words of a document. -/
inductive Tidy : List Word → Prop
  | eof : Tidy [.mark .eof]
  | line {b w : Word} {ws : List Word} :
      b.BeginsLine → w.IsContent → Tidy (w :: ws) → Tidy (b :: w :: ws)
  | word {w : Word} {ws : List Word} :
      ¬ w.BeginsLine → w ≠ .mark .eof → Tidy ws → Tidy (w :: ws)

theorem Tidy.ne_nil {ws : List Word} (h : Tidy ws) : ws ≠ [] := by
  cases h <;> simp

theorem Tidy.tail {w : Word} {ws : List Word} (h : Tidy (w :: ws)) (hw : w ≠ .mark .eof) :
    Tidy ws := by
  cases h with
  | eof => exact absurd rfl hw
  | line _ _ h => exact h
  | word _ _ h => exact h

theorem Tidy.content {b w : Word} {ws : List Word} (h : Tidy (b :: w :: ws)) (hb : b.BeginsLine) :
    w.IsContent := by
  cases h with
  | line _ hw _ => exact hw
  | word hb' _ _ => exact absurd hb hb'

/-! ## Words of the lexer -/

namespace Tracker

/-- Boundaries that close blocks. -/
def Closing (bs : List Boundary) : Prop := ∀ b ∈ bs, b.kind = .blockClose

theorem closing_leave (target level : Nat) (enclosing : List Nat) :
    Closing (leave target level enclosing).1 := by
  induction enclosing generalizing level with
  | nil => exact List.forall_mem_nil _
  | cons outer rest ih =>
    rw [leave]
    split
    · exact List.forall_mem_cons.mpr ⟨rfl, ih outer⟩
    · exact List.forall_mem_nil _

theorem closing_closeAll (level : Nat) (enclosing : List Nat) :
    Closing (finish.closeAll level enclosing).1 := by
  induction enclosing generalizing level with
  | nil => exact nofun
  | cons outer rest ih => exact List.forall_mem_cons.mpr ⟨rfl, ih outer⟩

/-- What white space announces: blocks that are left, and then a boundary of another kind. -/
theorem pending_indent {t : Tracker} (ht : t.pending = []) (space : List Char) :
    ∃ bs b, (t.indent space).pending = bs ++ [b] ∧ Closing bs ∧ b.kind ≠ .blockClose := by
  rw [indent, moveTo, ht]
  split
  · exact ⟨[], _, rfl, List.forall_mem_nil _, TokenKind.noConfusion⟩
  · split
    · exact ⟨[], _, rfl, List.forall_mem_nil _, TokenKind.noConfusion⟩
    · refine ⟨_, _, rfl, closing_leave _ _ _, ?_⟩
      split <;> exact TokenKind.noConfusion

theorem closing_finish {t : Tracker} (ht : t.pending = []) : Closing t.finish.pending := by
  show Closing (t.pending ++ (finish.closeAll t.level t.enclosing).1)
  rw [ht]
  exact closing_closeAll _ _

end Tracker

theorem Boundary.word_token (b : Boundary) (span : Span) : (b.token span).word = .mark b.kind := by
  cases b <;> rfl

theorem Tidy.closing {bs : List Boundary} (hbs : Tracker.Closing bs) {ws : List Word}
    (h : Tidy ws) : Tidy (bs.map (fun b => .mark b.kind) ++ ws) := by
  induction bs with
  | nil => exact h
  | cons b bs ih =>
    obtain ⟨hb, hbs⟩ := List.forall_mem_cons.mp hbs
    rw [List.map_cons, List.cons_append, hb]
    exact .word (by simp [Word.BeginsLine]) (by simp) (ih hbs)

/-- The boundaries that white space announces stand in front of a word that is none. -/
theorem Tidy.across {t : Tracker} (ht : t.pending = []) (run : Option (List Char)) {w : Word}
    {ws : List Word} (hw : w.IsContent) (h : Tidy (w :: ws)) :
    Tidy ((t.across run).pending.map (fun b => .mark b.kind) ++ w :: ws) := by
  cases run with
  | none =>
    show Tidy (t.pending.map _ ++ w :: ws)
    rw [ht]
    exact h
  | some space =>
    obtain ⟨bs, b, hp, hbs, hb⟩ := Tracker.pending_indent ht space
    show Tidy ((t.indent space).pending.map _ ++ w :: ws)
    rw [hp, List.map_append, List.append_assoc]
    refine Tidy.closing hbs ?_
    cases b with
    | blockOpen _ => exact .line (.inl rfl) hw h
    | sameLevel _ => exact .line (.inr rfl) hw h
    | blockClose _ => exact absurd rfl hb
    | badIndent _ => exact .word (by simp [Word.BeginsLine, Boundary.kind]) (by simp [Boundary.kind]) h

/-- What a text means is a word of content. -/
theorem isContent_of_means {i : Nat} {text : List Char} {kind : TokenKind} {payload : Payload}
    (h : Rule.Means i text kind payload) (span : Span) :
    (Token.mk kind payload span).word.IsContent := by
  cases h with
  | comma _ => exact rfl
  | keyword hk _ =>
    have names : ∀ k ∈ TokenKind.keywords, ¬ k.IsName := by decide
    rw [Token.word, if_neg (names _ hk)]
    exact Keyword.not_isStructural hk
  | dqString _ => trivial
  | sqString _ => trivial
  | identifier _ => trivial

/-- The words of a text, by induction on how it is cut. -/
theorem tidy_of_tokenizes {p : Position} {t : Tracker} {run : Option (List Char)} {cs : List Char}
    {ts : List Token} (h : Tokenizes p t run cs ts) (ht : t.pending = []) :
    Tidy (ts.map Token.word) := by
  induction h with
  | finish =>
    rw [List.map_append, List.map_map]
    simp only [Function.comp_def, Boundary.word_token]
    exact Tidy.closing (Tracker.closing_finish ht) .eof
  | skip _ _ _ _ ih => exact ih ht
  | indent _ _ _ ih => exact ih ht
  | @token p t run i cs text rest ts kind payload _ cut meant _ ih =>
    have content := isContent_of_means meant (.covering p text)
    rw [List.map_append, List.map_map, List.map_cons]
    simp only [Function.comp_def, Boundary.word_token]
    exact Tidy.across ht run content (.word content.not_beginsLine content.ne_eof (ih rfl))

end ScrapeConfig
