import ScrapeConfig.Proofs.Document.Word

/-!
# What texts say

The words of the tokens of a text, without the places at which the tokens stand. A text says the
same words wherever it stands, and no others.

Results:
1. `says_end`, `says_skip`, `says_indent`, `says_token`: how the words of a text come about.
2. `says_of_tokenizes`, `Says.eq_of_tokenizes`: the words of a text do not depend on its place.
3. `Trailing`, `says_trailing`: a text that ends with a comment.
-/

namespace ScrapeConfig

/-- The words of a text, wherever it stands. -/
def Says (t : Tracker) (r : Option (List Char)) (cs : List Char) (ws : List Word) : Prop :=
  ∀ p, ∃ ts, Tokenizes p t r cs ts ∧ ts.map Token.word = ws

/-- The words of boundaries that wait. -/
def Tracker.waiting (t : Tracker) : List Word := t.pending.map fun b => .mark b.kind

section

variable {t : Tracker} {r : Option (List Char)} {cs : List Char} {ws : List Word}

theorem map_word_boundaries (bs : List Boundary) (span : Span) :
    (bs.map (Boundary.token span)).map Token.word = bs.map fun b => .mark b.kind := by
  rw [List.map_map]
  exact List.map_congr_left fun b _ => b.word_token span

theorem says_end (t : Tracker) (r : Option (List Char)) :
    Says t r [] (t.finish.waiting ++ [.mark .eof]) := fun p => by
  refine ⟨_, .finish, ?_⟩
  rw [List.map_append, map_word_boundaries]
  rfl

theorem says_skip {i : Nat} {text : List Char} (h : Says t r cs ws) (cut : Rule.Cuts i text cs)
    (hi : i = 0 ∨ i = 3) : Says t r (text ++ cs) ws := fun p => by
  obtain ⟨ts, cuts, hws⟩ := h (p.past text)
  exact ⟨ts, .skip rfl cut hi cuts, hws⟩

theorem says_indent {text : List Char} (h : Says t (some (r.getD [] ++ text)) cs ws)
    (cut : Rule.Cuts 2 text cs) : Says t r (text ++ cs) ws := fun p => by
  obtain ⟨ts, cuts, hws⟩ := h (p.past text)
  exact ⟨ts, .indent rfl cut cuts, hws⟩

theorem says_token {i : Nat} {text : List Char} {kind : TokenKind} {payload : Payload} {w : Word}
    (h : Says (t.across r).settled none cs ws) (cut : Rule.Cuts i text cs)
    (meant : Rule.Means i text kind payload) (hw : ∀ span, (Token.mk kind payload span).word = w) :
    Says t r (text ++ cs) ((t.across r).waiting ++ w :: ws) := fun p => by
  obtain ⟨ts, cuts, hws⟩ := h (p.past text)
  refine ⟨_, .token rfl cut meant cuts, ?_⟩
  rw [List.map_append, map_word_boundaries, List.map_cons, hw, hws]
  rfl

/-- The words of a text, by induction on how it is cut. -/
theorem says_of_tokenizes {p : Position} {ts : List Token} (h : Tokenizes p t r cs ts) :
    Says t r cs (ts.map Token.word) := by
  induction h with
  | finish =>
    rw [List.map_append, map_word_boundaries]
    exact says_end _ _
  | skip heq cut hi _ ih => exact heq ▸ says_skip ih cut hi
  | indent heq cut _ ih => exact heq ▸ says_indent ih cut
  | token heq cut meant _ ih =>
    rw [List.map_append, map_word_boundaries, List.map_cons]
    subst heq
    exact says_token ih cut meant fun _ => rfl

theorem Says.eq_of_tokenizes (h : Says t r cs ws) {p : Position} {ts : List Token}
    (cuts : Tokenizes p t r cs ts) : ts.map Token.word = ws := by
  obtain ⟨ts', cuts', rfl⟩ := h p
  rw [cuts.unique cuts']

/-! ## The end of a text -/

/-- At most a comment is left. -/
def Trailing (cs : List Char) : Prop := cs = [] ∨ Lexical.IsComment cs

/-- A comment that is not ended by a line break is no layout: it is all that is left. -/
theorem Rule.Stops.trailing_or (h : Rule.Stops cs) :
    Trailing cs ∨ ∃ c rest, cs = c :: rest ∧ ¬ Lexical.IsSpace c ∧ c ≠ '#' := by
  cases cs with
  | nil => exact .inl (.inl rfl)
  | cons c rest =>
    obtain ⟨hc, further⟩ := h c rfl
    by_cases comment : c = '#'
    · subst comment
      exact .inl (.inr ⟨rest, rfl, fun hmem => further rfl (List.mem_cons_of_mem _ hmem)⟩)
    · exact .inr ⟨c, rest, rfl, hc, comment⟩

theorem says_trailing (hcs : Trailing cs) (t : Tracker) (r : Option (List Char)) :
    Says t r cs (t.finish.waiting ++ [.mark .eof]) := by
  rcases hcs with rfl | comment
  · exact says_end t r
  · have cut : Rule.Cuts 0 cs [] := Rule.cuts_comment.mpr ⟨comment, nofun⟩
    have said := says_skip (says_end t r) cut (.inl rfl)
    rwa [List.append_nil] at said

end

end ScrapeConfig
