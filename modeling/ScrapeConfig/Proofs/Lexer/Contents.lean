import ScrapeConfig.Proofs.Lexer.Boundaries

/-!
# Tokens without their places

What the tokens of a text are and what they carry does not depend on the place at which the text
stands, and of the white space in front of it only the last line matters.

Results:
1. `Yields`: what a text gives, wherever it stands. `Tokenizes.yields` and `Yields.tokenizes` say that
   these are its tokens without their places.
2. `Yields.of_cut`: the first text that is cut off, and what the rest gives. `Yields.recut` puts
   another rest behind it.
3. `Yields.of_lastLine`: white space that ends with the same line.
4. `Document.exists_tokens_iff`: a document has the tokens that its text gives.
-/

namespace ScrapeConfig

open Rule (Cuts)

/-- What a token is and what it carries. -/
abbrev Content := TokenKind × Payload

def Token.content (t : Token) : Content := (t.kind, t.payload)

def Boundary.content (b : Boundary) : Content := (b.kind, .level b.level)

/-- The boundaries that wait. -/
def Tracker.contents (t : Tracker) : List Content := t.pending.map Boundary.content

theorem Boundary.map_content (bs : List Boundary) (span : Span) :
    (bs.map (Boundary.token span)).map Token.content = bs.map Boundary.content := by
  rw [List.map_map]
  rfl

/-- What a text gives, with the white space that was collected in front of it. -/
inductive Yields : Tracker → Option (List Char) → List Char → List Content → Prop
  | finish {t : Tracker} {run : Option (List Char)} :
      Yields t run [] (t.finish.contents ++ [(.eof, .none)])
  | skip {t : Tracker} {run : Option (List Char)} {i : Nat} {text rest : List Char}
      {ws : List Content} : Cuts i text rest → i = 0 ∨ i = 3 →
      Yields t run rest ws → Yields t run (text ++ rest) ws
  | indent {t : Tracker} {run : Option (List Char)} {text rest : List Char} {ws : List Content} :
      Cuts 2 text rest → Yields t (some (run.getD [] ++ text)) rest ws →
      Yields t run (text ++ rest) ws
  | token {t : Tracker} {run : Option (List Char)} {i : Nat} {text rest : List Char}
      {ws : List Content} {kind : TokenKind} {payload : Payload} :
      Cuts i text rest → Rule.Means i text kind payload →
      Yields (t.across run).settled none rest ws →
      Yields t run (text ++ rest) ((t.across run).contents ++ (kind, payload) :: ws)

/-- Of the white space that was collected only the last line matters. -/
theorem Tracker.across_of_lastLine (t : Tracker) {space space' : List Char}
    (broken : '\n' ∈ space) (broken' : '\n' ∈ space') (same : lastLine space = lastLine space') :
    t.across (some space) = t.across (some space') := by
  rw [across, across, indent, indent, measure_eq broken, measure_eq broken', same]

section

variable {t : Tracker} {run : Option (List Char)} {text rest rest' cs : List Char}
  {ws : List Content} {i : Nat}

theorem Tokenizes.yields {p : Position} {ts : List Token} (h : Tokenizes p t run cs ts) :
    Yields t run cs (ts.map Token.content) := by
  induction h with
  | finish =>
    rw [List.map_append, Boundary.map_content]
    exact .finish
  | skip heq cut hi _ ih => exact heq ▸ .skip cut hi ih
  | indent heq cut _ ih => exact heq ▸ .indent cut ih
  | token heq cut meant _ ih =>
    rw [List.map_append, Boundary.map_content, List.map_cons]
    exact heq ▸ .token cut meant ih

theorem Yields.tokenizes (h : Yields t run cs ws) (p : Position) :
    ∃ ts, Tokenizes p t run cs ts ∧ ts.map Token.content = ws := by
  induction h generalizing p with
  | finish =>
    refine ⟨_, .finish, ?_⟩
    rw [List.map_append, Boundary.map_content]
    rfl
  | @skip _ _ _ text _ _ cut hi _ ih =>
    obtain ⟨ts, cuts, hts⟩ := ih (p.past text)
    exact ⟨ts, .skip rfl cut hi cuts, hts⟩
  | @indent _ _ text _ _ cut _ ih =>
    obtain ⟨ts, cuts, hts⟩ := ih (p.past text)
    exact ⟨ts, .indent rfl cut cuts, hts⟩
  | @token _ _ _ text _ _ _ _ cut meant _ ih =>
    obtain ⟨ts, cuts, hts⟩ := ih (p.past text)
    refine ⟨_, .token rfl cut meant cuts, ?_⟩
    rw [List.map_append, Boundary.map_content, List.map_cons, hts]
    rfl

namespace Yields

theorem unique {ws' : List Content} (h : Yields t run cs ws) (h' : Yields t run cs ws') :
    ws = ws' := by
  obtain ⟨ts, cuts, rfl⟩ := h.tokenizes {}
  obtain ⟨ts', cuts', rfl⟩ := h'.tokenizes {}
  rw [cuts.unique cuts']

/-- What the text that is cut off stands for, and what is behind it. -/
theorem of_cut (h : Yields t run (text ++ rest) ws) (cut : Cuts i text rest) :
    ((i = 0 ∨ i = 3) ∧ Yields t run rest ws) ∨
      (i = 2 ∧ Yields t (some (run.getD [] ++ text)) rest ws) ∨
        ∃ kind payload ws', Rule.Means i text kind payload ∧
          ws = (t.across run).contents ++ (kind, payload) :: ws' ∧
          Yields (t.across run).settled none rest ws' := by
  generalize hcs : text ++ rest = cs at h
  cases h with
  | finish => exact absurd (List.append_eq_nil_iff.mp hcs).1 (Rule.denotes_ne_nil cut.denotes)
  | skip cut' hi h =>
    obtain ⟨rfl, rfl, rfl⟩ := cut.unique cut' hcs
    exact .inl ⟨hi, h⟩
  | indent cut' h =>
    obtain ⟨rfl, rfl, rfl⟩ := cut.unique cut' hcs
    exact .inr (.inl ⟨rfl, h⟩)
  | token cut' meant h =>
    obtain ⟨rfl, rfl, rfl⟩ := cut.unique cut' hcs
    exact .inr (.inr ⟨_, _, _, meant, rfl, h⟩)

theorem of_skip (h : Yields t run (text ++ rest) ws) (cut : Cuts i text rest)
    (hi : i = 0 ∨ i = 3) : Yields t run rest ws := by
  rcases h.of_cut cut with ⟨_, h⟩ | ⟨rfl, _⟩ | ⟨_, _, _, meant, _⟩
  · exact h
  · exact absurd hi (by decide)
  · rcases hi with rfl | rfl <;> cases meant

theorem of_indent (h : Yields t run (text ++ rest) ws) (cut : Cuts 2 text rest) :
    Yields t (some (run.getD [] ++ text)) rest ws := by
  rcases h.of_cut cut with ⟨hi, _⟩ | ⟨_, h⟩ | ⟨_, _, _, meant, _⟩
  · exact absurd hi (by decide)
  · exact h
  · cases meant

/-- What is passed over gives nothing. -/
theorem skip_iff (cut : Cuts i text rest) (hi : i = 0 ∨ i = 3) :
    Yields t run (text ++ rest) ws ↔ Yields t run rest ws :=
  ⟨fun h => h.of_skip cut hi, .skip cut hi⟩

/-- Layout gives nothing by itself, and is collected. -/
theorem indent_iff (cut : Cuts 2 text rest) :
    Yields t run (text ++ rest) ws ↔ Yields t (some (run.getD [] ++ text)) rest ws :=
  ⟨fun h => h.of_indent cut, .indent cut⟩

/-- A text with a meaning gives the boundaries in front of it, and its own token. -/
theorem token_iff {kind : TokenKind} {payload : Payload} (cut : Cuts i text rest)
    (meant : Rule.Means i text kind payload) :
    Yields t run (text ++ rest) ws ↔ ∃ ws',
      ws = (t.across run).contents ++ (kind, payload) :: ws' ∧
        Yields (t.across run).settled none rest ws' := by
  constructor
  · intro h
    rcases h.of_cut cut with ⟨rfl | rfl, _⟩ | ⟨rfl, _⟩ | ⟨_, _, ws', meant', rfl, behind⟩
    · cases meant
    · cases meant
    · cases meant
    · obtain ⟨rfl, rfl⟩ := meant.unique meant'
      exact ⟨ws', rfl, behind⟩
  · rintro ⟨ws', rfl, behind⟩
    exact .token cut meant behind

/-- The text that is cut off with another text behind it. -/
theorem recut (h : Yields t run (text ++ rest) ws) (cut : Cuts i text rest)
    (cut' : Cuts i text rest')
    (onward : ∀ {t run ws}, Yields t run rest ws → Yields t run rest' ws) :
    Yields t run (text ++ rest') ws := by
  rcases h.of_cut cut with ⟨hi, behind⟩ | ⟨rfl, behind⟩ | ⟨_, _, _, meant, rfl, behind⟩
  · exact .skip cut' hi (onward behind)
  · exact .indent cut' (onward behind)
  · exact .token cut' meant (onward behind)

/-- No text that gives something has a stray character in it. -/
theorem ne_stray {p : Position} {fs : List Frame} (h : Yields t run cs ws)
    (segments : Segments p cs fs) : ∀ f ∈ fs, f.pattern ≠ some 8 := by
  induction segments generalizing t run ws with
  | finish => exact List.forall_mem_singleton.mpr nofun
  | piece heq cut _ ih =>
    subst heq
    rw [List.forall_mem_cons]
    rcases h.of_cut cut with ⟨rfl | rfl, h⟩ | ⟨rfl, h⟩ | ⟨_, _, _, meant, _, h⟩
    · exact ⟨by simp, ih h⟩
    · exact ⟨by simp, ih h⟩
    · exact ⟨by simp, ih h⟩
    · refine ⟨fun stray => ?_, ih h⟩
      rw [Option.some.inj stray] at meant
      cases meant

/-- Whether a text gives something does not depend on what is in front of it, by induction on how it is
cut. -/
theorem elsewhere (h : Yields t run cs ws) (t' : Tracker) (run' : Option (List Char)) :
    ∃ ws', Yields t' run' cs ws' := by
  induction h generalizing t' run' with
  | finish => exact ⟨_, .finish⟩
  | skip cut hi _ ih =>
    obtain ⟨ws', behind⟩ := ih t' run'
    exact ⟨ws', .skip cut hi behind⟩
  | indent cut _ ih =>
    obtain ⟨ws', behind⟩ := ih t' _
    exact ⟨ws', .indent cut behind⟩
  | token cut meant _ ih =>
    obtain ⟨ws', behind⟩ := ih _ _
    exact ⟨_, .token cut meant behind⟩

/-! ## Collected white space -/

/-- So a text gives the same behind white space that ends with the same line, by induction on how it
is cut. -/
theorem of_lastLine {space space' : List Char} (h : Yields t (some space) cs ws)
    (broken : '\n' ∈ space) (broken' : '\n' ∈ space') (same : lastLine space = lastLine space') :
    Yields t (some space') cs ws := by
  generalize hrun : some space = run at h
  induction h generalizing space space' with
  | finish => exact .finish
  | skip cut hi _ ih => exact .skip cut hi (ih broken broken' same hrun)
  | indent cut _ ih =>
    subst hrun
    refine .indent cut (ih (List.mem_append_left _ broken) (List.mem_append_left _ broken') ?_ rfl)
    exact lastLine_append_congr same _
  | @token t _ _ _ _ _ _ _ cut meant behind _ =>
    subst hrun
    rw [t.across_of_lastLine broken broken' same] at behind ⊢
    exact .token cut meant behind

end Yields

end

/-- Whether a document has tokens, and which, is read off what its text gives. -/
theorem Document.exists_tokens_iff {threaded : Bool} {context : Context} {source : String}
    {ws : List Content} :
    (∃ tokens, tokenize threaded context source = .ok tokens ∧
        tokens.map Token.content = (Token.opening context).content :: ws) ↔
      Yields {} none source.toList ws := by
  constructor
  · rintro ⟨tokens, h, same⟩
    obtain ⟨ts, rfl, cuts⟩ := tokenize_eq_ok.mp h
    obtain rfl := (List.cons.inj same).2
    exact cuts.yields
  · intro h
    obtain ⟨ts, cuts, rfl⟩ := h.tokenizes {}
    exact ⟨_, tokenize_eq_ok.mpr ⟨ts, rfl, cuts⟩, rfl⟩

end ScrapeConfig
