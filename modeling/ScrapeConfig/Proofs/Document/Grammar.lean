import ScrapeConfig.Document.Load
import ScrapeConfig.Proofs.Document.Printing
import ScrapeConfig.Proofs.Document.Productions
import ScrapeConfig.Proofs.Document.Sentence

/-!
# What can be read

A document whose text can be cut into tokens can be read if and only if no line goes back to a level
that is not there, its words are a sentence of the grammar, and the sentence keeps to three
conditions: auths are defined before they are used, metrics have a name and a type, and the options
of services fit. What is read then is what the sentence describes.

Results:
1. `Document.section_reads`: the reader of sections.
2. `Document.valid_iff`: what the readers of the sections ask for are the three conditions.
3. `Document.of_ofTokens`, `Document.ofTokens_ok`: the value of what can be read.
4. `Document.readable_iff`: what can be read.
-/

namespace ScrapeConfig.Document

open Syntax (StackItem Section Mention ServiceSection MetricBlock sameLevels)
open ScrapeConfig.Stream (Lines of_expect of_expectText expect_ok expectText_ok block_reads strip
  skip_ok)

variable {context : Context} {s t : Stream} {ws : List Word}

/-! ## Sections -/

def StackItemValid (context : Context) (d : Draft) : StackItem → Prop
  | .service x => ServiceValid context d.auths x
  | .auth _ => True

def SectionValid (context : Context) (d : Draft) : Section → Prop
  | .dataset => True
  | .auth _ => True
  | .stack name items =>
    OkLines (StackItemValid context) (StackItem.apply context name) d items.toList
  | .service x => ServiceValid context d.auths x

theorem stackItem_lines (context : Context) (stack : String) :
    Lines (stackItem context stack) StackItem.words (StackItemValid context)
      (StackItem.apply context stack) where
  reads d := by
    have services := (service_reads context d.auths (some stack)).map d.add
    have auths := (auth_reads d.auths).map fun auths => { d with auths }
    constructor
    case sound =>
      intro s t ws d' hs tidy e
      rw [stackItem] at e
      split at e
      · obtain ⟨x, ws, rfl, valid, rfl, rest⟩ := services.sound hs tidy e
        exact ⟨.service x, ws, rfl, valid, rfl, rest⟩
      · obtain ⟨x, ws, rfl, _, rfl, rest⟩ := auths.sound hs tidy e
        exact ⟨.auth x, ws, rfl, trivial, rfl, rest⟩
      · cases e
    case complete =>
      intro s tree ws hs lineEnd valid
      cases tree with
      | service x =>
        rw [stackItem, hs.kind_eq]
        exact services.complete hs lineEnd valid
      | auth x =>
        rw [stackItem, hs.kind_eq]
        exact auths.complete hs lineEnd trivial
  content x := by
    cases x <;> exact ⟨_, _, rfl, rfl⟩

theorem section_reads (context : Context) (d : Draft) :
    Reads (documentSection context d) Section.words (SectionValid context d)
      (Section.apply context d) := by
  have services := (service_reads context d.auths none).map d.add
  have auths := (auth_reads d.auths).map fun auths => { d with auths }
  constructor
  case sound =>
    intro s t ws d' hs tidy e
    rw [documentSection] at e
    split at e
    · next hk =>
      obtain ⟨rfl, rfl⟩ := Prod.mk.inj (Except.ok.inj e)
      obtain ⟨ws, rfl, rest⟩ := hs.pass tidy hk (by decide) nofun
      exact ⟨.dataset, ws, rfl, trivial, rfl, rest⟩
    · obtain ⟨x, ws, rfl, _, rfl, rest⟩ := auths.sound hs tidy e
      exact ⟨.auth x, ws, rfl, trivial, rfl, rest⟩
    · obtain ⟨⟨_, s₁⟩, e₁, e⟩ := bind_eq_ok.mp e
      obtain ⟨ws, rfl, h₁, tidy⟩ := of_expect hs tidy e₁ (by decide) nofun
      obtain ⟨⟨name, s₂⟩, e₂, e⟩ := bind_eq_ok.mp e
      obtain ⟨ws, rfl, h₂, tidy⟩ := of_expectText h₁ tidy e₂
      obtain ⟨items, ws, rfl, valid, rfl, rest⟩ :=
        (block_reads (stackItem_lines context name) d).sound h₂ tidy e
      exact ⟨.stack name items, ws, rfl, valid, rfl, rest⟩
    · obtain ⟨x, ws, rfl, valid, rfl, rest⟩ := services.sound hs tidy e
      exact ⟨.service x, ws, rfl, valid, rfl, rest⟩
    · cases e
  case complete =>
    intro s tree ws hs lineEnd valid
    cases tree with
    | dataset =>
      refine ⟨s.advance, ?_, hs.advance nofun⟩
      rw [documentSection, hs.kind_eq]
      rfl
    | auth x =>
      rw [documentSection, hs.kind_eq]
      exact auths.complete hs lineEnd trivial
    | stack name items =>
      obtain ⟨e₁, h₁⟩ := expect_ok hs nofun
      obtain ⟨e₂, h₂⟩ := expectText_ok h₁ "stack name"
      obtain ⟨t, e₃, h₃⟩ :=
        (block_reads (stackItem_lines context name) d).complete h₂ lineEnd valid
      refine ⟨t, ?_, h₃⟩
      rw [documentSection, hs.kind_eq]
      exact bind_ok e₁ <| bind_ok e₂ e₃
    | service x =>
      rw [documentSection, hs.kind_eq]
      exact services.complete hs lineEnd valid

theorem section_content (x : Section) : ∃ w ws, x.words = w :: ws ∧ w.IsContent := by
  cases x <;> exact ⟨_, _, rfl, rfl⟩

/-! ## Lines of sections -/

/-- The words of sections behind the first one, up to the end of the document. -/
def behindWords (lines : List (Nat × Section)) (behind : Nat) : List Word :=
  lines.flatMap (fun (n, x) => sameLevels (n + 1) ++ x.words) ++ (sameLevels behind ++ [.mark .eof])

theorem behindWords_cons (n : Nat) (x : Section) (lines : List (Nat × Section)) (behind : Nat) :
    behindWords ((n, x) :: lines) behind =
      .mark .sameLevel :: (sameLevels n ++ (x.words ++ behindWords lines behind)) := by
  simp [behindWords, sameLevels, List.replicate_succ]

theorem tidy_eof (tidy : Tidy (.mark .eof :: ws)) : ws = [] := by
  cases tidy with
  | eof => rfl
  | line hb _ _ => exact absurd hb (by simp [Word.BeginsLine])
  | word _ heof _ => exact absurd rfl heof

theorem shows_eof (hs : s.Shows ws) (tidy : Tidy ws) (hend : s.atEnd) : ws = [.mark .eof] := by
  obtain ⟨w, ws, rfl⟩ := List.exists_cons_of_ne_nil tidy.ne_nil
  obtain rfl := hs.atEnd_iff.mp hend
  rw [tidy_eof tidy]

/-- The section that is read first, and what its line ends with: the end of the document, or a
same-level token with more sections behind it. -/
theorem of_sections_step {d r : Draft} (hs : s.Shows ws) (tidy : Tidy ws) (further : ¬ s.atEnd)
    (e : sections context d s = .ok r) :
    ∃ x rest, ws = x.words ++ rest ∧ SectionValid context d x ∧
      ((rest = [.mark .eof] ∧ r = x.apply context d) ∨
        ∃ behind u, rest = .mark .sameLevel :: behind ∧ u.Shows behind ∧ Tidy behind ∧
          sections context (x.apply context d) u = .ok r) := by
  rw [sections, if_neg further] at e
  split at e
  · cases e
  · next d' t hsection =>
    obtain ⟨x, rest, rfl, valid, rfl, ht, tidy⟩ := (section_reads context d).sound hs tidy hsection
    refine ⟨x, rest, rfl, valid, ?_⟩
    split at e
    · next hend => exact .inl ⟨shows_eof ht tidy hend, (Except.ok.inj e).symm⟩
    · split at e
      · next hk =>
        obtain ⟨w, behind, rfl⟩ := List.exists_cons_of_ne_nil tidy.ne_nil
        obtain rfl := ht.mark_of_kind hk (by decide)
        have tidyBehind := tidy.tail (by simp)
        obtain ⟨v, behind, rfl⟩ := List.exists_cons_of_ne_nil tidyBehind.ne_nil
        have content := tidy.content (.inr rfl)
        -- The lexer never gives two same-level tokens in a row, so one is skipped here.
        obtain ⟨u, skipped, hu⟩ := skip_ok (n := 1) ht fun heq => content.not_beginsLine (.inr heq)
        rw [skipped] at e
        dsimp only at e
        split at e
        · exact .inr ⟨_, u, rfl, hu, tidyBehind, e⟩
        · cases e
      · cases e

/-- Reading sections up to the end of the document, by induction on what is left of the stream. -/
theorem of_sections {d r : Draft} {n : Nat} (hn : ws.length ≤ n) (hs : s.Shows ws) (tidy : Tidy ws)
    (e : sections context d s = .ok r) :
    (ws = [.mark .eof] ∧ r = d) ∨ ∃ x lines behind, ws = x.words ++ behindWords lines behind ∧
      OkLines (SectionValid context) (Section.apply context) d (x :: lines.map (·.2)) ∧
        r = (x :: lines.map (·.2)).foldl (Section.apply context) d := by
  induction n generalizing s ws d with
  | zero => exact absurd (List.length_eq_zero_iff.mp (Nat.le_zero.mp hn)) tidy.ne_nil
  | succ n ih =>
    by_cases hend : s.atEnd
    · rw [sections, if_pos hend] at e
      exact .inl ⟨shows_eof hs tidy hend, (Except.ok.inj e).symm⟩
    · refine .inr ?_
      obtain ⟨x, rest, rfl, valid, last⟩ := of_sections_step hs tidy hend e
      rcases last with ⟨rfl, rfl⟩ | ⟨behind, u, rfl, hu, tidy, e⟩
      · exact ⟨x, [], 0, rfl, ⟨valid, trivial⟩, rfl⟩
      · have hn : behind.length ≤ n := by
          rw [List.length_append, List.length_cons] at hn
          omega
        rcases ih hn hu tidy e with ⟨rfl, rfl⟩ | ⟨x', lines, count, rfl, valids, rfl⟩
        · exact ⟨x, [], 1, rfl, ⟨valid, trivial⟩, rfl⟩
        · refine ⟨x, (0, x') :: lines, count, ?_, ⟨valid, valids⟩, rfl⟩
          rw [behindWords_cons]
          rfl

theorem not_atEnd {x : Section} (hs : s.Shows (x.words ++ ws)) : ¬ s.atEnd := by
  obtain ⟨w, rest, hx, content⟩ := section_content x
  rw [hx] at hs
  exact fun hend => content.ne_eof (hs.atEnd_iff.mp hend)

/-- One section that has a same-level token behind it. -/
theorem sections_step {d : Draft} {x : Section} {n : Nat} {w : Word}
    (hs : s.Shows (x.words ++ (sameLevels (n + 1) ++ w :: ws))) (hw : w ≠ .mark .sameLevel)
    (valid : SectionValid context d x) :
    ∃ u, sections context d s = sections context (x.apply context d) u ∧ u.Shows (w :: ws) := by
  obtain ⟨t, e, ht⟩ := (section_reads context d).complete hs ⟨.sameLevel, _, rfl, by simp⟩ valid
  obtain ⟨u, skipped, hu⟩ := skip_ok ht hw
  have hk : t.kind = .sameLevel := Stream.Shows.kind_eq ht
  have further : ¬ t.atEnd := fun hend => by
    have := Stream.Shows.atEnd_iff ht |>.mp hend
    simp at this
  have shorter : u.rest.length < s.rest.length := by
    rw [hu.length, hs.length]
    simp only [List.length_append, sameLevels, List.length_replicate]
    omega
  refine ⟨u, ?_, hu⟩
  rw [sections, if_neg (not_atEnd hs), e]
  dsimp only
  rw [if_neg further, if_pos hk, skipped]
  dsimp only
  rw [if_pos shorter]

theorem sections_complete {d : Draft} {x : Section} {lines : List (Nat × Section)} {behind : Nat}
    (hs : s.Shows (x.words ++ behindWords lines behind))
    (valid : OkLines (SectionValid context) (Section.apply context) d (x :: lines.map (·.2))) :
    sections context d s = .ok ((x :: lines.map (·.2)).foldl (Section.apply context) d) := by
  induction lines generalizing s d x with
  | nil =>
    cases behind with
    | zero =>
      obtain ⟨t, e, ht⟩ := (section_reads context d).complete hs ⟨.eof, _, rfl, by simp⟩ valid.1
      rw [sections, if_neg (not_atEnd hs), e]
      exact if_pos (Stream.Shows.atEnd_iff ht |>.mpr rfl)
    | succ n =>
      obtain ⟨u, e, hu⟩ := sections_step hs nofun valid.1
      rw [e, sections, if_pos (hu.atEnd_iff.mpr rfl)]
      rfl
  | cons line lines ih =>
    obtain ⟨n, x'⟩ := line
    obtain ⟨w, rest, hx, content⟩ := section_content x'
    rw [behindWords_cons, hx] at hs
    obtain ⟨u, e, hu⟩ := sections_step (n := n) hs
      (fun heq => content.not_beginsLine (.inr heq)) valid.1
    rw [e]
    exact ih (by rwa [hx]) valid.2

/-! ## Conditions -/

/-- The names that are known behind a mention. -/
def learn (known : List String) : Mention → List String
  | .defines name => name :: known
  | .uses _ => known

def KnownIn (known : List String) : Mention → Prop
  | .defines _ => True
  | .uses name => name ∈ known

/-- Every name is known where it is used. -/
def Resolved (known : List String) (mentions : List Mention) : Prop :=
  OkLines KnownIn learn known mentions

theorem mem_foldl_learn {known : List String} {mentions : List Mention} {name : String} :
    name ∈ mentions.foldl learn known ↔ name ∈ known ∨ .defines name ∈ mentions := by
  induction mentions generalizing known with
  | nil => simp
  | cons m mentions ih =>
    rw [List.foldl_cons, ih]
    cases m with
    | defines n => simp [learn, or_assoc, or_left_comm]
    | uses n => simp [learn]

theorem foldl_learn_uses (known names : List String) :
    (names.map Mention.uses).foldl learn known = known := by
  induction names with
  | nil => rfl
  | cons n names ih => exact ih

theorem resolved_uses {known names : List String} :
    Resolved known (names.map .uses) ↔ ∀ n ∈ names, n ∈ known := by
  induction names with
  | nil => exact ⟨fun _ => nofun, fun _ => trivial⟩
  | cons n names ih =>
    rw [List.forall_mem_cons]
    exact and_congr Iff.rfl ih

theorem resolved_iff {known : List String} {mentions : List Mention} :
    Resolved known mentions ↔ ∀ before name behind, mentions = before ++ .uses name :: behind →
      name ∈ known ∨ .defines name ∈ before := by
  constructor
  · rintro h before name behind rfl
    exact mem_foldl_learn.mp (okLines_append.mp h).2.1
  · intro h
    induction mentions generalizing known with
    | nil => trivial
    | cons m mentions ih =>
      constructor
      · cases m with
        | defines n => trivial
        | uses n => exact (h [] n mentions rfl).resolve_right nofun
      · refine ih fun before name behind heq => ?_
        have found := h (m :: before) name behind (by rw [heq, List.cons_append])
        cases m with
        | defines n =>
          simp only [learn, List.mem_cons, Mention.defines.injEq] at found ⊢
          tauto
        | uses n => simpa [learn] using found

def names (auths : Auths) : List String := auths.map (·.1)

theorem isSome_lookup {auths : Auths} {name : String} :
    (auths.lookup name).isSome ↔ name ∈ names auths := by
  rw [List.lookup_isSome_iff, names, List.mem_map]
  simp only [beq_iff_eq]
  exact exists_congr fun _ => and_congr_right fun _ => eq_comm

/-- Metrics and options are as they have to be. -/
def ServiceGood (context : Context) (x : ServiceSection) : Prop :=
  (∀ m ∈ x.metrics, MetricBlock.Complete m) ∧ x.Fits context

theorem serviceValid_iff {auths : Auths} {x : ServiceSection} :
    ServiceValid context auths x ↔
      Resolved (names auths) (x.uses.map .uses) ∧ ServiceGood context x := by
  rw [resolved_uses]
  constructor
  · rintro ⟨known, complete, fits⟩
    exact ⟨fun n hn => isSome_lookup.mp (known n hn), complete, fits⟩
  · rintro ⟨known, complete, fits⟩
    exact ⟨fun n hn => isSome_lookup.mpr (known n hn), complete, fits⟩

/-- Lines that ask for the auths they use, and for nothing else that was read before them. -/
theorem okLines_mentions {τ : Type} {ok : Draft → τ → Prop} {step : Draft → τ → Draft}
    {mentions : τ → List Mention} {services : τ → List ServiceSection}
    (hok : ∀ d x, ok d x ↔ Resolved (names d.auths) (mentions x) ∧
      ∀ y ∈ services x, ServiceGood context y)
    (hstep : ∀ d x, names (step d x).auths = (mentions x).foldl learn (names d.auths))
    (d : Draft) (xs : List τ) :
    (OkLines ok step d xs ↔ Resolved (names d.auths) (xs.flatMap mentions) ∧
      ∀ y ∈ xs.flatMap services, ServiceGood context y) ∧
    names (xs.foldl step d).auths = (xs.flatMap mentions).foldl learn (names d.auths) := by
  induction xs generalizing d with
  | nil => exact ⟨⟨fun _ => ⟨trivial, List.forall_mem_nil _⟩, fun _ => trivial⟩, rfl⟩
  | cons x xs ih =>
    obtain ⟨valid, known⟩ := ih (step d x)
    rw [hstep] at valid known
    constructor
    · rw [OkLines, hok, valid, List.flatMap_cons, List.flatMap_cons, Resolved, Resolved, Resolved,
        okLines_append, List.forall_mem_append]
      tauto
    · rw [List.foldl_cons, known, List.flatMap_cons, List.foldl_append]

theorem stackItem_mentions (context : Context) (stack : String) (d : Draft) (x : StackItem) :
    (StackItemValid context d x ↔ Resolved (names d.auths) x.mentions ∧
      ∀ y ∈ x.services, ServiceGood context y) ∧
    names (x.apply context stack d).auths = x.mentions.foldl learn (names d.auths) := by
  cases x with
  | service x =>
    refine ⟨?_, (foldl_learn_uses _ _).symm⟩
    rw [StackItem.services, List.forall_mem_singleton]
    exact serviceValid_iff
  | auth x => exact ⟨⟨fun _ => ⟨⟨trivial, trivial⟩, List.forall_mem_nil _⟩, fun _ => trivial⟩, rfl⟩

theorem section_mentions (context : Context) (d : Draft) (x : Section) :
    (SectionValid context d x ↔ Resolved (names d.auths) x.mentions ∧
      ∀ y ∈ x.services, ServiceGood context y) ∧
    names (x.apply context d).auths = x.mentions.foldl learn (names d.auths) := by
  cases x with
  | dataset => exact ⟨⟨fun _ => ⟨trivial, List.forall_mem_nil _⟩, fun _ => trivial⟩, rfl⟩
  | auth x => exact ⟨⟨fun _ => ⟨⟨trivial, trivial⟩, List.forall_mem_nil _⟩, fun _ => trivial⟩, rfl⟩
  | stack stack items =>
    exact okLines_mentions (fun d x => (stackItem_mentions context stack d x).1)
      (fun d x => (stackItem_mentions context stack d x).2) d items.toList
  | service x =>
    refine ⟨?_, (foldl_learn_uses _ _).symm⟩
    rw [Section.services, List.forall_mem_singleton]
    exact serviceValid_iff

/-- What the readers of the sections ask for. -/
theorem valid_iff {x : Syntax.Document} :
    OkLines (SectionValid context) (Section.apply context) {} x.sections ↔
      x.AuthsDefined ∧ x.MetricsComplete ∧ x.OptionsFit context := by
  rw [(okLines_mentions (fun d x => (section_mentions context d x).1)
    (fun d x => (section_mentions context d x).2) {} x.sections).1, resolved_iff]
  have defined : (∀ before name behind, x.sections.flatMap Section.mentions =
      before ++ .uses name :: behind → name ∈ names [] ∨ .defines name ∈ before) ↔
        x.AuthsDefined := by
    simp [names, Syntax.Document.AuthsDefined, Syntax.Document.mentions]
  have good : (∀ y ∈ x.sections.flatMap Section.services, ServiceGood context y) ↔
      x.MetricsComplete ∧ x.OptionsFit context := forall₂_and
  exact and_congr defined good

/-! ## Documents -/

theorem context_ok (context : Context) (ts : List Token) :
    ∃ s, Document.context (.ofList (.opening context :: ts)) = .ok (context, s) ∧
      s.Shows (ts.map Token.word) := by
  have start : (Stream.ofList (.opening context :: ts)).Shows
      (.mark .ctx :: ts.map Token.word) := rfl
  exact ⟨_, rfl, start.advance nofun⟩

theorem none_badIndent {tokens : List Token} :
    tokens.find? (·.kind == .badIndent) = none ↔ ∀ t ∈ tokens, t.kind ≠ .badIndent := by
  simp only [List.find?_eq_none, beq_iff_eq, ne_eq]

theorem words_of_lines (before behind : Nat) (x : Section) (lines : List (Nat × Section)) :
    (Syntax.Document.mk before (some ⟨x, lines⟩) behind).words =
      .mark .ctx :: (sameLevels before ++ (x.words ++ behindWords lines behind)) := by
  simp [Syntax.Document.words, Syntax.Lines.words, behindWords]

theorem words_of_none (before behind : Nat) :
    (Syntax.Document.mk before none behind).words =
      .mark .ctx :: (sameLevels (before + behind) ++ [.mark .eof]) := by
  rw [sameLevels, ← List.replicate_append_replicate, List.append_assoc]
  rfl

/-- Tokens that are read are a sentence, and what is read is what it describes. -/
theorem of_ofTokens {ts : List Token} (tidy : Tidy (ts.map Token.word)) {c : Configuration}
    (e : ofTokens (.opening context :: ts) = .ok c) :
    (∀ t ∈ Token.opening context :: ts, t.kind ≠ .badIndent) ∧
      ∃ x : Syntax.Document, (Token.opening context :: ts).map Token.word = x.words ∧
        (x.AuthsDefined ∧ x.MetricsComplete ∧ x.OptionsFit context) ∧
          c = x.configuration context := by
  obtain ⟨s, opened, hs⟩ := context_ok context ts
  rw [ofTokens] at e
  split at e
  · cases e
  · next none_bad =>
    refine ⟨none_badIndent.mp none_bad, ?_⟩
    obtain ⟨m, w, rest, hstrip, notSame, tidy, _⟩ := strip tidy
    rw [hstrip] at hs
    obtain ⟨u, skipped, hu⟩ := skip_ok hs notSame
    obtain ⟨⟨_, _⟩, hcontext, e⟩ := bind_eq_ok.mp e
    obtain ⟨rfl, rfl⟩ := Prod.mk.inj (Except.ok.inj (opened.symm.trans hcontext))
    obtain ⟨u, hskip, e⟩ := bind_eq_ok.mp e
    obtain rfl := Except.ok.inj (skipped.symm.trans hskip)
    obtain ⟨r, hsections, e⟩ := bind_eq_ok.mp e
    obtain rfl := Except.ok.inj e
    rw [List.map_cons, hstrip]
    rcases of_sections (le_refl _) hu tidy hsections with
      ⟨hrest, rfl⟩ | ⟨x, lines, behind, hrest, valid, rfl⟩
    · refine ⟨⟨m, none, 0⟩, ?_, valid_iff.mp trivial, rfl⟩
      rw [hrest, words_of_none]
      rfl
    · refine ⟨⟨m, some ⟨x, lines⟩, behind⟩, ?_, valid_iff.mp valid, rfl⟩
      rw [hrest, words_of_lines]
      rfl

/-- A sentence that keeps to the conditions is read. -/
theorem ofTokens_ok {ts : List Token}
    (none_bad : ∀ t ∈ Token.opening context :: ts, t.kind ≠ .badIndent) {x : Syntax.Document}
    (hwords : (Token.opening context :: ts).map Token.word = x.words)
    (conditions : x.AuthsDefined ∧ x.MetricsComplete ∧ x.OptionsFit context) :
    ofTokens (.opening context :: ts) = .ok (x.configuration context) := by
  obtain ⟨s, opened, hs⟩ := context_ok context ts
  obtain ⟨before, lines, behind⟩ := x
  have valid := valid_iff.mpr conditions
  rw [ofTokens, none_badIndent.mpr none_bad]
  refine bind_ok opened ?_
  cases lines with
  | none =>
    rw [words_of_none] at hwords
    rw [(List.cons.inj hwords).2] at hs
    obtain ⟨u, skipped, hu⟩ := skip_ok hs nofun
    refine bind_ok skipped <| bind_ok (a := ({} : Draft)) ?_ rfl
    rw [sections, if_pos (hu.atEnd_iff.mpr rfl)]
  | some lines =>
    obtain ⟨x, lines⟩ := lines
    rw [words_of_lines] at hwords
    rw [(List.cons.inj hwords).2] at hs
    obtain ⟨w, rest, hx, content⟩ := section_content x
    rw [hx] at hs
    obtain ⟨u, skipped, hu⟩ := skip_ok hs fun heq => content.not_beginsLine (.inr heq)
    have hu : u.Shows (x.words ++ behindWords lines behind) := by rwa [hx]
    exact bind_ok skipped <| bind_ok (sections_complete hu valid) rfl

/-- What is read of the tokens of a text is what the sentence describes that they are. -/
theorem parsed_iff {threaded : Bool} {source : String} {tokens : List Token} {c : Configuration}
    (h : tokenize threaded context source = .ok tokens) :
    ofTokens tokens = .ok c ↔ (∀ t ∈ tokens, t.kind ≠ .badIndent) ∧
      ∃ x : Syntax.Document, tokens.map Token.word = x.words ∧
        (x.AuthsDefined ∧ x.MetricsComplete ∧ x.OptionsFit context) ∧
          c = x.configuration context := by
  obtain ⟨ts, rfl, cut⟩ := tokenize_eq_ok.mp h
  constructor
  · exact of_ofTokens (tidy_of_tokenizes cut rfl)
  · rintro ⟨none_bad, x, hwords, conditions, rfl⟩
    exact ofTokens_ok none_bad hwords conditions

theorem word_badIndent {t : Token} (h : t.kind = .badIndent) : t.word = .mark .badIndent := by
  rw [Token.word, h]
  rfl

theorem none_badIndent_of_words {tokens : List Token} {x : Syntax.Document}
    (hwords : tokens.map Token.word = x.words) : ∀ t ∈ tokens, t.kind ≠ .badIndent := fun t ht bad =>
  x.regular_words.badIndent_notMem (hwords ▸ List.mem_map.mpr ⟨t, ht, word_badIndent bad⟩)

/-- Tokens whose words are a sentence that keeps to the conditions are read. -/
theorem parsed_of_words {threaded : Bool} {source : String} {tokens : List Token}
    (h : tokenize threaded context source = .ok tokens) {x : Syntax.Document}
    (hwords : tokens.map Token.word = x.words)
    (conditions : x.AuthsDefined ∧ x.MetricsComplete ∧ x.OptionsFit context) :
    ofTokens tokens = .ok (x.configuration context) :=
  (parsed_iff h).mpr ⟨none_badIndent_of_words hwords, x, hwords, conditions, rfl⟩

/-- A document whose text can be cut into tokens can be read if and only if no line goes back to a
level that is not there, its words are a sentence of the grammar, and in the sentence every auth is
defined before it is used, every metric has a name and a type, and the options of every service
fit. -/
theorem readable_iff {threaded : Bool} {source : String} {tokens : List Token}
    (h : tokenize threaded context source = .ok tokens) :
    (∃ c, ofTokens tokens = .ok c) ↔ (∀ t ∈ tokens, t.kind ≠ .badIndent) ∧
      ∃ x : Syntax.Document, tokens.map Token.word = x.words ∧
        x.AuthsDefined ∧ x.MetricsComplete ∧ x.OptionsFit context := by
  simp only [parsed_iff h]
  constructor
  · rintro ⟨c, none_bad, x, hwords, conditions, _⟩
    exact ⟨none_bad, x, hwords, conditions⟩
  · rintro ⟨none_bad, x, hwords, conditions⟩
    exact ⟨_, none_bad, x, hwords, conditions, rfl⟩

/-! ## A document -/

/-- An auth, and two services with options of their own and a resource that has a metric. -/
def apiText : String := "DEFINE_AUTH \"basic\" AS \"main\"
  SET \"user\" TO \"reader\"
FOR_SERVICE \"api\", \"web\" AS \"main\"
  SET \"location\" TO \"http://h\"
  WITH_OPTIONS
    SET \"mode\" TO \"forward_metrics\"
    SET \"depth\" TO \"2\"
  GET \"/stats\" AS \"main\"
    EXTRACT_USING \"json\"
    METRIC
      NAME \"hits\"
      TYPE COUNTER
      LABELS \"code\", \"host\"
      FROM \"$.n\"
"

def apiServices : ServiceSection where
  names := ⟨"api", ["web"]⟩
  auth := some "main"
  items := some ⟨.option (.set ⟨"location", "http://h"⟩),
    [.option (.group ⟨⟨"mode", "forward_metrics"⟩, [⟨"depth", "2"⟩]⟩),
      .resource ⟨.get, "/stats", some "main", some ⟨.extract ⟨"json", none⟩,
        [.metric ⟨.name "hits", [.type .counter, .labels ⟨"code", ["host"]⟩, .path "$.n"]⟩]⟩⟩]⟩

def apiSections : List Section :=
  [.auth ⟨"basic", "main", some ⟨.set ⟨"user", "reader"⟩, []⟩⟩, .service apiServices]

def apiTokens : List Token := .opening {} :: Outline.tokens 2 (apiSections.map Section.outline)

set_option maxRecDepth 2000 in
theorem apiText_eq : apiText = Outline.text 2 (apiSections.map Section.outline) := by
  rfl

theorem tokenize_api (threaded : Bool) : tokenize threaded {} apiText = .ok apiTokens := by
  rw [apiText_eq]
  exact tokenize_text 2 (by decide) threaded {}

theorem words_api : apiTokens.map Token.word = (Syntax.Document.ofSections apiSections).words := rfl

theorem valid_api : OkLines (SectionValid {}) (Section.apply {}) {} apiSections := by
  have fits : apiServices.Fits {} :=
    ⟨fun v hv => ⟨.forwardMetrics, (Option.some.inj hv).symm⟩,
      fun v hv => ⟨"http://h", (Option.some.inj hv).symm⟩⟩
  have complete : ∀ m ∈ apiServices.metrics, MetricBlock.Complete m :=
    List.forall_mem_singleton.mpr ⟨⟨"hits", .head _⟩, .counter, .tail _ (.head _)⟩
  exact ⟨trivial, ⟨by decide, complete, fits⟩, trivial⟩

theorem readable_api : tokenize false {} apiText = .ok apiTokens ∧ ∃ c, ofTokens apiTokens = .ok c := by
  have tokens := tokenize_api false
  exact ⟨tokens, (readable_iff tokens).mpr
    ⟨none_badIndent_of_words words_api, _, words_api, valid_iff.mp valid_api⟩⟩

end ScrapeConfig.Document
