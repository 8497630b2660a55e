import ScrapeConfig.Document.Stream
import ScrapeConfig.Proofs.Document.Syntax

/-!
# Readers and what they read

A reader of the stream is right for a family of syntax trees if it reads exactly their words. The
two halves are kept apart: what has been read are the words of a tree (`Reads.sound`), and the words
of a tree are read (`Reads.complete`), where the line has to end behind them. The stream has to be
tidy for the first half only: readers of blocks accept more than the grammar on other streams.

Results:
1. `Stream.expect_ok`, `Stream.expectText_ok` and their converses: the readers of single tokens.
2. `reads_names`: the reader of names.
3. `Stream.block_sound`, `Stream.block_complete`: a reader of lines makes a reader of blocks.
-/

namespace ScrapeConfig

open Syntax (Series)

/-- A computation that succeeds, taken apart. -/
theorem bind_eq_ok {ε α β : Type} {x : Except ε α} {f : α → Except ε β} {b : β} :
    (x >>= f) = .ok b ↔ ∃ a, x = .ok a ∧ f a = .ok b := by
  cases x with
  | error e => simp [bind, Except.bind]
  | ok a => simp [bind, Except.bind]

/-- A computation that fails, taken apart. -/
theorem bind_eq_error {ε α β : Type} {x : Except ε α} {f : α → Except ε β} {e : ε} :
    (x >>= f) = .error e ↔ x = .error e ∨ ∃ a, x = .ok a ∧ f a = .error e := by
  cases x with
  | error e => simp [bind, Except.bind]
  | ok a => simp [bind, Except.bind]

theorem bind_of_ok {ε α β : Type} {x : Except ε α} {f : α → Except ε β} {a : α}
    (hx : x = .ok a) : (x >>= f) = f a := by
  rw [hx]
  rfl

theorem bind_ok {ε α β : Type} {x : Except ε α} {f : α → Except ε β} {a : α} {b : β}
    (hx : x = .ok a) (hf : f a = .ok b) : (x >>= f) = .ok b :=
  bind_eq_ok.mpr ⟨a, hx, hf⟩

/-- The stream goes on with these words. -/
def Stream.Shows (s : Stream) (ws : List Word) : Prop := s.rest.map Token.word = ws

/-- A line ends here. -/
def LineEnd (ws : List Word) : Prop :=
  ∃ k rest, ws = .mark k :: rest ∧ (k = .sameLevel ∨ k = .blockClose ∨ k = .eof)

namespace Stream

variable {s t : Stream} {ws : List Word} {w : Word} {k : TokenKind}

/-! ## Single tokens -/

theorem Shows.length (h : s.Shows ws) : s.rest.length = ws.length := by
  rw [← h, List.length_map]

theorem Shows.word_current (h : s.Shows (w :: ws)) : s.current.word = w := by
  obtain ⟨token, rest, hrest, rfl, _⟩ := List.map_eq_cons_iff.mp h
  rw [current, hrest]
  rfl

theorem Shows.kind_eq (h : s.Shows (.mark k :: ws)) : s.kind = k :=
  (Token.word_eq_mark_iff.mp h.word_current).1

theorem Shows.kind_of_name {text : String} (h : s.Shows (.name text :: ws)) :
    s.kind.IsName ∧ s.current.text?.getD "" = text :=
  Token.word_eq_name_iff.mp h.word_current

theorem Shows.mark_of_kind (h : s.Shows (w :: ws)) (hk : s.kind = k) (hn : ¬ k.IsName) :
    w = .mark k :=
  h.word_current.symm.trans (Token.word_eq_mark_iff.mpr ⟨hk, hn⟩)

theorem Shows.name_of_kind (h : s.Shows (w :: ws)) (hk : s.kind.IsName) :
    w = .name (s.current.text?.getD "") :=
  h.word_current.symm.trans (Token.word_eq_name_iff.mpr ⟨hk, rfl⟩)

theorem Shows.advance (h : s.Shows (w :: ws)) (hw : w ≠ .mark .eof) : s.advance.Shows ws := by
  have more : s.rest.isEmpty = false := by
    obtain ⟨token, rest, hrest, _⟩ := List.map_eq_cons_iff.mp h
    rw [hrest]
    rfl
  have kind : (s.kind == .eof) = false := by
    rw [beq_eq_false_iff_ne]
    intro hk
    exact hw (h.mark_of_kind hk (by decide))
  rw [Stream.advance, if_neg (by simp [atEnd, more, kind])]
  show s.rest.tail.map _ = ws
  rw [List.map_tail, h]
  rfl

/-- A stream that shows the end of the input is at its end. -/
theorem Shows.atEnd_iff (h : s.Shows (w :: ws)) : s.atEnd ↔ w = .mark .eof := by
  have more : s.rest.isEmpty = false := by
    obtain ⟨token, rest, hrest, _⟩ := List.map_eq_cons_iff.mp h
    rw [hrest]
    rfl
  rw [atEnd, more, Bool.false_or, beq_iff_eq]
  constructor
  · intro hk
    exact h.mark_of_kind hk (by decide)
  · rintro rfl
    exact h.kind_eq

/-- A mark in front of tidy words. -/
theorem Shows.pass (h : s.Shows ws) (tidy : Tidy ws) (hkind : s.kind = k) (hn : ¬ k.IsName)
    (hk : k ≠ .eof) : ∃ ws', ws = .mark k :: ws' ∧ s.advance.Shows ws' ∧ Tidy ws' := by
  obtain ⟨w, ws, rfl⟩ := List.exists_cons_of_ne_nil tidy.ne_nil
  obtain rfl := h.mark_of_kind hkind hn
  have hw : Word.mark k ≠ .mark .eof := by simpa using hk
  exact ⟨ws, rfl, h.advance hw, tidy.tail hw⟩

theorem expect_ok (h : s.Shows (.mark k :: ws)) (hk : k ≠ .eof) :
    s.expect k = .ok (s.current.span, s.advance) ∧ s.advance.Shows ws := by
  rw [expect, if_pos h.kind_eq]
  exact ⟨rfl, h.advance (by simpa using hk)⟩

theorem of_expect {span : Span} (h : s.Shows ws) (tidy : Tidy ws) (e : s.expect k = .ok (span, t))
    (hn : ¬ k.IsName) (hk : k ≠ .eof) : ∃ ws', ws = .mark k :: ws' ∧ t.Shows ws' ∧ Tidy ws' := by
  rw [expect] at e
  split at e
  · next hkind =>
    obtain ⟨_, rfl⟩ := Prod.mk.inj (Except.ok.inj e)
    exact h.pass tidy hkind hn hk
  · cases e

theorem expectText_ok {text : String} (h : s.Shows (.name text :: ws)) (what : String) :
    s.expectText what = .ok (text, s.advance) ∧ s.advance.Shows ws := by
  obtain ⟨hk, htext⟩ := h.kind_of_name
  rw [expectText, if_pos (show _ ∨ _ from hk), htext]
  exact ⟨rfl, h.advance nofun⟩

theorem of_expectText {what text : String} (h : s.Shows ws) (tidy : Tidy ws)
    (e : s.expectText what = .ok (text, t)) :
    ∃ ws', ws = .name text :: ws' ∧ t.Shows ws' ∧ Tidy ws' := by
  obtain ⟨w, ws, rfl⟩ := List.exists_cons_of_ne_nil tidy.ne_nil
  rw [expectText] at e
  split at e
  · next hkind =>
    obtain rfl := h.name_of_kind hkind
    obtain ⟨rfl, rfl⟩ := Prod.mk.inj (Except.ok.inj e)
    exact ⟨ws, rfl, h.advance nofun, tidy.tail nofun⟩
  · cases e

/-! ## Names -/

/-- The names behind a first one. -/
def more (names : List String) : List Word := names.flatMap fun n => [.mark .comma, .name n]

theorem moreTexts_ok {what : String} {names : List String} (h : s.Shows (more names ++ w :: ws))
    (hw : w ≠ .mark .comma) : ∃ t, moreTexts what s = .ok (names, t) ∧ t.Shows (w :: ws) := by
  induction names generalizing s with
  | nil =>
    have hk : s.kind ≠ .comma := fun hk => hw (h.mark_of_kind hk (by decide))
    rw [moreTexts, if_neg hk]
    exact ⟨s, rfl, h⟩
  | cons n names ih =>
    have h₁ := h.advance nofun
    obtain ⟨e₂, h₂⟩ := expectText_ok h₁ what
    obtain ⟨t, e, ht⟩ := ih h₂
    have shorter : s.advance.advance.rest.length < s.rest.length := by
      rw [h₂.length, h.length]
      show (more names ++ w :: ws).length <
        (Word.mark .comma :: .name n :: (more names ++ w :: ws)).length
      simp only [List.length_cons]
      omega
    rw [moreTexts, if_pos h.kind_eq, e₂]
    dsimp only
    rw [if_pos shorter, e]
    exact ⟨t, rfl, ht⟩

/-- By induction on what is left of the stream. -/
theorem of_moreTexts {what : String} {names : List String} {n : Nat} (hn : ws.length ≤ n)
    (h : s.Shows ws) (tidy : Tidy ws) (e : moreTexts what s = .ok (names, t)) :
    ∃ ws', ws = more names ++ ws' ∧ t.Shows ws' ∧ Tidy ws' := by
  induction n generalizing s ws names with
  | zero => exact absurd (List.length_eq_zero_iff.mp (Nat.le_zero.mp hn)) tidy.ne_nil
  | succ n ih =>
    obtain ⟨w, ws, rfl⟩ := List.exists_cons_of_ne_nil tidy.ne_nil
    rw [moreTexts] at e
    split at e
    · next hk =>
      obtain rfl := h.mark_of_kind hk (by decide)
      have h₁ := h.advance nofun
      have tidy₁ := tidy.tail nofun
      split at e
      · cases e
      · next text u htext =>
        obtain ⟨ws', rfl, hu, tidy'⟩ := of_expectText h₁ tidy₁ htext
        split at e
        · split at e
          · cases e
          · next texts v hmore =>
            obtain ⟨rfl, rfl⟩ := Prod.mk.inj (Except.ok.inj e)
            have hn : ws'.length ≤ n := by
              simp only [List.length_cons] at hn
              omega
            obtain ⟨ws'', rfl, hv⟩ := ih hn hu tidy' hmore
            exact ⟨ws'', rfl, hv⟩
        · cases e
    · obtain ⟨rfl, rfl⟩ := Prod.mk.inj (Except.ok.inj e)
      exact ⟨_, rfl, h, tidy⟩

theorem expectTexts_ok {what : String} {names : Series String}
    (h : s.Shows (names.names ++ w :: ws)) (hw : w ≠ .mark .comma) :
    ∃ t, s.expectTexts what = .ok (names.toList, t) ∧ t.Shows (w :: ws) := by
  obtain ⟨e₁, h₁⟩ := expectText_ok h what
  obtain ⟨t, e₂, ht⟩ := @moreTexts_ok _ _ _ what _ h₁ hw
  refine ⟨t, ?_, ht⟩
  rw [expectTexts, e₁]
  show (moreTexts what s.advance >>= _) = _
  rw [e₂]
  rfl

theorem of_expectTexts {what : String} {names : List String} (h : s.Shows ws) (tidy : Tidy ws)
    (e : s.expectTexts what = .ok (names, t)) :
    ∃ (series : Series String) (ws' : List Word), ws = series.names ++ ws' ∧
      names = series.toList ∧ t.Shows ws' ∧ Tidy ws' := by
  obtain ⟨⟨text, u⟩, htext, e⟩ := bind_eq_ok.mp e
  obtain ⟨⟨texts, v⟩, hmore, e⟩ := bind_eq_ok.mp e
  obtain ⟨rfl, rfl⟩ := Prod.mk.inj (Except.ok.inj e)
  obtain ⟨ws, rfl, hu, tidy⟩ := of_expectText h tidy htext
  obtain ⟨ws', rfl, ht, tidy⟩ := of_moreTexts (le_refl _) hu tidy hmore
  exact ⟨⟨text, texts⟩, ws', rfl, rfl, ht, tidy⟩

end Stream

/-! ## Readers -/

section

variable {α σ τ : Type}

/-- The reader `f` reads the words of the trees that satisfy `ok`, and gives their values. -/
structure Reads (f : Stream → Except ReadFault (α × Stream)) (words : τ → List Word)
    (ok : τ → Prop) (value : τ → α) : Prop where
  sound : ∀ {s t : Stream} {ws : List Word} {a : α}, s.Shows ws → Tidy ws → f s = .ok (a, t) →
    ∃ tree ws', ws = words tree ++ ws' ∧ ok tree ∧ a = value tree ∧ t.Shows ws' ∧ Tidy ws'
  complete : ∀ {s : Stream} {tree : τ} {ws : List Word}, s.Shows (words tree ++ ws) → LineEnd ws →
    ok tree → ∃ t, f s = .ok (value tree, t) ∧ t.Shows ws

/-- A reader whose value is put elsewhere. -/
theorem Reads.map {β : Type} {f : Stream → Except ReadFault (α × Stream)} {words : τ → List Word}
    {ok : τ → Prop} {value : τ → α} (h : Reads f words ok value) (g : α → β) :
    Reads (fun s => do let (a, s) ← f s; return (g a, s)) words ok (fun tree => g (value tree)) where
  sound := by
    intro s t ws b hs tidy e
    obtain ⟨⟨a, u⟩, ea, e⟩ := bind_eq_ok.mp e
    obtain ⟨tree, ws', rfl, hok, rfl, rest⟩ := h.sound hs tidy ea
    obtain ⟨rfl, rfl⟩ := Prod.mk.inj (Except.ok.inj e)
    exact ⟨tree, ws', rfl, hok, rfl, rest⟩
  complete := by
    intro s tree ws hs lineEnd hok
    obtain ⟨t, e, ht⟩ := h.complete hs lineEnd hok
    exact ⟨t, bind_ok e rfl, ht⟩

/-- What is read behind a keyword. -/
theorem Reads.of_keyword {f : Stream → Except ReadFault (α × Stream)} {words : τ → List Word}
    {ok : τ → Prop} {value : τ → α} (h : Reads f words ok value) {s t : Stream} {ws : List Word}
    {a : α} {k : TokenKind} (hs : s.Shows ws) (tidy : Tidy ws) (hk : s.kind = k)
    (e : f s.advance = .ok (a, t)) (hn : ¬ k.IsName) (more : k ≠ .eof) :
    ∃ tree ws', ws = .mark k :: (words tree ++ ws') ∧ ok tree ∧ a = value tree ∧ t.Shows ws' ∧
      Tidy ws' := by
  obtain ⟨ws, rfl, h₁, tidy⟩ := hs.pass tidy hk hn more
  obtain ⟨tree, ws', rfl, rest⟩ := h.sound h₁ tidy e
  exact ⟨tree, ws', rfl, rest⟩

/-- What a list of lines asks for, each of them behind what was read before. -/
def OkLines (ok : σ → τ → Prop) (step : σ → τ → σ) (a : σ) : List τ → Prop
  | [] => True
  | x :: xs => ok a x ∧ OkLines ok step (step a x) xs

section

variable {step : σ → τ → σ}

/-- Lines whose demands do not depend on what was read before them. -/
theorem okLines_iff {good : τ → Prop} {a : σ} {xs : List τ} :
    OkLines (fun _ => good) step a xs ↔ ∀ x ∈ xs, good x := by
  induction xs generalizing a with
  | nil => exact ⟨fun _ => nofun, fun _ => trivial⟩
  | cons x xs ih => rw [OkLines, ih, List.forall_mem_cons]

theorem okLines_of_true (a : σ) (xs : List τ) : OkLines (fun _ _ => True) step a xs :=
  okLines_iff.mpr fun _ _ => trivial

theorem okLines_append {ok : σ → τ → Prop} {a : σ} {xs ys : List τ} :
    OkLines ok step a (xs ++ ys) ↔ OkLines ok step a xs ∧ OkLines ok step (xs.foldl step a) ys := by
  induction xs generalizing a with
  | nil => exact ⟨fun h => ⟨trivial, h⟩, fun h => h.2⟩
  | cons x xs ih =>
    rw [List.cons_append, OkLines, OkLines, ih, and_assoc, List.foldl_cons]

end

/-- The words of lines behind the first one, up to the end of their block. -/
def linesWords (words : τ → List Word) (xs : List τ) : List Word :=
  xs.flatMap (fun x => .mark .sameLevel :: words x) ++ [.mark .blockClose]

namespace Stream

theorem text_reads (what : String) :
    Reads (·.expectText what) (fun text => [.name text]) (fun _ => True) id where
  sound := by
    intro s t ws text hs tidy e
    obtain ⟨ws', rfl, rest⟩ := of_expectText hs tidy e
    exact ⟨text, ws', rfl, trivial, rfl, rest⟩
  complete hs _ _ := ⟨_, expectText_ok hs what⟩

theorem texts_reads (what : String) :
    Reads (·.expectTexts what) Series.names (fun _ => True) Series.toList where
  sound := by
    intro s t ws texts hs tidy e
    obtain ⟨names, ws', rfl, rfl, rest⟩ := of_expectTexts hs tidy e
    exact ⟨names, ws', rfl, trivial, rfl, rest⟩
  complete := by
    intro s names ws hs lineEnd _
    obtain ⟨k, ws, rfl, hk⟩ := lineEnd
    exact expectTexts_ok hs (by rcases hk with rfl | rfl | rfl <;> nofun)

variable {item : σ → Stream → Except ReadFault (σ × Stream)} {words : τ → List Word}
  {ok : σ → τ → Prop} {step : σ → τ → σ} {s t : Stream} {ws : List Word} {w : Word}

open Syntax (sameLevels)

/-- Same-level tokens are passed up to the first token of another kind. -/
theorem skip_ok {n : Nat} (h : s.Shows (sameLevels n ++ w :: ws)) (hw : w ≠ .mark .sameLevel) :
    ∃ t, s.skipSameLevel = .ok t ∧ t.Shows (w :: ws) := by
  have dropped : (s.rest.dropWhile (·.kind == .sameLevel)).map Token.word = w :: ws := by
    have same : (fun token : Token => token.kind == .sameLevel) =
        (fun word => decide (word = Word.mark .sameLevel)) ∘ Token.word := by
      funext token
      rw [Bool.eq_iff_iff, beq_iff_eq, Function.comp_apply, decide_eq_true_iff,
        Token.word_eq_mark_iff, and_iff_left (by decide)]
    have passed : ∀ word ∈ sameLevels n, decide (word = Word.mark .sameLevel) := fun word hword =>
      decide_eq_true (List.eq_of_mem_replicate hword)
    rw [same, ← List.dropWhile_map, h, List.dropWhile_append_of_pos passed,
      List.dropWhile_cons_of_neg (by simpa using hw)]
  refine ⟨{ s with rest := s.rest.dropWhile (·.kind == .sameLevel) }, ?_, dropped⟩
  obtain ⟨token, rest, hrest, _⟩ := List.map_eq_cons_iff.mp dropped
  rw [skipSameLevel, hrest]
  rfl

/-! ## Blocks -/

/-- What the lines of a block need of the reader of a line. -/
structure Lines (item : σ → Stream → Except ReadFault (σ × Stream)) (words : τ → List Word)
    (ok : σ → τ → Prop) (step : σ → τ → σ) : Prop where
  reads : ∀ a, Reads (item a) words (ok a) (step a)
  content : ∀ x, ∃ w ws, words x = w :: ws ∧ w.IsContent

theorem linesWords_cons (words : τ → List Word) (x : τ) (xs : List τ) (ws : List Word) :
    linesWords words (x :: xs) ++ ws =
      .mark .sameLevel :: (words x ++ (linesWords words xs ++ ws)) := by
  simp [linesWords]

theorem lineEnd_linesWords (words : τ → List Word) (xs : List τ) (ws : List Word) :
    LineEnd (linesWords words xs ++ ws) := by
  cases xs with
  | nil => exact ⟨.blockClose, ws, rfl, by simp⟩
  | cons x xs => exact ⟨.sameLevel, _, rfl, by simp⟩

theorem LineEnd.kind (h : s.Shows ws) (hw : LineEnd ws) :
    s.kind = .sameLevel ∨ s.kind = .blockClose ∨ s.kind = .eof := by
  obtain ⟨k, rest, rfl, hk⟩ := hw
  rwa [h.kind_eq]

/-- One line and those behind it. -/
theorem blockLines_step (h : Lines item words ok step) {a : σ} {x : τ} {xs : List τ}
    {n : Nat} (hs : s.Shows (sameLevels n ++ (words x ++ (linesWords words xs ++ ws)))) (hok : ok a x) :
    ∃ t, blockLines item a s = blockLines item (step a x) t ∧
      t.Shows (linesWords words xs ++ ws) := by
  obtain ⟨w, rest, hx, content⟩ := h.content x
  rw [hx, List.cons_append] at hs
  have notSame : w ≠ .mark .sameLevel := fun heq => content.not_beginsLine (.inr heq)
  obtain ⟨u, skipped, hu⟩ := skip_ok hs notSame
  have lineEnd := lineEnd_linesWords words xs ws
  obtain ⟨t, e, ht⟩ := (h.reads a).complete (by rwa [hx]) lineEnd hok
  have notClose : u.kind ≠ .blockClose := fun hk => by
    rw [hu.mark_of_kind hk (by decide)] at content
    exact absurd content (by decide)
  have notEof : u.kind ≠ .eof := fun hk => content.ne_eof (hu.mark_of_kind hk (by decide))
  have kind : t.kind = .sameLevel ∨ t.kind = .blockClose := by
    cases xs with
    | nil => exact .inr ht.kind_eq
    | cons x xs => exact .inl ht.kind_eq
  have shorter : t.rest.length < s.rest.length := by
    rw [ht.length, hs.length]
    simp only [List.length_append, List.length_cons]
    omega
  refine ⟨t, ?_, ht⟩
  rw [blockLines, skipped]
  dsimp only
  rw [if_neg notClose, if_neg notEof, e]
  dsimp only
  rw [if_pos kind, if_pos shorter]

theorem blockLines_complete (h : Lines item words ok step) {a : σ} {xs : List τ}
    (hs : s.Shows (linesWords words xs ++ ws)) (hok : OkLines ok step a xs) :
    ∃ t, blockLines item a s = .ok (xs.foldl step a, t) ∧ t.Shows ws := by
  induction xs generalizing a s with
  | nil =>
    obtain ⟨u, skipped, hu⟩ := @skip_ok _ _ _ 0 hs (by simp)
    refine ⟨u.advance, ?_, hu.advance nofun⟩
    rw [blockLines, skipped]
    dsimp only
    rw [if_pos hu.kind_eq]
    rfl
  | cons x xs ih =>
    rw [linesWords_cons] at hs
    obtain ⟨t, e, ht⟩ := @blockLines_step _ _ _ _ _ _ _ _ h _ _ _ 1 hs hok.1
    rw [e]
    exact ih ht hok.2

/-- Tidy words begin with one same-level token at most. -/
theorem strip (tidy : Tidy ws) :
    ∃ m w rest, ws = sameLevels m ++ w :: rest ∧ w ≠ .mark .sameLevel ∧ Tidy (w :: rest) ∧
      (m = 0 ∨ m = 1 ∧ w.IsContent) := by
  cases tidy with
  | eof => exact ⟨0, _, _, rfl, nofun, .eof, .inl rfl⟩
  | @line b w ws hb hw tidy =>
    by_cases same : b = .mark .sameLevel
    · subst same
      exact ⟨1, w, ws, rfl, fun heq => hw.not_beginsLine (.inr heq), tidy, .inr ⟨rfl, hw⟩⟩
    · exact ⟨0, _, _, rfl, same, .line hb hw tidy, .inl rfl⟩
  | @word w ws hw heof tidy =>
    exact ⟨0, _, _, rfl, fun heq => hw (.inr heq), .word hw heof tidy, .inl rfl⟩

/-- Behind a line that has ended, the next one has a same-level token in front of it. -/
theorem behind_line (h : Lines item words ok step) {x : τ} {m : Nat} (hm : m ≤ 1)
    (hs : s.Shows (sameLevels m ++ (words x ++ ws)))
    (hk : s.kind = .sameLevel ∨ s.kind = .blockClose) : m = 1 := by
  rcases Nat.le_one_iff_eq_zero_or_eq_one.mp hm with rfl | rfl
  · obtain ⟨w, rest, hx, content⟩ := h.content x
    rw [hx] at hs
    rcases hk with hk | hk <;>
    · rw [hs.mark_of_kind hk (by decide)] at content
      exact absurd content (by decide)
  · rfl

/-- What stands in front of the next line or of the end of a block, and what is done there. -/
theorem of_blockLines_step (h : Lines item words ok step) {a b : σ} (hs : s.Shows ws)
    (tidy : Tidy ws) (e : blockLines item a s = .ok (b, t)) :
    (∃ behind, ws = .mark .blockClose :: behind ∧ b = a ∧ t.Shows behind ∧ Tidy behind) ∨
      ∃ m x behind u, m ≤ 1 ∧ ws = sameLevels m ++ (words x ++ behind) ∧ ok a x ∧
        u.Shows behind ∧ Tidy behind ∧ (u.kind = .sameLevel ∨ u.kind = .blockClose) ∧
          blockLines item (step a x) u = .ok (b, t) := by
  obtain ⟨m, w, rest, rfl, notSame, tidy, hm⟩ := strip tidy
  obtain ⟨u, skipped, hu⟩ := skip_ok hs notSame
  rw [blockLines, skipped] at e
  dsimp only at e
  split at e
  · next hk =>
    obtain rfl := hu.mark_of_kind hk (by decide)
    obtain ⟨rfl, rfl⟩ := Prod.mk.inj (Except.ok.inj e)
    -- A same-level token does not stand in front of the end of a block.
    rcases hm with rfl | ⟨_, content⟩
    · exact .inl ⟨rest, rfl, rfl, hu.advance nofun, tidy.tail nofun⟩
    · exact absurd content (by decide)
  · refine .inr ?_
    split at e
    · cases e
    · split at e
      · cases e
      · next a' v hitem =>
        obtain ⟨x, behind, hws, hok, rfl, hv, tidy⟩ := (h.reads a).sound hu tidy hitem
        split at e
        · next hk =>
          split at e
          · exact ⟨m, x, behind, v, by omega, by rw [hws], hok, hv, tidy, hk, e⟩
          · cases e
        · cases e

/-- What the lines up to the end of a block were, by induction on what is left of the stream. The
first of them may stand directly behind the token that opened the block. -/
theorem of_blockLines (h : Lines item words ok step) {a b : σ} {n : Nat} (hn : ws.length ≤ n)
    (hs : s.Shows ws) (tidy : Tidy ws) (e : blockLines item a s = .ok (b, t)) :
    ∃ ws', t.Shows ws' ∧ Tidy ws' ∧ ((ws = .mark .blockClose :: ws' ∧ b = a) ∨
      ∃ m x xs, m ≤ 1 ∧ ws = sameLevels m ++ (words x ++ (linesWords words xs ++ ws')) ∧
        OkLines ok step a (x :: xs) ∧ b = (x :: xs).foldl step a) := by
  induction n generalizing s ws a with
  | zero => exact absurd (List.length_eq_zero_iff.mp (Nat.le_zero.mp hn)) tidy.ne_nil
  | succ n ih =>
    rcases of_blockLines_step h hs tidy e with
      ⟨behind, rfl, rfl, ht, tidy⟩ | ⟨m, x, behind, u, hm, rfl, hok, hu, tidy, hk, e⟩
    · exact ⟨behind, ht, tidy, .inl ⟨rfl, rfl⟩⟩
    · obtain ⟨w, rest, hx, _⟩ := h.content x
      have hn : behind.length ≤ n := by
        rw [hx] at hn
        simp only [List.length_append, List.length_cons] at hn
        omega
      obtain ⟨ws', ht, tidy, hrest⟩ := ih hn hu tidy e
      refine ⟨ws', ht, tidy, .inr ?_⟩
      rcases hrest with ⟨rfl, rfl⟩ | ⟨m', x', xs, hm', rfl, hoks, rfl⟩
      · exact ⟨m, x, [], hm, rfl, ⟨hok, trivial⟩, rfl⟩
      · obtain rfl := behind_line h hm' hu hk
        refine ⟨m, x, x' :: xs, hm, ?_, ⟨hok, hoks⟩, rfl⟩
        rw [linesWords_cons]
        rfl

theorem block_words (words : τ → List Word) (series : Series τ) :
    series.block words = .mark .blockOpen :: (words series.first ++ linesWords words series.rest) :=
  rfl

theorem block_reads (h : Lines item words ok step) (a : σ) :
    Reads (block item a) (Series.block words) (fun series => OkLines ok step a series.toList)
      (fun series => series.toList.foldl step a) where
  sound := by
    intro s t ws b hs tidy e
    obtain ⟨⟨span, u⟩, opened, e⟩ := bind_eq_ok.mp e
    obtain ⟨ws, rfl, hu, tidy₁⟩ := of_expect hs tidy opened (by decide) nofun
    obtain ⟨ws', ht, tidy', ⟨rfl, _⟩ | ⟨m, x, xs, _, rfl, hok, rfl⟩⟩ :=
      of_blockLines h (le_refl _) hu tidy₁ e
    · exact absurd (tidy.content (.inl rfl)) (by decide)
    · cases m with
      | zero =>
        refine ⟨⟨x, xs⟩, ws', ?_, hok, rfl, ht, tidy'⟩
        rw [block_words, List.cons_append, List.append_assoc]
        rfl
      | succ m => exact absurd (tidy.content (.inl rfl)) (by decide)
  complete := by
    intro s series ws hs _ hok
    rw [block_words, List.cons_append, List.append_assoc] at hs
    obtain ⟨opened, hu⟩ := expect_ok hs nofun
    obtain ⟨t, e, ht⟩ := @blockLines_step _ _ _ _ _ _ _ _ h _ _ _ 0 hu hok.1
    obtain ⟨v, e', hv⟩ := blockLines_complete h ht hok.2
    refine ⟨v, ?_, hv⟩
    rw [block, opened]
    exact e.trans e'

theorem optionalBlock_sound (h : Lines item words ok step) {a b : σ} (hs : s.Shows ws)
    (tidy : Tidy ws) (e : optionalBlock item a s = .ok (b, t)) :
    ∃ items ws', ws = Syntax.optionalBlock words items ++ ws' ∧
      OkLines ok step a (Syntax.itemsOf items) ∧ b = (Syntax.itemsOf items).foldl step a ∧
      t.Shows ws' ∧ Tidy ws' := by
  rw [optionalBlock] at e
  split at e
  · obtain ⟨series, ws', rfl, hok, rfl, ht, tidy'⟩ := (block_reads h a).sound hs tidy e
    exact ⟨some series, ws', rfl, hok, rfl, ht, tidy'⟩
  · obtain ⟨rfl, rfl⟩ := Prod.mk.inj (Except.ok.inj e)
    exact ⟨none, ws, rfl, trivial, rfl, hs, tidy⟩

theorem optionalBlock_complete (h : Lines item words ok step) {a : σ} {items : Option (Series τ)}
    (hs : s.Shows (Syntax.optionalBlock words items ++ ws)) (lineEnd : LineEnd ws)
    (hok : OkLines ok step a (Syntax.itemsOf items)) :
    ∃ t, optionalBlock item a s = .ok ((Syntax.itemsOf items).foldl step a, t) ∧ t.Shows ws := by
  cases items with
  | none =>
    have closed : s.kind ≠ .blockOpen := by
      rcases LineEnd.kind hs lineEnd with hk | hk | hk <;> rw [hk] <;> decide
    rw [optionalBlock, if_neg closed]
    exact ⟨s, rfl, hs⟩
  | some series =>
    obtain ⟨t, e, ht⟩ := (block_reads h a).complete hs lineEnd hok
    have opened : s.kind = .blockOpen := hs.kind_eq
    rw [optionalBlock, if_pos opened]
    exact ⟨t, e, ht⟩

end Stream

end

end ScrapeConfig
