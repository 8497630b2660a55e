import ScrapeConfig.Proofs.Document.Definitions
import ScrapeConfig.Proofs.Document.Misfit
import ScrapeConfig.Proofs.Document.Sparing

/-!
# Auths that are not defined

An auth is reported as undefined only by the reader of the name behind an `AS`, so the error stands
at a name that is used, and no definition of it begins in front.

Results:
1. `Takes`: the tokens that a reader takes, and their words.
2. `Undefined`, `Blames`: undefined auths are reported where they are used. `Blames.bind`,
   `Stream.Guards.blockLines`: readers made of others.
3. `Document.asAuth_blames` to `Document.sections_blames`: a lemma for each reader behind which auths
   are looked up.
4. `Document.ofTokens_undefined`: whole documents.
-/

namespace ScrapeConfig

open Syntax

variable {α β σ τ : Type}

/-! ## Readers that take no definition -/

/-- The reader takes tokens with words of this kind. -/
def Takes (R : α → List Word → Prop) (f : Stream → Except ReadFault (α × Stream)) : Prop :=
  ∀ ⦃s t : Stream⦄ ⦃a : α⦄, Tidy (s.rest.map Token.word) → f s = .ok (a, t) →
    Tidy (t.rest.map Token.word) ∧ ∃ passed, s.rest = passed ++ t.rest ∧ R a (passed.map Token.word)

theorem Tidy.eof_mem {ws : List Word} (tidy : Tidy ws) : .mark .eof ∈ ws := by
  induction tidy with
  | eof => exact List.mem_singleton_self _
  | line _ _ _ ih | word _ _ _ ih => exact List.mem_cons_of_mem _ ih

theorem Stream.ending_of_tidy {s : Stream} (tidy : Tidy (s.rest.map Token.word)) : s.Ending := by
  intro _
  obtain ⟨t, ht, eof⟩ := List.mem_map.mp tidy.eof_mem
  exact ⟨t, ht, (Token.word_eq_mark_iff.mp eof).1⟩

/-- What is known of the words that a reader takes is known of the tokens. -/
theorem Takes.of_sound {R : α → List Word → Prop} {f : Stream → Except ReadFault (α × Stream)}
    (lingers : Lingers f)
    (sound : ∀ {s t : Stream} {ws : List Word} {a : α}, s.Shows ws → Tidy ws → f s = .ok (a, t) →
      ∃ v ws', ws = v ++ ws' ∧ R a v ∧ t.Shows ws' ∧ Tidy ws') : Takes R f := by
  intro s t a tidy read
  obtain ⟨v, ws', heq, hv, ht, tidy'⟩ := sound rfl tidy read
  have halts := lingers (Stream.ending_of_tidy tidy)
  rw [read] at halts
  obtain ⟨passed, split, _⟩ := halts.of_ok.rest
  have words : passed.map Token.word = v := by
    rw [split, List.map_append, ht] at heq
    exact List.append_cancel_right heq
  exact ⟨ht ▸ tidy', passed, split, words ▸ hv⟩

/-- A reader of trees takes the words of a tree. -/
theorem Takes.of_reads {f : Stream → Except ReadFault (α × Stream)} {words : τ → List Word}
    {ok : τ → Prop} {value : τ → α} (lingers : Lingers f) (reads : Reads f words ok value) :
    Takes (fun a ws => ∃ x, a = value x ∧ ws = words x) f :=
  .of_sound lingers fun hs tidy read => by
    obtain ⟨x, ws, rfl, _, rfl, rest⟩ := reads.sound hs tidy read
    exact ⟨words x, ws, rfl, ⟨x, rfl, rfl⟩, rest⟩

/-! ## Where undefined auths are reported -/

/-- The error stands at the name of an auth that is used in the stream, and that is defined neither
in `front` nor in the stream in front of the name. -/
def Undefined (front : List Word) (s : Stream) (e : ParseError) : Prop :=
  ∃ passed as t behind n, s.rest = passed ++ as :: t :: behind ∧ as.word = .mark .as ∧
    t.word = .name n ∧ Uses (front ++ passed.map Token.word) ∧
    ¬ Begins n (front ++ passed.map Token.word) ∧ e = .atSpan (.undefinedAuth n) t.span

theorem Undefined.behind {front : List Word} {s t : Stream} {e : ParseError} {passed : List Token}
    (h : Undefined (front ++ passed.map Token.word) t e) (split : s.rest = passed ++ t.rest) :
    Undefined front s e := by
  obtain ⟨passed', as, t', behind, n, rest, has, ht, uses, undefined, reported⟩ := h
  refine ⟨passed ++ passed', as, t', behind, n, ?_, has, ht, ?_, ?_, reported⟩
  · rw [split, rest, List.append_assoc]
  · rwa [List.map_append, ← List.append_assoc]
  · rwa [List.map_append, ← List.append_assoc]

/-- Behind `front`, undefined auths are reported where they are used. -/
def BlamesAt (front : List Word) (s : Stream) (x : Except ReadFault α) : Prop :=
  ∀ e, x = .error (.error e) → e.problem.kind = .undefinedReference → Undefined front s e

def Blames (front : List Word) (f : Stream → Except ReadFault α) : Prop :=
  ∀ ⦃s : Stream⦄, Tidy (s.rest.map Token.word) → BlamesAt front s (f s)

theorem Spares.blamesAt {x : Except ReadFault α} (h : Spares x) (front : List Word) (s : Stream) :
    BlamesAt front s x :=
  fun e fails undefined => absurd undefined (h e fails)

theorem blames_of_spares {f : Stream → Except ReadFault α} (h : ∀ s, Spares (f s))
    (front : List Word) : Blames front f :=
  fun s _ => (h s).blamesAt front s

/-- An error that is passed on. -/
theorem BlamesAt.of_error {front : List Word} {s : Stream} {x : Except ReadFault α}
    {fault : ReadFault} (hx : BlamesAt front s x) (h : x = .error fault) :
    BlamesAt (α := β) front s (.error fault) := by
  rintro e ⟨⟩ undefined
  exact hx e h undefined

/-- What is reported behind tokens of the stream is reported in the stream. -/
theorem BlamesAt.behind {front : List Word} {s t : Stream} {passed : List Token}
    {x : Except ReadFault α} (h : BlamesAt (front ++ passed.map Token.word) t x)
    (split : s.rest = passed ++ t.rest) : BlamesAt front s x :=
  fun e fails undefined => (h e fails undefined).behind split

theorem BlamesAt.bind {front : List Word} {s : Stream} {x : Except ReadFault α}
    {k : α → Except ReadFault β} (hx : BlamesAt front s x)
    (hk : ∀ a, x = .ok a → BlamesAt front s (k a)) : BlamesAt front s (x >>= k) := by
  cases x with
  | ok a => exact hk a rfl
  | error fault => exact hx.of_error rfl

/-- What is left to a reader lies behind what was taken. -/
theorem Blames.bind {front : List Word} {R : α → List Word → Prop}
    {f : Stream → Except ReadFault (α × Stream)} {k : α × Stream → Except ReadFault β}
    (hf : Blames front f) (takes : Takes R f)
    (hk : ∀ a ws, R a ws → Blames (front ++ ws) fun s => k (a, s)) :
    Blames front fun s => f s >>= k := by
  intro s tidy
  refine (hf tidy).bind fun (a, t) read => ?_
  obtain ⟨tidy', passed, split, hR⟩ := takes tidy read
  exact (hk a _ hR tidy').behind split

/-- Readers that take no definition. -/
abbrev TakesNone (f : Stream → Except ReadFault (α × Stream)) : Prop :=
  Takes (fun _ ws => .mark .defineAuth ∉ ws) f

namespace Stream

theorem expect_takesNone {k : TokenKind} (mark : ¬ k.IsName) (eof : k ≠ .eof)
    (other : k ≠ .defineAuth) : TakesNone (·.expect k) :=
  .of_sound (expect_proceeds eof).lingers fun {s t ws span} hs tidy read => by
    obtain ⟨ws, rfl, rest⟩ := of_expect hs tidy read mark eof
    exact ⟨[.mark k], ws, rfl, by simpa using other.symm, rest⟩

theorem expectText_takesNone (what : String) : TakesNone (·.expectText what) :=
  .of_sound (expectText_proceeds what).lingers fun {s t ws text} hs tidy read => by
    obtain ⟨ws, rfl, rest⟩ := of_expectText hs tidy read
    exact ⟨[.name text], ws, rfl, by simp, rest⟩

theorem expectTexts_takesNone (what : String) : TakesNone (·.expectTexts what) :=
  .of_sound (expectTexts_proceeds what).lingers fun hs tidy read => by
    obtain ⟨names, ws, rfl, _, rest⟩ := of_expectTexts hs tidy read
    exact ⟨names.names, ws, rfl, names.plain_names.inner.defineAuth_notMem, rest⟩

variable {item : σ → Stream → Except ReadFault (σ × Stream)} {words : τ → List Word}
  {ok : σ → τ → Prop} {step : σ → τ → σ} {I : σ → List Word → Prop}

theorem skipSameLevel_takes {s t : Stream} (tidy : Tidy (s.rest.map Token.word))
    (skipped : s.skipSameLevel = .ok t) : Tidy (t.rest.map Token.word) ∧
      ∃ same n, s.rest = same ++ t.rest ∧ same.map Token.word = sameLevels n := by
  obtain ⟨n, w, rest, hstrip, notSame, tidy', _⟩ := strip tidy
  obtain ⟨u, hu, shows⟩ := skip_ok hstrip notSame
  obtain rfl := Except.ok.inj (skipped.symm.trans hu)
  have halts := (ending_of_tidy tidy).skipSameLevel
  rw [skipped] at halts
  obtain ⟨same, split, _⟩ := halts.of_ok.rest
  refine ⟨shows ▸ tidy', same, n, split, ?_⟩
  rw [split, List.map_append, shows] at hstrip
  exact List.append_cancel_right hstrip

/-- What lines of a block need of the reader of a line, and of what is said of the words in front. -/
structure Guards (item : σ → Stream → Except ReadFault (σ × Stream)) (words : τ → List Word)
    (ok : σ → τ → Prop) (step : σ → τ → σ) (I : σ → List Word → Prop) : Prop where
  lines : Lines item words ok step
  proceeds : ∀ a, Proceeds (item a)
  append : ∀ {a front ws}, I a front → .mark .defineAuth ∉ ws → I a (front ++ ws)
  line : ∀ {a front} x, I a front → I (step a x) (front ++ words x)
  blames : ∀ {a front}, I a front → Blames front (item a)

namespace Guards

variable (h : Guards item words ok step I) {a : σ} {front : List Word} (ha : I a front)

include h ha

/-- By induction on what is left of the stream. -/
theorem blockLines : Blames front (blockLines item a) := by
  intro s
  induction hn : s.rest.length using Nat.strongRecOn generalizing a front s with
  | ind n ih =>
    intro tidy
    rw [Stream.blockLines]
    split
    · next found => exact (s.skipSameLevel_spares.of_error found).blamesAt front s
    · next t skipped =>
      obtain ⟨tidy₁, levels, m, split₁, hlevels⟩ := skipSameLevel_takes tidy skipped
      have ha₁ := hlevels ▸ h.append ha (defineAuth_notMem_sameLevels m)
      split
      · exact (spares_ok _).blamesAt front s
      · split
        · exact (spares_unexpected t _).blamesAt front s
        · split
          · next found => exact ((h.blames ha₁ tidy₁).of_error found).behind split₁
          · next b u read =>
            obtain ⟨tidy₂, passed, split₂, x, rfl, hpassed⟩ :=
              Takes.of_reads (h.proceeds a).lingers (h.lines.reads a) tidy₁ read
            split
            · split
              · next shorter =>
                have rest := ih _ (hn ▸ shorter) (hpassed ▸ h.line x ha₁) rfl tidy₂
                exact (rest.behind split₂).behind split₁
              · exact spares_endless.blamesAt front s
            · exact (spares_unexpected u _).blamesAt front s

theorem block : Blames front (block item a) :=
  .bind (blames_of_spares (expect_spares _) front) (expect_takesNone (by decide) nofun nofun)
    fun _ _ clean => h.blockLines (h.append ha clean)

theorem optionalBlock : Blames front (optionalBlock item a) := by
  intro s tidy
  rw [Stream.optionalBlock]
  split
  · exact h.block ha tidy
  · exact (spares_ok _).blamesAt front s

end Guards

end Stream

namespace Document

variable {auths : Auths} {front : List Word}

/-- The error of a name that is not known. -/
theorem authName_error {s : Stream} {e : ParseError} (fails : authName auths s = .error (.error e))
    (undefined : e.problem.kind = .undefinedReference) :
    ∃ n, s.current.word = .name n ∧ auths.lookup n = none ∧
      e = .atSpan (.undefinedAuth n) s.current.span := by
  rcases bind_eq_error.mp fails with text | ⟨⟨name, t⟩, text, fails⟩
  · exact absurd undefined (Stream.expectText_spares _ s e text)
  rw [Stream.expectText] at text
  split at text
  · next named =>
    obtain ⟨rfl, rfl⟩ := Prod.mk.inj (Except.ok.inj text)
    refine ⟨_, Token.word_eq_name_iff.mpr ⟨named, rfl⟩, ?_⟩
    dsimp only at fails
    split at fails
    · next unknown =>
      obtain rfl := ReadFault.error.inj (Except.error.inj fails)
      exact ⟨unknown, rfl⟩
    · next auth _ =>
      -- A known auth may still fail to be copied, which is another error.
      have spares := (reporting_spares s.current.span auth.copy).bind fun copy =>
        spares_ok (copy, s.advance)
      exact absurd undefined (spares e fails)
  · cases text

theorem asAuth_blames (covers : Covers auths front) : Blames front (asAuth auths) := by
  rintro ⟨tokens, last⟩ tidy
  rw [asAuth]
  split
  · next kind =>
    refine BlamesAt.bind (fun e fails undefined => ?_) fun _ _ => (spares_ok _).blamesAt front _
    -- Behind `AS` there is a token, as the stream does not end with it.
    obtain ⟨as, tokens, rfl⟩ := exists_cons_of_tidy tidy
    have isAs : as.kind = .as := kind
    have word : as.word = .mark .as := Token.word_eq_mark_iff.mpr ⟨isAs, by decide⟩
    obtain ⟨t, behind, rfl⟩ := exists_cons_of_tidy (tidy.tail (by simp [word]))
    rw [Stream.advance_cons (by simp [isAs])] at fails
    obtain ⟨n, named, unknown, reported⟩ := authName_error fails undefined
    refine ⟨[], as, t, behind, n, rfl, word, named, ?_, ?_, reported⟩
    · exact covers.whole.uses List.not_mem_nil
    · rw [List.map_nil, List.append_nil]
      exact covers.unknown n unknown
  · exact (spares_ok _).blamesAt front _

theorem asAuth_takesNone (auths : Auths) : TakesNone (asAuth auths) :=
  .of_sound (asAuth_lingers auths) fun hs tidy read => by
    obtain ⟨name, ws, rfl, _, _, rest⟩ := asAuth_sound hs tidy read
    exact ⟨asWords name, ws, rfl, (inner_asWords name).defineAuth_notMem, rest⟩

theorem httpMethod_takesNone : TakesNone httpMethod :=
  .of_sound httpMethod_proceeds.lingers fun {s t ws method} hs tidy read => by
    obtain ⟨ws, rfl, rest⟩ := of_httpMethod hs tidy read
    exact ⟨[.mark (methodKeyword method)], ws, rfl, by cases method <;> decide, rest⟩

theorem resource_blames (covers : Covers auths front) : Blames front (resource auths) := by
  refine .bind (blames_of_spares httpMethod_spares front) httpMethod_takesNone fun method ws hws => ?_
  have covers := covers_persists.append covers hws
  refine .bind (blames_of_spares (Stream.expectText_spares _) _) (Stream.expectText_takesNone _)
    fun uri ws hws => ?_
  have covers := covers_persists.append covers hws
  refine .bind (asAuth_blames covers) (asAuth_takesNone auths) fun auth ws _ => ?_
  exact blames_of_spares (Stream.optionalBlock_spares resourceItem_spares _) _

/-- The lines of a service block. -/
theorem serviceItem_guards (auths : Auths) :
    Stream.Guards (serviceItem auths) ServiceItem.words (fun _ => ServiceItemValid auths)
      (addItem auths) (fun _ => Covers auths) where
  lines := serviceItem_lines auths
  proceeds := serviceItem_proceeds auths
  append := covers_persists.append
  line x covers := covers_persists.append covers x.inner_words.defineAuth_notMem
  blames := by
    intro a front covers s tidy
    rw [serviceItem]
    have resources := (resource_blames covers tidy).bind fun r _ =>
      (spares_ok (({ a.1 with resources := a.1.resources ++ [r.1] }, a.2), r.2)).blamesAt front s
    split
    case h_4 => exact resources
    case h_5 => exact resources
    all_goals refine Spares.blamesAt ?_ front s
    case h_3 => exact (metric_spares s).bind fun _ => spares_ok _
    case h_6 => exact (decoder_spares s).bind fun _ => spares_ok _
    case h_7 => exact spares_unexpected s _
    all_goals exact (option_spares _ s).bind fun _ => spares_ok _

theorem service_blames (context : Context) (stack : Option String) (covers : Covers auths front) :
    Blames front (service context auths stack) := by
  rw [show service context auths stack = _ from funext (service_eq context auths stack)]
  refine .bind (blames_of_spares (Stream.expect_spares _) front)
    (Stream.expect_takesNone (by decide) nofun nofun) fun span ws hws => ?_
  have covers := covers_persists.append covers hws
  refine .bind (blames_of_spares (Stream.expectTexts_spares _) _) (Stream.expectTexts_takesNone _)
    fun names ws hws => ?_
  have covers := covers_persists.append covers hws
  refine .bind (asAuth_blames covers) (asAuth_takesNone auths) fun auth ws hws => ?_
  have covers := covers_persists.append covers hws
  intro s tidy
  -- From here on auths are looked up in the block only.
  refine ((authOr_spares context span auth).blamesAt _ s).bind fun auth _ => ?_
  refine ((serviceItem_guards auths).optionalBlock covers tidy).bind fun _ _ => ?_
  refine Spares.blamesAt ((settle_spares context _ _ span).bind fun service => ?_) _ s
  rw [stamp_eq_ok]
  exact spares_ok _

/-- The lines of a stack. -/
theorem stackItem_guards (context : Context) (stack : String) :
    Stream.Guards (stackItem context stack) StackItem.words (StackItemValid context)
      (StackItem.apply context stack) (fun d => Covers d.auths) where
  lines := stackItem_lines context stack
  proceeds := stackItem_proceeds context stack
  append := covers_persists.append
  line {d front} x covers := by
    have line := covers_persists.stackItem context stack covers x trivial List.not_mem_nil
    rwa [List.append_nil] at line
  blames := by
    intro d front covers s tidy
    rw [stackItem]
    split
    · exact (service_blames context (some stack) covers tidy).bind fun _ _ =>
        (spares_ok _).blamesAt front s
    · exact Spares.blamesAt ((auth_spares _ s).bind fun _ => spares_ok _) front s
    · exact (spares_unexpected s _).blamesAt front s

theorem stack_blames (context : Context) {d : Draft} (covers : Covers d.auths front) :
    Blames front (stack context d) := by
  refine .bind (blames_of_spares (Stream.expect_spares _) front)
    (Stream.expect_takesNone (by decide) nofun nofun) fun span ws hws => ?_
  have covers := covers_persists.append covers hws
  refine .bind (blames_of_spares (Stream.expectText_spares _) _) (Stream.expectText_takesNone _)
    fun name ws hws => ?_
  exact (stackItem_guards context name).block (covers_persists.append covers hws)

theorem documentSection_blames (context : Context) {d : Draft} (covers : Covers d.auths front) :
    Blames front (documentSection context d) := by
  intro s tidy
  rw [documentSection]
  split
  · exact (spares_ok _).blamesAt front s
  · exact Spares.blamesAt ((auth_spares _ s).bind fun _ => spares_ok _) front s
  · exact stack_blames context covers tidy
  · exact (service_blames context none covers tidy).bind fun _ _ => (spares_ok _).blamesAt front s
  · exact (spares_unexpected s _).blamesAt front s

/-- By induction on what is left of the stream. -/
theorem sections_blames (context : Context) {d : Draft} (covers : Covers d.auths front) :
    Blames front (sections context d) := by
  intro s
  induction hn : s.rest.length using Nat.strongRecOn generalizing d front s with
  | ind n ih =>
    intro tidy
    rw [sections]
    split
    · exact (spares_ok _).blamesAt front s
    · split
      · next found => exact (documentSection_blames context covers tidy).of_error found
      · next d' t read =>
        obtain ⟨tidy₁, passed, split₁, x, rfl, hpassed⟩ :=
          Takes.of_reads (documentSection_proceeds context d).lingers (section_reads context d)
            tidy read
        have covers := covers_persists.documentSection (fun _ => trivial) context covers x trivial
          List.not_mem_nil
        rw [List.append_nil] at covers
        split
        · exact (spares_ok _).blamesAt front s
        · split
          · split
            · next found => exact (t.skipSameLevel_spares.of_error found).blamesAt front s
            · next u skipped =>
              obtain ⟨tidy₂, levels, m, split₂, hlevels⟩ := Stream.skipSameLevel_takes tidy₁ skipped
              have covers := covers_persists.append covers (defineAuth_notMem_sameLevels m)
              split
              · next shorter =>
                have rest := ih _ (hn ▸ shorter) (hlevels ▸ hpassed ▸ covers) rfl tidy₂
                exact (rest.behind split₂).behind split₁
              · exact spares_endless.blamesAt front s
          · exact (spares_unexpected t _).blamesAt front s

theorem body_blames (context : Context) (covers : Covers (Draft.auths {}) front) :
    Blames front (body context) := by
  intro s tidy e fails undefined
  rcases bind_eq_error.mp fails with skipped | ⟨t, skipped, fails⟩
  · exact absurd undefined (s.skipSameLevel_spares e skipped)
  · obtain ⟨tidy, levels, m, split, hlevels⟩ := Stream.skipSameLevel_takes tidy skipped
    have covers := covers_persists.append covers (defineAuth_notMem_sameLevels m)
    exact (sections_blames context (hlevels ▸ covers) tidy e fails undefined).behind split

/-- An auth that is reported as undefined is used where the error stands, and no definition of it
begins in front. -/
theorem ofTokens_undefined {threaded : Bool} {context : Context} {source : String}
    {tokens : List Token} {e : ParseError} (h : tokenize threaded context source = .ok tokens)
    (fails : ofTokens tokens = .error (.error e))
    (undefined : e.problem.kind = .undefinedReference) :
    ∃ before as t behind n, tokens = before ++ as :: t :: behind ∧ as.word = .mark .as ∧
      t.word = .name n ∧ Uses (before.map Token.word) ∧ ¬ Begins n (before.map Token.word) ∧
        e = .atSpan (.undefinedAuth n) t.span := by
  obtain ⟨ts, rfl, cut⟩ := tokenize_eq_ok.mp h
  have none_bad : ∀ t ∈ Token.opening context :: ts, t.kind ≠ .badIndent := by
    rw [ofTokens] at fails
    split at fails
    · obtain rfl := ReadFault.error.inj (Except.error.inj fails)
      cases undefined
    · next none_bad => exact none_badIndent.mp none_bad
  rw [ofTokens_cons rfl none_bad] at fails
  have covers : Covers (Draft.auths {}) [.mark .ctx] :=
    ⟨around_of_notMem (by decide), fun _ _ => not_begins_of_notMem (by decide)⟩
  have tidy := tidy_of_tokenizes cut rfl
  rcases bind_eq_error.mp fails with fails | ⟨_, _, ⟨⟩⟩
  obtain ⟨passed, as, t, behind, n, split, has, ht, uses, unknown, reported⟩ :=
    body_blames _ covers tidy e fails undefined
  exact ⟨.opening context :: passed, as, t, behind, n, congrArg (List.cons _) split, has, ht, uses,
    unknown, reported⟩

end Document

end ScrapeConfig
