import ScrapeConfig.Document.Reader
import ScrapeConfig.Proofs.Document.Word

/-!
# Streams that look alike

Readers see of a token what the grammar sees of it, and of the context token the context. Of two
streams that agree in this, token by token, they read the same, or they report the same at tokens
that go together.

Results:
1. `Pairing`: which tokens of two streams go together. `Stream.Alike`: streams of such tokens.
2. `Ends`: what two computations end with. `Ends.bind` puts two of them behind each other, and
   `Ends.branch` chooses between two of them.
3. `ReadsAlike`: a reader that can not tell streams apart that look alike, with one lemma for each
   reader of documents.
4. `Document.ofTokens_alike`: so it is with whole documents.
-/

namespace ScrapeConfig

/-- The context that a token carries; a token without one stands for the empty context. -/
def Token.context (t : Token) : Context :=
  match t.payload with
  | .context c => c
  | _ => {}

/-- Which tokens of two streams go together. Readers can not tell them apart. -/
structure Pairing where
  pairs : Token → Token → Prop
  word_eq : ∀ {t t' : Token}, pairs t t' → t.word = t'.word
  context_eq : ∀ {t t' : Token}, pairs t t' → t.kind = .ctx → t.context = t'.context

variable {R : Pairing} {α β : Type}

theorem Token.kind_eq_or {t t' : Token} (h : t.word = t'.word) :
    t.kind = t'.kind ∨ t.kind.IsName ∧ t'.kind.IsName := by
  by_cases name : t.kind.IsName
  · exact .inr ⟨name, (word_eq_name_iff.mp (h.symm.trans (word_eq_name_iff.mpr ⟨name, rfl⟩))).1⟩
  · exact .inl (word_eq_mark_iff.mp (h.symm.trans (word_eq_mark_iff.mpr ⟨rfl, name⟩))).1.symm

/-! ## Tokens that go together -/

theorem isEmpty_eq_of_forall₂ {P : α → β → Prop} {xs : List α} {ys : List β}
    (h : List.Forall₂ P xs ys) : xs.isEmpty = ys.isEmpty := by
  cases h <;> rfl

theorem Pairing.kind_eq_iff {t t' : Token} (h : R.pairs t t') {k : TokenKind} (hk : ¬ k.IsName) :
    t.kind = k ↔ t'.kind = k := by
  rcases Token.kind_eq_or (R.word_eq h) with kind | ⟨name, name'⟩
  · rw [kind]
  · exact iff_of_false (fun heq => hk (heq ▸ name)) (fun heq => hk (heq ▸ name'))

theorem Pairing.kind_beq_eq {t t' : Token} (h : R.pairs t t') {k : TokenKind} (hk : ¬ k.IsName) :
    (t.kind == k) = (t'.kind == k) := by
  rw [Bool.eq_iff_iff, beq_iff_eq, beq_iff_eq, Pairing.kind_eq_iff h hk]

/-- By induction on the tokens. -/
theorem forall₂_dropWhile_kind {ts ts' : List Token} (h : List.Forall₂ R.pairs ts ts')
    {k : TokenKind} (hk : ¬ k.IsName) :
    List.Forall₂ R.pairs (ts.dropWhile (·.kind == k)) (ts'.dropWhile (·.kind == k)) := by
  induction h with
  | nil => exact .nil
  | @cons t t' ts ts' pair pairs ih =>
    rw [List.dropWhile_cons, List.dropWhile_cons, Pairing.kind_beq_eq pair hk]
    split
    · exact ih
    · exact .cons pair pairs

/-- The spans of tokens that go together. -/
def Pairing.Spans (R : Pairing) (span span' : Span) : Prop :=
  ∃ t t', R.pairs t t' ∧ span = t.span ∧ span' = t'.span

/-- The same problem at tokens that go together. If the token itself is the problem, each of them
is shown as it is. -/
inductive ReadFault.Alike (R : Pairing) : ReadFault → ReadFault → Prop
  | endless : Alike R .endless .endless
  | unexpected {t t' : Token} (expected : String) : R.pairs t t' →
      Alike R (.error (.atSpan (.unexpectedToken expected t.display) t.span))
        (.error (.atSpan (.unexpectedToken expected t'.display) t'.span))
  | problem {span span' : Span} (p : Problem) : R.Spans span span' →
      Alike R (.error (.atSpan p span)) (.error (.atSpan p span'))

/-- What two computations end with: values that go together, or faults that are alike. -/
inductive Ends (R : Pairing) (Q : α → α → Prop) :
    Except ReadFault α → Except ReadFault α → Prop
  | ok {a a' : α} : Q a a' → Ends R Q (.ok a) (.ok a')
  | error {f f' : ReadFault} : f.Alike R f' → Ends R Q (.error f) (.error f')

/-- Tokens at which an error is reported instead of a value. -/
theorem Ends.problem {Q : α → α → Prop} {span span' : Span} (p : Problem) (h : R.Spans span span') :
    Ends R Q (.error (.error (.atSpan p span))) (.error (.error (.atSpan p span'))) :=
  .error (.problem p h)

theorem Ends.bind {Q : α → α → Prop} {P : β → β → Prop} {x x' : Except ReadFault α}
    {f f' : α → Except ReadFault β} (hx : Ends R Q x x')
    (hf : ∀ a a', Q a a' → Ends R P (f a) (f' a')) : Ends R P (x >>= f) (x' >>= f') := by
  cases hx with
  | ok ha => exact hf _ _ ha
  | error hf => exact .error hf

/-- What is decided in the same way. -/
theorem Ends.branch {Q : α → α → Prop} {p p' : Prop} [Decidable p] [Decidable p']
    {x x' y y' : Except ReadFault α} (same : p ↔ p') (yes : p → Ends R Q x x')
    (no : ¬ p → Ends R Q y y') : Ends R Q (if p then x else y) (if p' then x' else y') := by
  by_cases h : p
  · rw [if_pos h, if_pos (same.mp h)]
    exact yes h
  · rw [if_neg h, if_neg (mt same.mpr h)]
    exact no h

/-! ## Streams -/

/-- Streams of tokens that go together. -/
structure Stream.Alike (R : Pairing) (s s' : Stream) : Prop where
  rest : List.Forall₂ R.pairs s.rest s'.rest
  last : R.pairs s.last s'.last

/-- The same value, with streams behind it that look alike. -/
inductive Pairing.Reads (R : Pairing) : α × Stream → α × Stream → Prop
  | behind {s s' : Stream} (a : α) : s.Alike R s' → Reads R (a, s) (a, s')

/-- The reader can not tell streams apart that look alike. -/
def ReadsAlike (R : Pairing) (f : Stream → Except ReadFault (α × Stream)) : Prop :=
  ∀ {s s' : Stream}, s.Alike R s' → Ends R R.Reads (f s) (f s')

/-- What is computed from the same value. -/
theorem Ends.same {P : β → β → Prop} {x x' : Except ReadFault α} {f f' : α → Except ReadFault β}
    (hx : Ends R Eq x x') (hf : ∀ a, Ends R P (f a) (f' a)) : Ends R P (x >>= f) (x' >>= f') := by
  refine hx.bind ?_
  rintro a _ rfl
  exact hf a

/-- What is computed from the values that two readers agree in. -/
theorem Ends.read {P : β → β → Prop} {x x' : Except ReadFault (α × Stream)}
    {f f' : α × Stream → Except ReadFault β} (hx : Ends R R.Reads x x')
    (hf : ∀ a t t', t.Alike R t' → Ends R P (f (a, t)) (f' (a, t'))) :
    Ends R P (x >>= f) (x' >>= f') := by
  refine hx.bind ?_
  rintro _ _ ⟨a, ht⟩
  exact hf a _ _ ht

namespace Stream

variable {s s' : Stream}

namespace Alike

theorem current (h : s.Alike R s') : R.pairs s.current s'.current := by
  obtain ⟨rest, last⟩ := s
  obtain ⟨rest', last'⟩ := s'
  obtain ⟨pairs, pair⟩ := h
  cases pairs with
  | nil => exact pair
  | cons first _ => exact first

theorem spans (h : s.Alike R s') : R.Spans s.current.span s'.current.span :=
  ⟨_, _, h.current, rfl, rfl⟩

theorem kind_eq_or (h : s.Alike R s') : s.kind = s'.kind ∨ s.kind.IsName ∧ s'.kind.IsName :=
  Token.kind_eq_or (R.word_eq h.current)

theorem kind_iff (h : s.Alike R s') {k : TokenKind} (hk : ¬ k.IsName) : s.kind = k ↔ s'.kind = k :=
  Pairing.kind_eq_iff h.current hk

theorem isName_iff (h : s.Alike R s') : s.kind.IsName ↔ s'.kind.IsName := by
  rcases h.kind_eq_or with kind | ⟨name, name'⟩
  · rw [kind]
  · exact iff_of_true name name'

theorem text_eq (h : s.Alike R s') (name : s.kind.IsName) :
    s.current.text?.getD "" = s'.current.text?.getD "" := by
  have word : s.current.word = .name _ := Token.word_eq_name_iff.mpr ⟨name, rfl⟩
  rw [R.word_eq h.current] at word
  exact (Token.word_eq_name_iff.mp word).2.symm

theorem length_eq (h : s.Alike R s') : s.rest.length = s'.rest.length := h.rest.length_eq

theorem atEnd_eq (h : s.Alike R s') : s.atEnd = s'.atEnd := by
  have kind : (s.kind == .eof) = (s'.kind == .eof) := Pairing.kind_beq_eq h.current (by decide)
  rw [atEnd, atEnd, isEmpty_eq_of_forall₂ h.rest, kind]

theorem advance (h : s.Alike R s') : s.advance.Alike R s'.advance := by
  rw [Stream.advance, Stream.advance, h.atEnd_eq]
  split
  · exact h
  · refine ⟨?_, h.last⟩
    show List.Forall₂ R.pairs s.rest.tail s'.rest.tail
    rw [← List.drop_one, ← List.drop_one]
    exact List.forall₂_drop 1 h.rest

theorem unexpected (h : s.Alike R s') (expected : String) {Q : α → α → Prop} :
    Ends R Q (.error (s.unexpected expected)) (.error (s'.unexpected expected)) :=
  .error (.unexpected expected h.current)

theorem expect (h : s.Alike R s') {k : TokenKind} (hk : ¬ k.IsName) :
    Ends R (fun x x' => R.Spans x.1 x'.1 ∧ x.2.Alike R x'.2) (s.expect k) (s'.expect k) := by
  rw [Stream.expect, Stream.expect]
  exact .branch (h.kind_iff hk) (fun _ => .ok ⟨h.spans, h.advance⟩) fun _ => h.unexpected _

end Alike

theorem expectText_alike (what : String) : ReadsAlike R (·.expectText what) := by
  intro s s' h
  show Ends R _ (s.expectText what) (s'.expectText what)
  rw [expectText, expectText]
  refine .branch h.isName_iff (fun name => ?_) fun _ => h.unexpected what
  rw [h.text_eq name]
  exact .ok (.behind _ h.advance)

/-- By induction on what is left of the streams. -/
theorem moreTexts_alike (what : String) : ReadsAlike R (moreTexts what) := by
  intro s s' h
  induction hn : s.rest.length using Nat.strong_induction_on generalizing s s' with
  | _ n ih =>
    rw [moreTexts, moreTexts]
    refine .branch (h.kind_iff (by decide)) (fun _ => ?_) fun _ => .ok (.behind _ h)
    have next := expectText_alike what h.advance
    dsimp only at next
    generalize s.advance.expectText what = x, s'.advance.expectText what = x' at next ⊢
    cases next with
    | error fault => exact .error fault
    | ok hx =>
      obtain @⟨t, t', text, ht⟩ := hx
      dsimp only
      rw [← ht.length_eq, ← h.length_eq]
      split
      · next shorter =>
        have more := ih _ (hn ▸ shorter) ht rfl
        generalize moreTexts what t = y, moreTexts what t' = y' at more ⊢
        obtain ⟨⟨texts, hu⟩⟩ | fault := more
        · exact .ok (.behind _ hu)
        · exact .error fault
      · exact .error .endless

theorem expectTexts_alike (what : String) : ReadsAlike R (·.expectTexts what) := fun h =>
  (expectText_alike what h).read fun _ _ _ ht =>
    (moreTexts_alike what ht).read fun _ _ _ hu => .ok (.behind _ hu)

/-! ## Blocks -/

theorem Alike.skipSameLevel (h : s.Alike R s') :
    Ends R (Stream.Alike R) s.skipSameLevel s'.skipSameLevel := by
  have passed := forall₂_dropWhile_kind (k := .sameLevel) h.rest (by decide)
  rw [Stream.skipSameLevel, Stream.skipSameLevel, Pairing.kind_beq_eq h.last (by decide),
    isEmpty_eq_of_forall₂ passed]
  split
  · exact .error .endless
  · exact .ok ⟨passed, h.last⟩

variable {σ : Type} {item : σ → Stream → Except ReadFault (σ × Stream)}

/-- By induction on what is left of the streams. -/
theorem blockLines_alike (hitem : ∀ a, ReadsAlike R (item a)) (a : σ) :
    ReadsAlike R (blockLines item a) := by
  intro s s' h
  induction hn : s.rest.length using Nat.strong_induction_on generalizing a s s' with
  | _ n ih =>
    rw [blockLines, blockLines]
    have skipped := h.skipSameLevel
    generalize s.skipSameLevel = x, s'.skipSameLevel = x' at skipped ⊢
    cases skipped with
    | error fault => exact .error fault
    | @ok t t' ht =>
      dsimp only
      refine .branch (ht.kind_iff (by decide)) (fun _ => .ok (.behind a ht.advance)) fun _ => ?_
      refine .branch (ht.kind_iff (by decide)) (fun _ => ht.unexpected _) fun _ => ?_
      have line := hitem a ht
      generalize item a t = y, item a t' = y' at line ⊢
      cases line with
      | error fault => exact .error fault
      | ok hy =>
        obtain @⟨u, u', b, hu⟩ := hy
        dsimp only
        rw [← hu.length_eq, ← h.length_eq]
        refine .branch (or_congr (hu.kind_iff (by decide)) (hu.kind_iff (by decide)))
          (fun _ => ?_) fun _ => hu.unexpected _
        split
        · next shorter => exact ih _ (hn ▸ shorter) b hu rfl
        · exact .error .endless

theorem block_alike (hitem : ∀ a, ReadsAlike R (item a)) (a : σ) : ReadsAlike R (block item a) :=
  fun h => (h.expect (by decide)).bind fun _ _ hx => blockLines_alike hitem a hx.2

theorem optionalBlock_alike (hitem : ∀ a, ReadsAlike R (item a)) (a : σ) :
    ReadsAlike R (optionalBlock item a) := by
  intro s s' h
  rw [optionalBlock, optionalBlock]
  exact .branch (h.kind_iff (by decide)) (fun _ => block_alike hitem a h) fun _ => .ok (.behind a h)

end Stream

/-- A reader that goes by the kind of the current token, and to which all names are alike because it
expects none. -/
theorem ReadsAlike.of_kind {f : Stream → Except ReadFault (α × Stream)} (expected : String)
    (names : ∀ s : Stream, s.kind.IsName → f s = .error (s.unexpected expected))
    (same : ∀ {s s' : Stream}, s.Alike R s' → s.kind = s'.kind → Ends R R.Reads (f s) (f s')) :
    ReadsAlike R f := by
  intro s s' h
  rcases h.kind_eq_or with kind | ⟨name, name'⟩
  · exact same h kind
  · rw [names s name, names s' name']
    exact h.unexpected expected

/-! ## Sections -/

namespace Document

open ScrapeConfig.Stream

theorem setting_alike (m : Options) : ReadsAlike R (setting m) := fun h =>
  (h.expect (by decide)).bind fun _ _ ht =>
    (expectText_alike _ ht.2).read fun _ _ _ hu =>
      (hu.expect (by decide)).bind fun _ _ hv =>
        (expectText_alike _ hv.2).read fun _ _ _ hw => .ok (.behind _ hw)

theorem settingLine_alike (m : Options) : ReadsAlike R (settingLine m) := by
  intro s s' h
  rw [settingLine, settingLine]
  exact .branch (h.kind_iff (by decide)) (fun _ => setting_alike m h) fun _ => h.unexpected _

theorem option_alike (m : Options) : ReadsAlike R (option m) := by
  refine ReadsAlike.of_kind _ (fun s name => by
    rcases name with kind | kind <;> rw [option, kind]) fun {s s'} h kind => ?_
  rw [option, option, kind]
  split
  · exact setting_alike m h
  · exact block_alike settingLine_alike m h.advance
  · exact h.unexpected _

theorem decoder_alike : ReadsAlike R decoder := fun h =>
  (h.expect (by decide)).bind fun _ _ ht =>
    (expectText_alike _ ht.2).read fun _ _ _ hu =>
      (optionalBlock_alike option_alike _ hu).read fun _ _ _ hv => .ok (.behind _ hv)

theorem reporting_alike {span span' : Span} (hs : R.Spans span span') (x : Except StoreError α) :
    Ends R Eq (reporting span x) (reporting span' x) := by
  cases x with
  | ok a => exact .ok rfl
  | error e => exact .problem _ hs

theorem authName_alike (auths : Auths) : ReadsAlike R (authName auths) := by
  intro s s' h
  refine (expectText_alike _ h).read fun name t t' ht => ?_
  dsimp only
  cases auths.lookup name with
  | none => exact .problem _ h.spans
  | some auth =>
    exact (reporting_alike h.spans auth.copy).same fun copy => .ok (.behind copy ht)

theorem asAuth_alike (auths : Auths) : ReadsAlike R (asAuth auths) := by
  intro s s' h
  rw [asAuth, asAuth]
  refine .branch (h.kind_iff (by decide)) (fun _ => ?_) fun _ => .ok (.behind none h)
  exact (authName_alike auths h.advance).read fun _ _ _ ht => .ok (.behind _ ht)

theorem metricType_alike : ReadsAlike R metricType := by
  refine ReadsAlike.of_kind _ (fun s name => by
    rcases name with kind | kind <;> rw [metricType, kind]) fun {s s'} h kind => ?_
  rw [metricType, metricType, kind]
  split
  case h_5 => exact h.unexpected _
  all_goals exact .ok (.behind _ h.advance)

theorem metricItem_alike (d : MetricDraft) : ReadsAlike R (metricItem d) := by
  refine ReadsAlike.of_kind _ (fun s name => by
    rcases name with kind | kind <;> rw [metricItem, kind]) fun {s s'} h kind => ?_
  rw [metricItem, metricItem, kind]
  split
  · exact (expectText_alike _ h.advance).read fun _ _ _ ht => .ok (.behind _ ht)
  · exact (metricType_alike h.advance).read fun _ _ _ ht => .ok (.behind _ ht)
  · exact (expectText_alike _ h.advance).read fun _ _ _ ht => .ok (.behind _ ht)
  · exact (expectText_alike _ h.advance).read fun _ _ _ ht => .ok (.behind _ ht)
  · exact (expectTexts_alike _ h.advance).read fun _ _ _ ht => .ok (.behind _ ht)
  · exact (expectText_alike _ h.advance).read fun _ _ _ ht => .ok (.behind _ ht)
  · exact (option_alike _ h).read fun _ _ _ ht => .ok (.behind _ ht)
  · exact (option_alike _ h).read fun _ _ _ ht => .ok (.behind _ ht)
  · exact h.unexpected _

theorem finish_alike (d : MetricDraft) {span span' : Span} (hs : R.Spans span span') :
    Ends R Eq (d.finish span) (d.finish span') := by
  rw [MetricDraft.finish, MetricDraft.finish]
  split
  · exact .problem _ hs
  · exact .problem _ hs
  · exact .ok rfl

theorem metric_alike : ReadsAlike R metric := by
  intro s s' h
  refine (h.expect (by decide)).bind fun x x' hx => ?_
  refine (block_alike metricItem_alike _ hx.2).read fun draft t t' ht => ?_
  exact (finish_alike draft hx.1).same fun m => .ok (.behind m ht)

theorem resourceItem_alike (r : Resource) : ReadsAlike R (resourceItem r) := by
  refine ReadsAlike.of_kind _ (fun s name => by
    rcases name with kind | kind <;> rw [resourceItem, kind]) fun {s s'} h kind => ?_
  rw [resourceItem, resourceItem, kind]
  split
  · exact (option_alike _ h).read fun _ _ _ ht => .ok (.behind _ ht)
  · exact (option_alike _ h).read fun _ _ _ ht => .ok (.behind _ ht)
  · exact (metric_alike h).read fun _ _ _ ht => .ok (.behind _ ht)
  · exact (decoder_alike h).read fun _ _ _ ht => .ok (.behind _ ht)
  · exact h.unexpected _

theorem httpMethod_alike : ReadsAlike R httpMethod := by
  refine ReadsAlike.of_kind _ (fun s name => by
    rcases name with kind | kind <;> rw [httpMethod, kind]) fun {s s'} h kind => ?_
  rw [httpMethod, httpMethod, kind]
  split
  · exact .ok (.behind _ h.advance)
  · exact .ok (.behind _ h.advance)
  · exact h.unexpected _

theorem resource_alike (auths : Auths) : ReadsAlike R (resource auths) := fun h =>
  (httpMethod_alike h).read fun _ _ _ ht =>
    (expectText_alike _ ht).read fun _ _ _ hu =>
      (asAuth_alike auths hu).read fun _ _ _ hv => optionalBlock_alike resourceItem_alike _ hv

theorem serviceItem_alike (auths : Auths) (a : Service × Options) :
    ReadsAlike R (serviceItem auths a) := by
  refine ReadsAlike.of_kind _ (fun s name => by
    rcases name with kind | kind <;> rw [serviceItem, kind]) fun {s s'} h kind => ?_
  rw [serviceItem, serviceItem, kind]
  dsimp only
  split
  · exact (option_alike _ h).read fun _ _ _ ht => .ok (.behind _ ht)
  · exact (option_alike _ h).read fun _ _ _ ht => .ok (.behind _ ht)
  · exact (metric_alike h).read fun _ _ _ ht => .ok (.behind _ ht)
  · exact (resource_alike auths h).read fun _ _ _ ht => .ok (.behind _ ht)
  · exact (resource_alike auths h).read fun _ _ _ ht => .ok (.behind _ ht)
  · exact (decoder_alike h).read fun _ _ _ ht => .ok (.behind _ ht)
  · exact h.unexpected _

section

variable {span span' : Span}

theorem takeString_alike (m : Options) (key : String) (hs : R.Spans span span') :
    Ends R Eq (takeString m key span) (takeString m key span') := by
  rw [takeString, takeString]
  split
  · exact .ok rfl
  · exact .ok rfl
  · exact .problem _ hs

theorem takeMode_alike (m : Options) (hs : R.Spans span span') :
    Ends R Eq (takeMode m span) (takeMode m span') := by
  refine (takeString_alike m "mode" hs).same fun ⟨text, m⟩ => ?_
  cases text with
  | none => exact .ok rfl
  | some text =>
    dsimp only
    split
    · exact .ok rfl
    · exact .problem _ hs

theorem settle_alike (context : Context) (service : Service) (options : Options)
    (hs : R.Spans span span') :
    Ends R Eq (settle context service options span) (settle context service options span') := by
  refine (reporting_alike hs _).same fun merged => ?_
  refine (takeMode_alike merged hs).same fun ⟨mode, merged⟩ => ?_
  exact (takeString_alike merged "location" hs).same fun _ => .ok rfl

/-- By induction on the names. -/
theorem stamp_alike (service : Service) (hs : R.Spans span span') (names : List String) :
    Ends R Eq (stamp service span names) (stamp service span' names) := by
  induction names with
  | nil => exact .ok rfl
  | cons name names ih =>
    refine (reporting_alike hs service.copy).same fun copy => ?_
    exact ih.same fun copies => .ok rfl

end

theorem service_alike (context : Context) (auths : Auths) (stack : Option String) :
    ReadsAlike R (service context auths stack) := by
  intro s s' h
  refine (h.expect (by decide)).bind fun x x' hx => ?_
  refine (expectTexts_alike _ hx.2).read fun names t t' ht => ?_
  refine (asAuth_alike auths ht).read fun named u u' hu => ?_
  have behind (auth : Option Auth) : Ends R R.Reads
      (do
        let lines ← u.optionalBlock (serviceItem auths) ({ name := "", stack, auth }, .empty)
        let service ← settle context lines.1.1 lines.1.2 x.1
        return (← stamp service x.1 names, lines.2))
      (do
        let lines ← u'.optionalBlock (serviceItem auths) ({ name := "", stack, auth }, .empty)
        let service ← settle context lines.1.1 lines.1.2 x'.1
        return (← stamp service x'.1 names, lines.2)) := by
    refine (optionalBlock_alike (serviceItem_alike auths) _ hu).read fun lines v v' hv => ?_
    refine (settle_alike context lines.1 lines.2 hx.1).same fun settled => ?_
    exact (stamp_alike settled hx.1 names).same fun services => .ok (.behind services hv)
  cases named with
  | none => exact (reporting_alike hx.1 _).same behind
  | some auth => exact behind (some auth)

theorem auth_alike (auths : Auths) : ReadsAlike R (auth auths) := fun h =>
  (h.expect (by decide)).bind fun _ _ ht =>
    (expectText_alike _ ht.2).read fun _ _ _ hu =>
      (hu.expect (by decide)).bind fun _ _ hv =>
        (expectText_alike _ hv.2).read fun _ _ _ hw =>
          (optionalBlock_alike option_alike _ hw).read fun _ _ _ hx => .ok (.behind _ hx)

theorem stackItem_alike (c : Context) (stack : String) (d : Draft) :
    ReadsAlike R (stackItem c stack d) := by
  refine ReadsAlike.of_kind _ (fun s name => by
    rcases name with kind | kind <;> rw [stackItem, kind]) fun {s s'} h kind => ?_
  rw [stackItem, stackItem, kind]
  split
  · exact (service_alike c d.auths _ h).read fun _ _ _ ht => .ok (.behind _ ht)
  · exact (auth_alike d.auths h).read fun _ _ _ ht => .ok (.behind _ ht)
  · exact h.unexpected _

theorem stack_alike (c : Context) (d : Draft) : ReadsAlike R (stack c d) := fun h =>
  (h.expect (by decide)).bind fun _ _ ht =>
    (expectText_alike _ ht.2).read fun name _ _ hu => block_alike (stackItem_alike c name) d hu

theorem documentSection_alike (c : Context) (d : Draft) : ReadsAlike R (documentSection c d) := by
  refine ReadsAlike.of_kind _ (fun s name => by
    rcases name with kind | kind <;> rw [documentSection, kind]) fun {s s'} h kind => ?_
  rw [documentSection, documentSection, kind]
  split
  · exact .ok (.behind _ h.advance)
  · exact (auth_alike d.auths h).read fun _ _ _ ht => .ok (.behind _ ht)
  · exact stack_alike c d h
  · exact (service_alike c d.auths _ h).read fun _ _ _ ht => .ok (.behind _ ht)
  · exact h.unexpected _

/-- By induction on what is left of the streams. -/
theorem sections_alike (c : Context) (d : Draft) {s s' : Stream} (h : s.Alike R s') :
    Ends R Eq (sections c d s) (sections c d s') := by
  induction hn : s.rest.length using Nat.strong_induction_on generalizing d s s' with
  | _ n ih =>
    rw [sections, sections, h.atEnd_eq]
    split
    · exact .ok rfl
    have first := documentSection_alike c d h
    generalize documentSection c d s = x, documentSection c d s' = x' at first ⊢
    cases first with
    | error fault => exact .error fault
    | ok hx =>
      obtain @⟨t, t', d, ht⟩ := hx
      dsimp only
      rw [ht.atEnd_eq]
      split
      · exact .ok rfl
      refine .branch (ht.kind_iff (by decide)) (fun _ => ?_) fun _ => ht.unexpected _
      have skipped := ht.skipSameLevel
      generalize t.skipSameLevel = y, t'.skipSameLevel = y' at skipped ⊢
      cases skipped with
      | error fault => exact .error fault
      | ok hu =>
        dsimp only
        rw [← hu.length_eq, ← h.length_eq]
        split
        · next shorter => exact ih _ (hn ▸ shorter) d hu rfl
        · exact .error .endless

theorem context_eq (s : Stream) : context s =
    if s.kind = .ctx then .ok (s.current.context, s.advance) else .error (s.unexpected "CTX") := by
  rw [context, Token.context]
  split
  · cases s.current.payload <;> rfl
  · rfl

theorem context_alike : ReadsAlike R context := by
  intro s s' h
  rw [context_eq, context_eq]
  refine .branch (h.kind_iff (by decide)) (fun ctx => ?_) fun _ => h.unexpected _
  rw [R.context_eq h.current ctx]
  exact .ok (.behind _ h.advance)

end Document

/-! ## Documents -/

theorem Stream.alike_ofList {tokens tokens' : List Token} (h : List.Forall₂ R.pairs tokens tokens')
    (nonempty : tokens ≠ []) : (ofList tokens).Alike R (ofList tokens') := by
  refine ⟨h, ?_⟩
  have backwards := List.forall₂_reverse_iff.mpr h
  have some := mt List.reverse_eq_nil_iff.mp nonempty
  rw [ofList, ofList, List.getLast?_eq_head?_reverse, List.getLast?_eq_head?_reverse]
  generalize tokens.reverse = backward, tokens'.reverse = backward' at backwards some ⊢
  cases backwards with
  | nil => exact absurd rfl some
  | cons last _ => exact last

/-- A wrong dedent is reported of tokens that go together, by induction on the tokens. -/
theorem find?_badIndent_alike {tokens tokens' : List Token}
    (h : List.Forall₂ R.pairs tokens tokens') :
    Option.Rel R.pairs (tokens.find? (·.kind == .badIndent))
      (tokens'.find? (·.kind == .badIndent)) := by
  induction h with
  | nil => exact .none
  | @cons t t' _ _ pair _ ih =>
    rw [List.find?_cons, List.find?_cons, Pairing.kind_beq_eq pair (by decide)]
    split
    · exact .some pair
    · exact ih

/-- Of tokens that go together documents read the same. -/
theorem Document.ofTokens_alike {tokens tokens' : List Token}
    (h : List.Forall₂ R.pairs tokens tokens') (nonempty : tokens ≠ []) :
    Ends R Eq (ofTokens tokens) (ofTokens tokens') := by
  rw [ofTokens, ofTokens]
  have wrong := find?_badIndent_alike h
  generalize tokens.find? _ = x, tokens'.find? _ = x' at wrong ⊢
  cases wrong with
  | some pair => exact .problem _ ⟨_, _, pair, rfl, rfl⟩
  | none =>
    refine (context_alike (Stream.alike_ofList h nonempty)).read fun c s s' hs => ?_
    refine hs.skipSameLevel.bind fun t t' ht => ?_
    exact (sections_alike c {} ht).same fun _ => .ok rfl

end ScrapeConfig
