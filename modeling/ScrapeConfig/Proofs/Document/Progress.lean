import Mathlib.Data.List.TakeWhile
import ScrapeConfig.Document.Reader

/-!
# Readers move on

Every line of a document takes a token, and what is passed is never the end of input. So reading
comes to an end, with a value or with an error, unless a stream has no end of input and its last
token is a same-level token, which is waited on for ever.

Results:
1. `Halts`: a computation that comes to an end.
2. `Stream.Passes`, `Stream.MovesTo`: a stream behind tokens of another one. `Stream.Ending`: streams
   that are not waited on for ever.
3. `Proceeds`, `Lingers`: readers that come to an end on such streams, with one lemma for each reader
   of documents. Readers of lines proceed, that is, they take a token.
4. `Document.ofTokens_halts`: so it is with whole documents.
-/

namespace ScrapeConfig

variable {α β : Type}

/-- Comes to an end, and its value is as told. -/
inductive Halts (Q : α → Prop) : Except ReadFault α → Prop
  | ok {a : α} : Q a → Halts Q (.ok a)
  | error (e : ParseError) : Halts Q (.error (.error e))

namespace Halts

variable {P Q : α → Prop} {x : Except ReadFault α}

theorem mono (h : Halts P x) (hPQ : ∀ a, P a → Q a) : Halts Q x := by
  cases h with
  | ok ha => exact .ok (hPQ _ ha)
  | error e => exact .error e

theorem bind {Q : β → Prop} {f : α → Except ReadFault β} (h : Halts P x)
    (hf : ∀ a, P a → Halts Q (f a)) : Halts Q (x >>= f) := by
  cases h with
  | ok ha => exact hf _ ha
  | error e => exact .error e

theorem of_ok {a : α} (h : Halts P (.ok a)) : P a := by
  cases h with
  | ok ha => exact ha

theorem ne_endless (h : Halts P x) : x ≠ .error .endless := by
  cases h <;> exact nofun

end Halts

/-! ## Streams -/

namespace Stream

variable {s t u : Stream}

/-- Is not waited on for ever. -/
def Ending (s : Stream) : Prop := s.last.kind = .sameLevel → ∃ x ∈ s.rest, x.kind = .eof

/-- `t` is `s` behind some tokens, none of which is the end of input. -/
structure Passes (s t : Stream) : Prop where
  rest : ∃ front, s.rest = front ++ t.rest ∧ ∀ x ∈ front, x.kind ≠ .eof
  last : t.last = s.last

/-- `t` is `s` behind at least one token, if there is one. -/
structure MovesTo (s t : Stream) : Prop extends Passes s t where
  shorter : s.rest ≠ [] → t.rest.length < s.rest.length

theorem Passes.refl (s : Stream) : s.Passes s := ⟨⟨[], rfl, nofun⟩, rfl⟩

theorem Passes.trans (h : s.Passes t) (h' : t.Passes u) : s.Passes u := by
  obtain ⟨front, heq, hfront⟩ := h.rest
  obtain ⟨front', heq', hfront'⟩ := h'.rest
  refine ⟨⟨front ++ front', ?_, List.forall_mem_append.mpr ⟨hfront, hfront'⟩⟩,
    h'.last.trans h.last⟩
  rw [heq, heq', List.append_assoc]

theorem Passes.length_le (h : s.Passes t) : t.rest.length ≤ s.rest.length := by
  obtain ⟨front, heq, _⟩ := h.rest
  rw [heq, List.length_append]
  exact Nat.le_add_left _ _

/-- The end of input is never passed. -/
theorem Passes.ending (h : s.Passes t) (hs : s.Ending) : t.Ending := by
  intro waits
  obtain ⟨x, hx, eof⟩ := hs (h.last ▸ waits)
  obtain ⟨front, heq, hfront⟩ := h.rest
  rw [heq] at hx
  exact ⟨x, (List.mem_append.mp hx).resolve_left fun hx => hfront x hx eof, eof⟩

theorem MovesTo.trans (h : s.MovesTo t) (h' : t.Passes u) : s.MovesTo u :=
  ⟨h.toPasses.trans h', fun some => Nat.lt_of_le_of_lt h'.length_le (h.shorter some)⟩

theorem Passes.movesTo (h : s.Passes t) (h' : t.MovesTo u) : s.MovesTo u := by
  refine ⟨h.trans h'.toPasses, fun some => ?_⟩
  by_cases none : t.rest = []
  · have nothing : u.rest.length ≤ 0 := by simpa [none] using h'.length_le
    exact Nat.lt_of_le_of_lt nothing (List.length_pos_iff.mpr some)
  · exact Nat.lt_of_lt_of_le (h'.shorter none) h.length_le

theorem advance_cons {t last : Token} {rest : List Token} (h : t.kind ≠ .eof) :
    advance ⟨t :: rest, last⟩ = ⟨rest, last⟩ := by
  have more : kind ⟨t :: rest, last⟩ ≠ .eof := h
  exact if_neg (by simpa [atEnd] using more)

theorem movesTo_advance (h : s.kind ≠ .eof) : s.MovesTo s.advance := by
  obtain ⟨rest, last⟩ := s
  cases rest with
  | nil => exact ⟨.refl _, absurd rfl⟩
  | cons x rest =>
    rw [advance_cons (t := x) h]
    exact ⟨⟨⟨[x], rfl, List.forall_mem_singleton.mpr h⟩, rfl⟩, fun _ => Nat.lt_succ_self _⟩

theorem Ending.skipSameLevel (h : s.Ending) : Halts s.Passes s.skipSameLevel := by
  rw [Stream.skipSameLevel]
  have split := List.takeWhile_append_dropWhile (p := (·.kind == .sameLevel)) (l := s.rest)
  have passed : ∀ x ∈ s.rest.takeWhile (·.kind == .sameLevel), x.kind ≠ .eof := fun x hx eof => by
    have same := List.mem_takeWhile_imp hx
    rw [eof] at same
    cases same
  split
  · next stuck =>
    rw [Bool.and_eq_true, List.isEmpty_iff, beq_iff_eq] at stuck
    obtain ⟨x, hx, eof⟩ := h stuck.2
    rw [← split, stuck.1, List.append_nil] at hx
    exact absurd eof (passed x hx)
  · exact .ok ⟨⟨_, split.symm, passed⟩, rfl⟩

end Stream

/-! ## Readers -/

/-- The reader comes to an end, behind at least one token. -/
def Proceeds (f : Stream → Except ReadFault (α × Stream)) : Prop :=
  ∀ ⦃s : Stream⦄, s.Ending → Halts (s.MovesTo ·.2) (f s)

/-- The reader comes to an end, perhaps without a token. -/
def Lingers (f : Stream → Except ReadFault (α × Stream)) : Prop :=
  ∀ ⦃s : Stream⦄, s.Ending → Halts (s.Passes ·.2) (f s)

variable {f : Stream → Except ReadFault (α × Stream)} {s t : Stream}

theorem Lingers.behind (hf : Lingers f) (ht : s.MovesTo t) (h : s.Ending) :
    Halts (s.MovesTo ·.2) (f t) :=
  (hf (ht.ending h)).mono fun _ => ht.trans

theorem Proceeds.lingers (hf : Proceeds f) : Lingers f := fun _ h => (hf h).mono fun _ => (·.toPasses)

theorem Proceeds.behind (hf : Proceeds f) (ht : s.MovesTo t) (h : s.Ending) :
    Halts (s.MovesTo ·.2) (f t) :=
  hf.lingers.behind ht h

namespace Stream

theorem expect_proceeds {k : TokenKind} (hk : k ≠ .eof) : Proceeds (·.expect k) := by
  intro s _
  show Halts _ (s.expect k)
  rw [expect]
  split
  · next kind => exact .ok (movesTo_advance (kind ▸ hk))
  · exact .error _

theorem expectText_proceeds (what : String) : Proceeds (·.expectText what) := by
  intro s _
  show Halts _ (s.expectText what)
  rw [expectText]
  split
  · next name =>
    have ne : s.kind ≠ .eof := by
      rcases name with kind | kind <;> exact kind ▸ nofun
    exact .ok (movesTo_advance ne)
  · exact .error _

theorem advance_of_nil (h : s.rest = []) : s.advance = s := by
  rw [advance, atEnd, h]
  rfl

theorem kind_of_nil (h : s.rest = []) : s.kind = s.last.kind := by
  rw [kind, current, h]
  rfl

theorem shorter_of_comma {what text : String} (comma : s.kind = .comma)
    (read : s.advance.expectText what = .ok (text, t)) : t.rest.length < s.rest.length := by
  by_cases none : s.rest = []
  · rw [advance_of_nil none, expectText, comma] at read
    cases read
  · rw [expectText] at read
    split at read
    · obtain ⟨_, rfl⟩ := Prod.mk.inj (Except.ok.inj read)
      have next : s.MovesTo s.advance := movesTo_advance (comma ▸ nofun)
      exact Nat.lt_of_le_of_lt (length_advance _) (next.shorter none)
    · cases read

/-- A comma and what stands behind it. -/
theorem moreTexts_comma {what : String} (comma : s.kind = .comma) :
    moreTexts what s = (do
      let (text, t) ← s.advance.expectText what
      let (texts, u) ← moreTexts what t
      return (text :: texts, u)) := by
  rw [moreTexts, if_pos comma]
  cases read : s.advance.expectText what with
  | error e => rfl
  | ok found =>
    obtain ⟨text, t⟩ := found
    dsimp only
    rw [if_pos (shorter_of_comma comma read)]
    show _ = (moreTexts what t >>= _)
    cases moreTexts what t <;> rfl

/-- By induction on what is left of the stream. -/
theorem moreTexts_lingers (what : String) : Lingers (moreTexts what) := by
  intro s h
  induction hn : s.rest.length using Nat.strongRecOn generalizing s with
  | ind n ih =>
    by_cases comma : s.kind = .comma
    · rw [moreTexts_comma comma]
      have next := (expectText_proceeds what).behind (movesTo_advance (comma ▸ nofun)) h
      cases read : s.advance.expectText what with
      | error fault =>
        rw [read] at next
        cases next
        exact .error _
      | ok x =>
        obtain ⟨text, t⟩ := x
        have ht : s.MovesTo t := (read ▸ next).of_ok
        refine (ih _ (hn ▸ shorter_of_comma comma read) (ht.ending h) rfl).bind fun _ hu => ?_
        exact .ok (ht.trans hu).toPasses
    · rw [moreTexts, if_neg comma]
      exact .ok (.refl s)

theorem expectTexts_proceeds (what : String) : Proceeds (·.expectTexts what) := fun _ h =>
  (expectText_proceeds what h).bind fun _ ht =>
    ((moreTexts_lingers what).behind ht h).bind fun _ hu => .ok hu

/-! ## Blocks -/

section

variable {σ : Type} {item : σ → Stream → Except ReadFault (σ × Stream)}

/-- A reader of lines that comes to an end takes a token for every line. -/
theorem blockLines_shorter {a b : σ} (halts : blockLines item a s ≠ .error .endless)
    (skipped : s.skipSameLevel = .ok t) (notClosed : t.kind ≠ .blockClose) (further : t.kind ≠ .eof)
    (read : item a t = .ok (b, u)) (ends : u.kind = .sameLevel ∨ u.kind = .blockClose) :
    u.rest.length < s.rest.length := by
  by_contra shorter
  refine halts ?_
  rw [blockLines, skipped]
  dsimp only
  rw [if_neg notClosed, if_neg further, read]
  dsimp only
  rw [if_pos ends, if_neg shorter]

/-- The reader of the lines of a block where it comes to an end. -/
theorem blockLines_eq {a : σ} (halts : blockLines item a s ≠ .error .endless) :
    blockLines item a s = (do
      let t ← s.skipSameLevel
      if t.kind = .blockClose then .ok (a, t.advance)
      else if t.kind = .eof then .error (t.unexpected "end of block")
      else do
        let (b, u) ← item a t
        if u.kind = .sameLevel ∨ u.kind = .blockClose then blockLines item b u
        else .error (u.unexpected "end of line")) := by
  rw [blockLines]
  cases skipped : s.skipSameLevel with
  | error e => rfl
  | ok t =>
    show _ = ite _ _ _
    dsimp only
    split
    · rfl
    next notClosed =>
    split
    · rfl
    next further =>
    cases read : item a t with
    | error e => rfl
    | ok found =>
      obtain ⟨b, u⟩ := found
      show _ = ite _ _ _
      dsimp only
      split
      · next ends => rw [if_pos (blockLines_shorter halts skipped notClosed further read ends)]
      · rfl

/-- By induction on what is left of the stream. Behind its last token nothing but a same-level token
or the end of a block could be read as a line, and neither of them is. -/
theorem blockLines_lingers (hitem : ∀ a, Proceeds (item a)) (a : σ) :
    Lingers (blockLines item a) := by
  intro s h
  induction hn : s.rest.length using Nat.strongRecOn generalizing a s with
  | ind n ih =>
    rw [blockLines]
    have skipped := h.skipSameLevel
    generalize s.skipSameLevel = x at skipped ⊢
    cases skipped with
    | error e => exact .error e
    | @ok t ht =>
      dsimp only
      split
      · next close => exact .ok (ht.movesTo (movesTo_advance (close ▸ nofun))).toPasses
      · next notClosed =>
        split
        · exact .error _
        · have line := hitem a (ht.ending h)
          generalize item a t = y at line ⊢
          cases line with
          | error e => exact .error e
          | @ok read hu =>
            obtain ⟨b, u⟩ := read
            dsimp only at hu ⊢
            split
            · next ends =>
              have some : t.rest ≠ [] := fun none => by
                have nothing : u.rest = [] := by simpa [none] using hu.length_le
                rw [kind_of_nil nothing, hu.last, ← kind_of_nil none] at ends
                have waits := ends.resolve_right notClosed
                obtain ⟨x, hx, _⟩ := ht.ending h (kind_of_nil none ▸ waits)
                rw [none] at hx
                exact absurd hx List.not_mem_nil
              have shorter := Nat.lt_of_lt_of_le (hu.shorter some) ht.length_le
              have passed := ht.trans hu.toPasses
              rw [if_pos shorter]
              exact (ih _ (hn ▸ shorter) b (passed.ending h) rfl).mono fun _ => passed.trans
            · exact .error _

theorem block_proceeds (hitem : ∀ a, Proceeds (item a)) (a : σ) : Proceeds (block item a) :=
  fun _ h => (expect_proceeds (by decide : TokenKind.blockOpen ≠ .eof) h).bind fun _ ht =>
    (blockLines_lingers hitem a).behind ht h

theorem optionalBlock_lingers (hitem : ∀ a, Proceeds (item a)) (a : σ) :
    Lingers (optionalBlock item a) := by
  intro s h
  rw [optionalBlock]
  split
  · exact (block_proceeds hitem a).lingers h
  · exact .ok (.refl s)

end

end Stream

/-! ## Sections -/

namespace Document

open ScrapeConfig.Stream

theorem setting_proceeds (m : Options) : Proceeds (setting m) := fun _ h =>
  (expect_proceeds (by decide) h).bind fun _ ht =>
    ((expectText_proceeds _).behind ht h).bind fun _ hu =>
      ((expect_proceeds (by decide)).behind hu h).bind fun _ hv =>
        ((expectText_proceeds _).behind hv h).bind fun _ hw => .ok hw

theorem settingLine_proceeds (m : Options) : Proceeds (settingLine m) := by
  intro s h
  rw [settingLine]
  split
  · exact setting_proceeds m h
  · exact .error _

theorem option_proceeds (m : Options) : Proceeds (option m) := by
  intro s h
  rw [option]
  split
  · exact setting_proceeds m h
  · next kind =>
    exact (block_proceeds settingLine_proceeds m).behind (movesTo_advance (kind ▸ nofun)) h
  · exact .error _

theorem decoder_proceeds : Proceeds decoder := fun _ h =>
  (expect_proceeds (by decide) h).bind fun _ ht =>
    ((expectText_proceeds _).behind ht h).bind fun _ hu =>
      ((optionalBlock_lingers option_proceeds _).behind hu h).bind fun _ hv => .ok hv

theorem reporting_halts (span : Span) (x : Except StoreError α) :
    Halts (fun _ => True) (reporting span x) := by
  cases x with
  | ok a => exact .ok trivial
  | error e => exact .error _

theorem authName_proceeds (auths : Auths) : Proceeds (authName auths) := by
  intro s h
  refine (expectText_proceeds _ h).bind fun read ht => ?_
  dsimp only
  cases auths.lookup read.1 with
  | none => exact .error _
  | some auth => exact (reporting_halts _ auth.copy).bind fun _ _ => .ok ht

theorem asAuth_lingers (auths : Auths) : Lingers (asAuth auths) := by
  intro s h
  rw [asAuth]
  split
  · next kind =>
    refine ((authName_proceeds auths).behind (movesTo_advance (kind ▸ nofun)) h).bind ?_
    exact fun _ ht => .ok ht.toPasses
  · exact .ok (.refl s)

theorem metricType_proceeds : Proceeds metricType := by
  intro s _
  rw [metricType]
  split
  case h_5 => exact .error _
  all_goals
    next kind => exact .ok (movesTo_advance (kind ▸ nofun))

/-- Items of a metric begin with a word that says what they are. -/
theorem metricItem_proceeds (d : MetricDraft) : Proceeds (metricItem d) := by
  intro s h
  by_cases eof : s.kind = .eof
  · rw [metricItem, eof]
    exact .error _
  have next : s.MovesTo s.advance := movesTo_advance eof
  rw [metricItem]
  split
  · exact ((expectText_proceeds _).behind next h).bind fun _ ht => .ok ht
  · exact (metricType_proceeds.behind next h).bind fun _ ht => .ok ht
  · exact ((expectText_proceeds _).behind next h).bind fun _ ht => .ok ht
  · exact ((expectText_proceeds _).behind next h).bind fun _ ht => .ok ht
  · exact ((expectTexts_proceeds _).behind next h).bind fun _ ht => .ok ht
  · exact ((expectText_proceeds _).behind next h).bind fun _ ht => .ok ht
  · exact (option_proceeds _ h).bind fun _ ht => .ok ht
  · exact (option_proceeds _ h).bind fun _ ht => .ok ht
  · exact .error _

theorem finish_halts (d : MetricDraft) (span : Span) : Halts (fun _ => True) (d.finish span) := by
  rw [MetricDraft.finish]
  split
  · exact .error _
  · exact .error _
  · exact .ok trivial

theorem metric_proceeds : Proceeds metric := fun _ h =>
  (expect_proceeds (by decide) h).bind fun _ ht =>
    ((block_proceeds metricItem_proceeds _).behind ht h).bind fun read hu =>
      (finish_halts read.1 _).bind fun _ _ => .ok hu

theorem resourceItem_proceeds (r : Resource) : Proceeds (resourceItem r) := by
  intro s h
  rw [resourceItem]
  split
  · exact (option_proceeds _ h).bind fun _ ht => .ok ht
  · exact (option_proceeds _ h).bind fun _ ht => .ok ht
  · exact (metric_proceeds h).bind fun _ ht => .ok ht
  · exact (decoder_proceeds h).bind fun _ ht => .ok ht
  · exact .error _

theorem httpMethod_proceeds : Proceeds httpMethod := by
  intro s _
  rw [httpMethod]
  split
  · next kind => exact .ok (movesTo_advance (kind ▸ nofun))
  · next kind => exact .ok (movesTo_advance (kind ▸ nofun))
  · exact .error _

theorem resource_proceeds (auths : Auths) : Proceeds (resource auths) := fun _ h =>
  (httpMethod_proceeds h).bind fun _ ht =>
    ((expectText_proceeds _).behind ht h).bind fun _ hu =>
      ((asAuth_lingers auths).behind hu h).bind fun _ hv =>
        (optionalBlock_lingers resourceItem_proceeds _).behind hv h

theorem serviceItem_proceeds (auths : Auths) (a : Service × Options) :
    Proceeds (serviceItem auths a) := by
  intro s h
  rw [serviceItem]
  dsimp only
  split
  · exact (option_proceeds _ h).bind fun _ ht => .ok ht
  · exact (option_proceeds _ h).bind fun _ ht => .ok ht
  · exact (metric_proceeds h).bind fun _ ht => .ok ht
  · exact (resource_proceeds auths h).bind fun _ ht => .ok ht
  · exact (resource_proceeds auths h).bind fun _ ht => .ok ht
  · exact (decoder_proceeds h).bind fun _ ht => .ok ht
  · exact .error _

theorem takeString_halts (m : Options) (key : String) (span : Span) :
    Halts (fun _ => True) (takeString m key span) := by
  rw [takeString]
  split
  · exact .ok trivial
  · exact .ok trivial
  · exact .error _

theorem takeMode_halts (m : Options) (span : Span) :
    Halts (fun _ => True) (takeMode m span) := by
  refine (takeString_halts m "mode" span).bind fun ⟨text, m⟩ _ => ?_
  cases text with
  | none => exact .ok trivial
  | some text =>
    dsimp only
    split
    · exact .ok trivial
    · exact .error _

theorem settle_halts (context : Context) (service : Service) (options : Options) (span : Span) :
    Halts (fun _ => True) (settle context service options span) :=
  (reporting_halts span _).bind fun merged _ =>
    (takeMode_halts merged span).bind fun taken _ =>
      (takeString_halts taken.2 "location" span).bind fun _ _ => .ok trivial

/-- By induction on the names. -/
theorem stamp_halts (service : Service) (span : Span) (names : List String) :
    Halts (fun _ => True) (stamp service span names) := by
  induction names with
  | nil => exact .ok trivial
  | cons name names ih =>
    exact (reporting_halts span service.copy).bind fun _ _ => ih.bind fun _ _ => .ok trivial

theorem service_proceeds (context : Context) (auths : Auths) (stack : Option String) :
    Proceeds (service context auths stack) := by
  intro s h
  refine (expect_proceeds (by decide) h).bind fun x hx => ?_
  refine ((expectTexts_proceeds _).behind hx h).bind fun names ht => ?_
  refine ((asAuth_lingers auths).behind ht h).bind fun named hu => ?_
  have behind (auth : Option Auth) : Halts (s.MovesTo ·.2)
      (do
        let lines ←
          named.2.optionalBlock (serviceItem auths) ({ name := "", stack, auth }, .empty)
        let service ← settle context lines.1.1 lines.1.2 x.1
        return (← stamp service x.1 names.1, lines.2)) := by
    refine ((optionalBlock_lingers (serviceItem_proceeds auths) _).behind hu h).bind fun _ hv => ?_
    refine (settle_halts context _ _ x.1).bind fun settled _ => ?_
    exact (stamp_halts settled x.1 names.1).bind fun _ _ => .ok hv
  obtain ⟨auth, u⟩ := named
  cases auth with
  | none => exact (reporting_halts x.1 _).bind fun auth _ => behind auth
  | some auth => exact behind (some auth)

theorem auth_proceeds (auths : Auths) : Proceeds (auth auths) := fun _ h =>
  (expect_proceeds (by decide) h).bind fun _ ht =>
    ((expectText_proceeds _).behind ht h).bind fun _ hu =>
      ((expect_proceeds (by decide)).behind hu h).bind fun _ hv =>
        ((expectText_proceeds _).behind hv h).bind fun _ hw =>
          ((optionalBlock_lingers option_proceeds _).behind hw h).bind fun _ hx => .ok hx

theorem stackItem_proceeds (c : Context) (stack : String) (d : Draft) :
    Proceeds (stackItem c stack d) := by
  intro s h
  rw [stackItem]
  split
  · exact (service_proceeds c d.auths _ h).bind fun _ ht => .ok ht
  · exact (auth_proceeds d.auths h).bind fun _ ht => .ok ht
  · exact .error _

theorem stack_proceeds (c : Context) (d : Draft) : Proceeds (stack c d) := fun _ h =>
  (expect_proceeds (by decide) h).bind fun _ ht =>
    ((expectText_proceeds _).behind ht h).bind fun name hu =>
      (block_proceeds (stackItem_proceeds c name.1) d).behind hu h

theorem documentSection_proceeds (c : Context) (d : Draft) : Proceeds (documentSection c d) := by
  intro s h
  rw [documentSection]
  split
  · next kind => exact .ok (movesTo_advance (kind ▸ nofun))
  · exact (auth_proceeds d.auths h).bind fun _ ht => .ok ht
  · exact stack_proceeds c d h
  · exact (service_proceeds c d.auths _ h).bind fun _ ht => .ok ht
  · exact .error _

/-- By induction on what is left of the stream. -/
theorem sections_halts (c : Context) (d : Draft) {s : Stream} (h : s.Ending) :
    Halts (fun _ => True) (sections c d s) := by
  induction hn : s.rest.length using Nat.strongRecOn generalizing d s with
  | ind n ih =>
    rw [sections]
    split
    · exact .ok trivial
    next more =>
    have some : s.rest ≠ [] := fun none => more (by rw [atEnd, none]; rfl)
    have first := documentSection_proceeds c d h
    generalize documentSection c d s = x at first ⊢
    cases first with
    | error e => exact .error e
    | @ok read ht =>
      obtain ⟨d, t⟩ := read
      dsimp only at ht ⊢
      split
      · exact .ok trivial
      split
      · have skipped := (ht.ending h).skipSameLevel
        generalize t.skipSameLevel = y at skipped ⊢
        cases skipped with
        | error e => exact .error e
        | @ok u hu =>
          have shorter := (ht.trans hu).shorter some
          dsimp only
          rw [if_pos shorter]
          exact ih _ (hn ▸ shorter) d ((ht.trans hu).ending h) rfl
      · exact .error _

/-- A reader of sections that comes to an end takes a token for every section. -/
theorem sections_shorter {c : Context} {d d' : Draft} {s t u : Stream}
    (halts : sections c d s ≠ .error .endless) (more : ¬ s.atEnd)
    (read : documentSection c d s = .ok (d', t)) (more' : ¬ t.atEnd) (same : t.kind = .sameLevel)
    (skipped : t.skipSameLevel = .ok u) : u.rest.length < s.rest.length := by
  by_contra shorter
  refine halts ?_
  rw [sections, if_neg more, read]
  dsimp only
  rw [if_neg more', if_pos same, skipped]
  dsimp only
  rw [if_neg shorter]

/-- The reader of sections where it comes to an end. -/
theorem sections_eq {c : Context} {d : Draft} {s : Stream}
    (halts : sections c d s ≠ .error .endless) :
    sections c d s = if s.atEnd then .ok d else (do
      let (d, t) ← documentSection c d s
      if t.atEnd then .ok d
      else if t.kind = .sameLevel then do
        let u ← t.skipSameLevel
        sections c d u
      else .error (t.unexpected "end of line")) := by
  rw [sections]
  split
  · rfl
  next more =>
  cases read : documentSection c d s with
  | error e => rfl
  | ok found =>
    obtain ⟨d', t⟩ := found
    show _ = ite _ _ _
    dsimp only
    split
    · rfl
    next more' =>
    split
    · next same =>
      cases skipped : t.skipSameLevel with
      | error e => rfl
      | ok u => exact if_pos (sections_shorter halts more read more' same skipped)
    · rfl

theorem context_proceeds : Proceeds context := by
  intro s _
  rw [context]
  split
  · next kind =>
    split <;> exact .ok (movesTo_advance (kind ▸ nofun))
  · exact .error _

/-- A document whose last token is no same-level token, or in which the end of input stands, is read
as a configuration or an error is reported. -/
theorem ofTokens_halts {tokens : List Token} (h : (Stream.ofList tokens).Ending) :
    Halts (fun _ => True) (ofTokens tokens) := by
  rw [ofTokens]
  split
  · exact .error _
  · refine (context_proceeds h).bind fun read ht => ?_
    refine (ht.ending h).skipSameLevel.bind fun t hu => ?_
    exact (sections_halts read.1 {} ((ht.trans hu).ending h)).bind fun _ _ => .ok trivial

end Document

end ScrapeConfig
