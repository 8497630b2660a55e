import ScrapeConfig.Proofs.Document.Languages
import ScrapeConfig.Proofs.Document.Progress

/-!
# Predictive readers

A reader looks one token ahead and not further: what it reads, and the error it reports, is settled
by the tokens up to the one that it stops at. It stops at an unexpected token as soon as no word of
its language goes on like this, and it takes no token that its language does not have there.

Results:
1. `Rejects`, `Outlook`: what a reader does with tokens, whatever stands behind those it has seen.
2. `Accepts`: how a reader ends on words of its language.
3. `Predictive`: both together, with one lemma for each way to put readers together:
   `Predictive.bind`, `Predictive.optional`, `Predictive.of_branches`.
-/

namespace ScrapeConfig

open Syntax

variable {α β σ τ : Type} {L M : Language Word} {p q : Word → Prop} {tokens : List Token}

/-- The error is reported at the token. -/
def ParseError.IsAt (e : ParseError) (t : Token) : Prop :=
  e.line = t.span.line ∧ e.column = t.span.column

theorem ParseError.isAt_atSpan (problem : Problem) (t : Token) :
    (ParseError.atSpan problem t.span).IsAt t :=
  ⟨rfl, rfl⟩

/-! ## Tidy words -/

theorem Tidy.suffix {vs ws : List Word} (tidy : Tidy (vs ++ ws)) (some : ws ≠ []) : Tidy ws := by
  induction vs with
  | nil => exact tidy
  | cons v vs ih =>
    refine ih (tidy.tail ?_)
    rintro rfl
    rw [List.cons_append] at tidy
    generalize heq : vs ++ ws = rest at tidy
    cases tidy with
    | eof => exact some (List.append_eq_nil_iff.mp heq).2
    | line hb _ _ => exact absurd hb (by simp [Word.BeginsLine])
    | word _ heof _ => exact heof rfl

theorem Tidy.behind {passed behind : List Token} {t : Token}
    (tidy : Tidy ((passed ++ t :: behind).map Token.word)) :
    Tidy ((t :: behind).map Token.word) :=
  Tidy.suffix (List.map_append ▸ tidy) nofun

theorem Word.IsContent.kind_ne {t : Token} (content : t.word.IsContent) {k : TokenKind}
    (hk : k.isStructural = true) : t.kind ≠ k := by
  rintro rfl
  have mark : ¬ t.kind.IsName := by
    rintro (kind | kind) <;> (rw [kind] at hk; cases hk)
  rw [Token.word_eq_mark_iff.mpr ⟨rfl, mark⟩] at content
  exact Bool.noConfusion (hk.symm.trans content)

theorem exists_cons_of_tidy (tidy : Tidy (tokens.map Token.word)) :
    ∃ t ts, tokens = t :: ts :=
  List.exists_cons_of_ne_nil fun none => tidy.ne_nil (by rw [none]; rfl)

/-- Tokens that begin with `t` go on doing so, whatever is put behind the first part of them. -/
theorem exists_cons_of_split {t t' : Token} {behind behind' passed : List Token}
    (h : t :: behind = passed ++ t' :: behind') (rest : List Token) :
    ∃ rest', passed ++ t' :: rest = t :: rest' := by
  cases passed with
  | nil => exact ⟨rest, by rw [(List.cons.inj h).1]; rfl⟩
  | cons x passed => exact ⟨passed ++ t' :: rest, by rw [(List.cons.inj h).1]; rfl⟩

/-! ## What a reader does with tokens -/

/-- The reader reports an error that is settled by the tokens up to `t`. If a token was unexpected,
then it is `t`, and with the tokens before it a word of the language begins. -/
inductive Rejects (L : Language Word) (f : Stream → Except ReadFault β) (tokens : List Token) : Prop
  | intro (passed : List Token) (t : Token) (behind : List Token) (e : ParseError)
      (split : tokens = passed ++ t :: behind)
      (place : e.problem.kind = .unexpectedToken → e.IsAt t ∧ Viable L (passed.map Token.word))
      (fails : ∀ behind' last, f ⟨passed ++ t :: behind', last⟩ = .error (.error e))

/-- The reader passes a word of the language, and this is settled by the token `t` behind it, or it
rejects the tokens. -/
inductive Outlook (L : Language Word) (f : Stream → Except ReadFault (α × Stream))
    (tokens : List Token) : Prop
  | reads (passed : List Token) (t : Token) (behind : List Token) (a : α)
      (split : tokens = passed ++ t :: behind) (words : passed.map Token.word ∈ L)
      (reads : ∀ behind' last, f ⟨passed ++ t :: behind', last⟩ = .ok (a, ⟨t :: behind', last⟩))
  | rejects (h : Rejects L f tokens)

theorem Viable.mul_right {ws : List Word} (h : Viable L ws) (some : ∃ v, v ∈ M) :
    Viable (L * M) ws := by
  obtain ⟨v, hv, before⟩ := h
  obtain ⟨w, hw⟩ := some
  exact ⟨v ++ w, Language.append_mem_mul hv hw, before.trans (List.prefix_append _ _)⟩

theorem viable_nil (some : ∃ v, v ∈ L) : Viable L [] := by
  obtain ⟨v, hv⟩ := some
  exact ⟨v, hv, List.nil_prefix⟩

namespace Rejects

variable {f g : Stream → Except ReadFault β}

/-- What is done with tokens depends on what is done with those that are left behind some of them. -/
theorem ahead (passed : List Token) {behind : List Token} {t : Token} (h : Rejects M g (t :: behind))
    (words : ∀ v ∈ M, passed.map Token.word ++ v ∈ L)
    (same : ∀ rest last, f ⟨passed ++ t :: rest, last⟩ = g ⟨t :: rest, last⟩) :
    Rejects L f (passed ++ t :: behind) := by
  obtain ⟨passed', t', behind', e, split, place, fails⟩ := h
  refine .intro (passed ++ passed') t' behind' e ?_
    (fun unexpected => ⟨(place unexpected).1, ?_⟩) fun rest last => ?_
  · rw [split, List.append_assoc]
  · obtain ⟨v, hv, before⟩ := (place unexpected).2
    rw [List.map_append]
    exact ⟨_, words v hv, (List.prefix_append_right_inj _).mpr before⟩
  · obtain ⟨rest', heq⟩ := exists_cons_of_split split rest
    rw [List.append_assoc, heq, same, ← heq]
    exact fails rest last

theorem unexpected {t : Token} {ts : List Token} {expected : String} (some : ∃ v, v ∈ L)
    (h : ∀ rest last, f ⟨t :: rest, last⟩ =
      .error (Stream.unexpected ⟨t :: rest, last⟩ expected)) : Rejects L f (t :: ts) := by
  refine .intro [] t ts (.atSpan (.unexpectedToken expected t.display) t.span) rfl
    (fun _ => ⟨?_, viable_nil some⟩) h
  exact ParseError.isAt_atSpan _ t

/-- A problem that is no unexpected token. -/
theorem problem {t : Token} {ts : List Token} {e : ParseError}
    (other : e.problem.kind ≠ .unexpectedToken)
    (h : ∀ rest last, f ⟨t :: rest, last⟩ = .error (.error e)) : Rejects L f (t :: ts) :=
  .intro [] t ts e rfl (fun unexpected => absurd unexpected other) h

theorem bind {f : Stream → Except ReadFault (α × Stream)} {k : α × Stream → Except ReadFault β}
    (h : Rejects L f tokens) (some : ∃ v, v ∈ M) : Rejects (L * M) (fun s => f s >>= k) tokens := by
  obtain ⟨passed, t, behind, e, split, place, fails⟩ := h
  refine ⟨passed, t, behind, e, split, fun unexpected => ?_, fun behind last => ?_⟩
  · exact ⟨(place unexpected).1, (place unexpected).2.mul_right some⟩
  · show f _ >>= k = _
    rw [fails behind last]
    rfl

end Rejects

namespace Outlook

variable {f g : Stream → Except ReadFault (α × Stream)}

theorem ahead (passed : List Token) {behind : List Token} {t : Token}
    (h : Outlook M g (t :: behind))
    (words : ∀ v ∈ M, passed.map Token.word ++ v ∈ L)
    (same : ∀ rest last, f ⟨passed ++ t :: rest, last⟩ = g ⟨t :: rest, last⟩) :
    Outlook L f (passed ++ t :: behind) := by
  cases h with
  | rejects h => exact .rejects (h.ahead passed words same)
  | reads passed' t' behind' a split words' reads =>
    refine .reads (passed ++ passed') t' behind' a ?_ ?_ ?_
    · rw [split, List.append_assoc]
    · rw [List.map_append]
      exact words _ words'
    · intro rest last
      obtain ⟨rest', heq⟩ := exists_cons_of_split split rest
      rw [List.append_assoc, heq, same, ← heq]
      exact reads rest last

/-- What is done with tokens that begin with `t` depends on streams that do so. -/
theorem congr {t : Token} {ts : List Token} (h : Outlook L g (t :: ts)) (sub : ∀ v ∈ L, v ∈ M)
    (same : ∀ rest last, f ⟨t :: rest, last⟩ = g ⟨t :: rest, last⟩) : Outlook M f (t :: ts) :=
  h.ahead [] sub same

theorem bind {k : α × Stream → Except ReadFault (β × Stream)} (hf : Outlook L f tokens)
    (some : ∃ v, v ∈ M)
    (hk : ∀ {passed behind : List Token} {t : Token} (a : α), tokens = passed ++ t :: behind →
      passed.map Token.word ∈ L → Outlook M (fun s => k (a, s)) (t :: behind)) :
    Outlook (L * M) (fun s => f s >>= k) tokens := by
  cases hf with
  | rejects h => exact .rejects (h.bind some)
  | reads passed t behind a split words reads =>
    subst split
    refine (hk a rfl words).ahead passed (fun _ => Language.append_mem_mul words) fun rest last => ?_
    show f _ >>= k = _
    rw [reads rest last]
    rfl

/-- A reader whose value is put elsewhere. -/
theorem map (h : Outlook L f tokens) (g : α → β) :
    Outlook L (fun s => do let (a, s) ← f s; return (g a, s)) tokens := by
  cases h with
  | rejects h =>
    obtain ⟨passed, t, behind, e, split, place, fails⟩ := h
    exact .rejects ⟨passed, t, behind, e, split, place, fun rest last => by
      rw [fails rest last]
      rfl⟩
  | reads passed t behind a split words reads =>
    exact .reads passed t behind (g a) split words fun rest last => by rw [reads rest last]; rfl

end Outlook

/-! ## How a reader ends on words of its language -/

/-- The words `ws` are left, or there is a problem that is no unexpected token. -/
inductive Accepts (ws : List Word) : Except ReadFault (α × Stream) → Prop
  | ok {a : α} {t : Stream} : t.Shows ws → Accepts ws (.ok (a, t))
  | error {e : ParseError} : e.problem.kind ≠ .unexpectedToken → Accepts ws (.error (.error e))

theorem Accepts.bind {ws ws' : List Word} {x : Except ReadFault (α × Stream)}
    {k : α × Stream → Except ReadFault (β × Stream)} (hx : Accepts ws x)
    (hk : ∀ a t, t.Shows ws → Accepts ws' (k (a, t))) : Accepts ws' (x >>= k) := by
  cases hx with
  | ok ht => exact hk _ _ ht
  | error other => exact .error other

/-- The computation may find a problem, but no unexpected token. -/
def Quiet (x : Except ReadFault α) : Prop :=
  ∀ fault, x = .error fault → ∃ e, fault = .error e ∧ e.problem.kind ≠ .unexpectedToken

theorem quiet_ok (a : α) : Quiet (.ok a) := nofun

theorem quiet_problem {e : ParseError} (other : e.problem.kind ≠ .unexpectedToken) :
    Quiet (α := α) (.error (.error e)) := by
  rintro _ ⟨⟩
  exact ⟨e, rfl, other⟩

theorem Quiet.bind {x : Except ReadFault α} {k : α → Except ReadFault β} (hx : Quiet x)
    (hk : ∀ a, Quiet (k a)) : Quiet (x >>= k) := by
  cases x with
  | ok a => exact hk a
  | error fault =>
    obtain ⟨e, rfl, other⟩ := hx fault rfl
    exact quiet_problem other

/-! ## Words of tokens -/

/-- The words are those of some tokens. -/
def Spelled (ws : List Word) : Prop := ∃ ts : List Token, ts.map Token.word = ws

theorem spelled_nil : Spelled [] := ⟨[], rfl⟩

theorem spelled_word (t : Token) : Spelled [t.word] := ⟨[t], rfl⟩

theorem Spelled.append {vs ws : List Word} (hv : Spelled vs) (hw : Spelled ws) :
    Spelled (vs ++ ws) := by
  obtain ⟨ts, rfl⟩ := hv
  obtain ⟨us, rfl⟩ := hw
  exact ⟨ts ++ us, List.map_append⟩

theorem Spelled.of_append {vs ws : List Word} (h : Spelled (vs ++ ws)) : Spelled ws := by
  obtain ⟨ts, heq⟩ := h
  obtain ⟨_, us, _, _, rfl⟩ := List.map_eq_append_iff.mp heq
  exact ⟨us, rfl⟩

theorem spelled_mark {k : TokenKind} (hk : ¬ k.IsName) : Spelled [.mark k] :=
  ⟨[⟨k, .none, {}⟩], congrArg (List.cons · []) (if_neg hk)⟩

theorem spelled_name (n : String) : Spelled [.name n] := spelled_word ⟨.identifier, .text n, {}⟩

theorem spelled_flatMap {xs : List τ} {words : τ → List Word} (h : ∀ x ∈ xs, Spelled (words x)) :
    Spelled (xs.flatMap words) := by
  induction xs with
  | nil => exact spelled_nil
  | cons x xs ih =>
    obtain ⟨first, rest⟩ := List.forall_mem_cons.mp h
    exact first.append (ih rest)

/-! ## Predictive readers -/

/-- The reader is predictive for the language, on tidy tokens. Behind a word of its language it
reads on unless a word of the kind `p` comes next. -/
structure Predictive (p : Word → Prop) (L : Language Word)
    (f : Stream → Except ReadFault (α × Stream)) : Prop where
  some : ∃ v, v ∈ L
  spelled : ∀ v ∈ L, Spelled v
  outlook : ∀ {tokens : List Token}, Tidy (tokens.map Token.word) → Outlook L f tokens
  accepts : ∀ {s : Stream} {v : List Word} {w : Word} {ws : List Word}, v ∈ L → p w →
    s.Shows (v ++ w :: ws) → Accepts (w :: ws) (f s)

/-- Words of the language, with one of the kind `q` behind them, begin with one of the kind `p`. -/
def Leads (q : Word → Prop) (M : Language Word) (p : Word → Prop) : Prop :=
  ∀ v ∈ M, ∀ w, q w → ∃ w' v', v ++ [w] = w' :: v' ∧ p w'

theorem Leads.mul {r : Word → Prop} (hM : Leads q M r) (hL : Leads r L p) : Leads q (L * M) p := by
  rintro _ ⟨v, hv, v', hv', rfl⟩ w hw
  obtain ⟨w₁, v₁, heq₁, hw₁⟩ := hM v' hv' w hw
  obtain ⟨w₂, v₂, heq₂, hw₂⟩ := hL v hv w₁ hw₁
  refine ⟨w₂, v₂ ++ v₁, ?_, hw₂⟩
  show (v ++ v') ++ [w] = _
  rw [List.append_assoc, heq₁, List.append_cons, heq₂]
  rfl

theorem Leads.optional {k : TokenKind} (hk : p (.mark k)) (hq : ∀ w, q w → p w) :
    Leads q (1 + word k * M) p := by
  rintro v (rfl | hv) w hw
  · exact ⟨w, [], rfl, hq w hw⟩
  · obtain ⟨v', _, rfl⟩ := mem_word_mul.mp hv
    exact ⟨_, _, rfl, hk⟩

theorem leads_true : Leads q M fun _ => True := by
  intro v _ w _
  cases v with
  | nil => exact ⟨_, _, rfl, trivial⟩
  | cons w' v => exact ⟨_, _, rfl, trivial⟩

namespace Predictive

variable {f g : Stream → Except ReadFault (α × Stream)}

theorem weaken (h : Predictive p L f) (hq : ∀ w, q w → p w) : Predictive q L f where
  some := h.some
  spelled := h.spelled
  outlook := h.outlook
  accepts hv hw hs := h.accepts hv (hq _ hw) hs

theorem bind [Nonempty α] {k : α × Stream → Except ReadFault (β × Stream)}
    (hf : Predictive p L f) (hk : ∀ a, Predictive q M (fun s => k (a, s))) (leads : Leads q M p) :
    Predictive q (L * M) (fun s => f s >>= k) where
  some := by
    obtain ⟨v, hv⟩ := hf.some
    obtain ⟨w, hw⟩ := (hk (Classical.arbitrary α)).some
    exact ⟨v ++ w, Language.append_mem_mul hv hw⟩
  spelled := by
    rintro _ ⟨v, hv, w, hw, rfl⟩
    exact (hf.spelled v hv).append ((hk (Classical.arbitrary α)).spelled w hw)
  outlook tidy := by
    refine (hf.outlook tidy).bind (hk (Classical.arbitrary α)).some fun a split _ => ?_
    exact (hk a).outlook (Tidy.behind (split ▸ tidy))
  accepts := by
    rintro s _ w ws ⟨v, hv, v', hv', rfl⟩ hw hs
    obtain ⟨w₁, v₁, heq, hw₁⟩ := leads v' hv' w hw
    have split : v' ++ w :: ws = w₁ :: (v₁ ++ ws) := by
      rw [List.append_cons, heq]
      rfl
    have hs : s.Shows (v ++ (v' ++ w :: ws)) := by
      rw [← List.append_assoc]
      exact hs
    refine (hf.accepts hv hw₁ (split ▸ hs)).bind fun a t ht => ?_
    exact (hk a).accepts hv' hw (split ▸ ht)

theorem map (hf : Predictive p L f) (g : α → β) :
    Predictive p L (fun s => do let (a, s) ← f s; return (g a, s)) where
  some := hf.some
  spelled := hf.spelled
  outlook tidy := (hf.outlook tidy).map g
  accepts hv hw hs := (hf.accepts hv hw hs).bind fun _ _ ht => .ok ht

/-- A computation in front of a reader. -/
theorem after [Nonempty α] {x : Except ReadFault α}
    {k : α → Stream → Except ReadFault (β × Stream)} (hx : Quiet x) (hk : ∀ a, Predictive p L (k a)) :
    Predictive p L (fun s => x >>= fun a => k a s) := by
  cases x with
  | ok a => exact hk a
  | error fault =>
    obtain ⟨e, rfl, other⟩ := hx fault rfl
    have h := hk (Classical.arbitrary α)
    refine ⟨h.some, h.spelled, fun {tokens} tidy => ?_, fun _ _ _ => .error other⟩
    obtain ⟨t, ts, rfl⟩ := exists_cons_of_tidy tidy
    exact .rejects (.problem other fun _ _ => rfl)

/-- A reader whose value is computed on with. -/
theorem before {g : α → Except ReadFault β} (hf : Predictive p L f) (hg : ∀ a, Quiet (g a)) :
    Predictive p L (fun s => do let (a, s) ← f s; return (← g a, s)) where
  some := hf.some
  spelled := hf.spelled
  outlook {tokens} tidy := by
    cases hf.outlook tidy with
    | rejects h =>
      obtain ⟨passed, t, behind, e, split, place, fails⟩ := h
      exact .rejects ⟨passed, t, behind, e, split, place, fun rest last => by
        rw [fails rest last]
        rfl⟩
    | reads passed t behind a split words reads =>
      cases found : g a with
      | ok b =>
        refine .reads passed t behind b split words fun rest last => ?_
        rw [reads rest last]
        show (g a >>= _) = _
        rw [found]
        rfl
      | error fault =>
        obtain ⟨e, rfl, other⟩ := hg a fault found
        refine .rejects ⟨passed, t, behind, e, split, fun unexpected => absurd unexpected other,
          fun rest last => ?_⟩
        rw [reads rest last]
        show (g a >>= _) = _
        rw [found]
        rfl
  accepts hv hw hs := by
    refine (hf.accepts hv hw hs).bind fun a t ht => ?_
    show Accepts _ (g a >>= fun b => pure (b, t))
    cases found : g a with
    | ok b => exact .ok ht
    | error fault =>
      obtain ⟨e, rfl, other⟩ := hg a fault found
      exact .error other

/-- Readers of a single token. -/
theorem single {f : Stream → Except ReadFault (α × Stream)} (value : Token → α) (expected : String)
    (some : ∃ v, v ∈ L) (one : ∀ v ∈ L, ∃ t : Token, v = [t.word] ∧ t.kind ≠ .eof)
    (yes : ∀ s : Stream, [s.current.word] ∈ L → f s = .ok (value s.current, s.advance))
    (no : ∀ s : Stream, [s.current.word] ∉ L → f s = .error (s.unexpected expected)) :
    Predictive p L f where
  some := some
  spelled := by
    intro v hv
    obtain ⟨t, rfl, _⟩ := one v hv
    exact spelled_word t
  outlook {tokens} tidy := by
    obtain ⟨t, ts, rfl⟩ := exists_cons_of_tidy tidy
    by_cases ht : [t.word] ∈ L
    · obtain ⟨u, heq, hu⟩ := one _ ht
      have notEof : t.word ≠ .mark .eof := by
        rw [(List.cons.inj heq).1]
        exact fun eof => hu (Token.word_eq_mark_iff.mp eof).1
      obtain ⟨t', ts, rfl⟩ := exists_cons_of_tidy (tidy.tail notEof)
      have more : t.kind ≠ .eof := fun eof => notEof (Token.word_eq_mark_iff.mpr ⟨eof, by decide⟩)
      refine .reads [t] _ _ (value t) rfl ht fun rest last => ?_
      have read := yes ⟨t :: t' :: rest, last⟩ ht
      exact read.trans (congrArg (fun s => Except.ok (value t, s)) (Stream.advance_cons more))
    · exact .rejects (.unexpected some fun rest last => no _ ht)
  accepts := by
    intro s v w ws hv _ hs
    obtain ⟨t, rfl, ht⟩ := one v hv
    have hs : s.Shows (t.word :: w :: ws) := hs
    rw [yes s (hs.word_current.symm ▸ hv)]
    exact .ok (hs.advance fun eof => ht (Token.word_eq_mark_iff.mp eof).1)

/-- A reader that is skipped unless a token of the kind `k` comes next. -/
theorem optional {k : TokenKind} (hk : ¬ k.IsName) (h : Predictive p (word k * M) g) (a : α) :
    Predictive (fun w => p w ∧ w ≠ .mark k) (1 + word k * M)
      (fun s => if s.kind = k then g s else .ok (a, s)) where
  some := ⟨[], .inl rfl⟩
  spelled := by
    rintro v (rfl | hv)
    · exact spelled_nil
    · exact h.spelled v hv
  outlook {tokens} tidy := by
    obtain ⟨t, ts, rfl⟩ := exists_cons_of_tidy tidy
    by_cases ht : t.kind = k
    · exact (h.outlook tidy).congr (fun _ => .inr) fun _ _ => if_pos ht
    · exact .reads [] _ _ a rfl (.inl rfl) fun _ _ => if_neg ht
  accepts := by
    rintro s v w ws (rfl | hv) ⟨hw, hwk⟩ hs
    · have hs : s.Shows (w :: ws) := hs
      have closed : s.kind ≠ k := fun heq => hwk (hs.mark_of_kind heq hk)
      rw [if_neg closed]
      exact .ok hs
    · have opened : s.kind = k := by
        obtain ⟨v', _, rfl⟩ := mem_word_mul.mp hv
        exact hs.kind_eq
      rw [if_pos opened]
      exact h.accepts hv hw hs

/-- Where a token of one of the kinds `ks` comes next, the reader `f` reads the language `L`. -/
structure Branch (p : Word → Prop) (f : Stream → Except ReadFault (α × Stream))
    (ks : List TokenKind) (L : Language Word) : Prop where
  begins : ∀ v ∈ L, ∃ k ∈ ks, ∃ v', v = .mark k :: v'
  reads : ∃ g, Predictive p L g ∧ ∀ s : Stream, s.kind ∈ ks → f s = g s

/-- A keyword and what is read behind it. -/
theorem Branch.keyword {k : TokenKind} (h : Predictive p (word k * M) g)
    (same : ∀ s : Stream, s.kind = k → f s = g s) : Branch p f [k] (word k * M) where
  begins := by
    intro v hv
    obtain ⟨v', _, rfl⟩ := mem_word_mul.mp hv
    exact ⟨k, List.mem_singleton_self k, v', rfl⟩
  reads := ⟨g, h, fun s hs => same s (List.mem_singleton.mp hs)⟩

/-- The branches of a reader, with the kinds of tokens at which they are taken. -/
inductive Branches (p : Word → Prop) (f : Stream → Except ReadFault (α × Stream)) :
    List TokenKind → List (Language Word) → Prop
  | nil : Branches p f [] []
  | cons {ks ks' : List TokenKind} {L : Language Word} {Ls : List (Language Word)} :
      Branch p f ks L → Branches p f ks' Ls → Branches p f (ks ++ ks') (L :: Ls)

theorem Branches.of_kind {ks : List TokenKind} {Ls : List (Language Word)} (h : Branches p f ks Ls)
    {k : TokenKind} (hk : k ∈ ks) : ∃ L ∈ Ls, ∃ ks', k ∈ ks' ∧ Branch p f ks' L := by
  induction h with
  | nil => cases hk
  | @cons ks ks' L Ls first _ ih =>
    rcases List.mem_append.mp hk with hk | hk
    · exact ⟨L, List.mem_cons_self, ks, hk, first⟩
    · obtain ⟨L', hL', found⟩ := ih hk
      exact ⟨L', List.mem_cons_of_mem _ hL', found⟩

theorem Branches.of_mem {ks : List TokenKind} {Ls : List (Language Word)} (h : Branches p f ks Ls)
    (hL : L ∈ Ls) : ∃ ks', Branch p f ks' L := by
  induction h with
  | nil => cases hL
  | @cons ks _ _ _ first _ ih =>
    rcases List.mem_cons.mp hL with rfl | hL
    · exact ⟨ks, first⟩
    · exact ih hL

/-- A reader that chooses by the next token. -/
theorem of_branches {ks : List TokenKind} {Ls : List (Language Word)} (expected : String)
    (h : Branches p f ks Ls) (some : ∃ v, v ∈ Ls.sum)
    (otherwise : ∀ s : Stream, s.kind ∉ ks → f s = .error (s.unexpected expected)) :
    Predictive p Ls.sum f where
  some := some
  spelled := by
    intro v hv
    obtain ⟨L, hL, hv⟩ := mem_sum.mp hv
    obtain ⟨_, branch⟩ := h.of_mem hL
    obtain ⟨g, hg, _⟩ := branch.reads
    exact hg.spelled v hv
  outlook {tokens} tidy := by
    obtain ⟨t, ts, rfl⟩ := exists_cons_of_tidy tidy
    by_cases ht : t.kind ∈ ks
    · obtain ⟨L, hL, ks', hk, branch⟩ := h.of_kind ht
      obtain ⟨g, hg, same⟩ := branch.reads
      exact (hg.outlook tidy).congr (fun v hv => mem_sum.mpr ⟨L, hL, hv⟩) fun _ _ => same _ hk
    · exact .rejects (.unexpected some fun rest last => otherwise _ ht)
  accepts := by
    intro s v w ws hv hw hs
    obtain ⟨L, hL, hv⟩ := mem_sum.mp hv
    obtain ⟨ks', branch⟩ := h.of_mem hL
    obtain ⟨g, hg, same⟩ := branch.reads
    obtain ⟨k, hk, v', rfl⟩ := branch.begins v hv
    have kind : s.kind = k := hs.kind_eq
    rw [same s (kind ▸ hk)]
    exact hg.accepts hv hw hs

end Predictive

end ScrapeConfig
