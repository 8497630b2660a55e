import ScrapeConfig.Proofs.Document.Settings

/-!
# Readers that look up no auth

Undefined auths are reported by the reader of their names only. What the other readers report is of
another kind, whatever they are given.

Results:
1. `Spares`, `Spares.bind`: computations that report no undefined auth.
2. `Stream.blockLines_spares` and its like: readers of lines, of blocks and of names.
3. `Document.setting_spares` to `Document.settle_spares`: a lemma for each reader of documents that
   looks up no auth.
-/

namespace ScrapeConfig

variable {α β σ : Type}

/-- No auth is reported as undefined. -/
def Spares (x : Except ReadFault α) : Prop :=
  ∀ e, x = .error (.error e) → e.problem.kind ≠ .undefinedReference

theorem spares_ok (a : α) : Spares (.ok a) := nofun

theorem spares_endless : Spares (α := α) (.error .endless) := nofun

theorem spares_problem {problem : Problem} {span : Span} (other : problem.kind ≠ .undefinedReference) :
    Spares (α := α) (.error (.error (.atSpan problem span))) := by
  rintro _ ⟨⟩
  exact other

theorem spares_unexpected (s : Stream) (expected : String) :
    Spares (α := α) (.error (s.unexpected expected)) :=
  spares_problem (by rintro ⟨⟩)

theorem Spares.of_error {x : Except ReadFault α} {fault : ReadFault} (hx : Spares x)
    (h : x = .error fault) : Spares (α := β) (.error fault) := by
  rintro e ⟨⟩
  exact hx e h

theorem Spares.bind {x : Except ReadFault α} {k : α → Except ReadFault β} (hx : Spares x)
    (hk : ∀ a, Spares (k a)) : Spares (x >>= k) := by
  cases x with
  | ok a => exact hk a
  | error fault =>
    rintro e ⟨⟩
    exact hx e rfl

namespace Stream

theorem expect_spares (k : TokenKind) (s : Stream) : Spares (s.expect k) := by
  rw [expect]
  split
  · exact spares_ok _
  · exact spares_unexpected s _

theorem expectText_spares (what : String) (s : Stream) : Spares (s.expectText what) := by
  rw [expectText]
  split
  · exact spares_ok _
  · exact spares_unexpected s _

theorem moreTexts_spares (what : String) (s : Stream) : Spares (moreTexts what s) := by
  induction hn : s.rest.length using Nat.strongRecOn generalizing s with
  | ind n ih =>
    rw [moreTexts]
    split
    · split
      · next found => exact (expectText_spares what s.advance).of_error found
      · split
        · next shorter =>
          split
          · next found => exact (ih _ (hn ▸ shorter) _ rfl).of_error found
          · exact spares_ok _
        · exact spares_endless
    · exact spares_ok _

theorem expectTexts_spares (what : String) (s : Stream) : Spares (s.expectTexts what) :=
  (expectText_spares what s).bind fun _ => (moreTexts_spares what _).bind fun _ => spares_ok _

theorem skipSameLevel_spares (s : Stream) : Spares s.skipSameLevel := by
  rw [skipSameLevel]
  split
  · exact spares_endless
  · exact spares_ok _

variable {item : σ → Stream → Except ReadFault (σ × Stream)}

/-- By induction on what is left of the stream. -/
theorem blockLines_spares (h : ∀ a s, Spares (item a s)) (a : σ) (s : Stream) :
    Spares (blockLines item a s) := by
  induction hn : s.rest.length using Nat.strongRecOn generalizing a s with
  | ind n ih =>
    rw [blockLines]
    split
    · next found => exact s.skipSameLevel_spares.of_error found
    · split
      · exact spares_ok _
      · split
        · exact spares_unexpected _ _
        · split
          · next found => exact (h _ _).of_error found
          · split
            · split
              · next shorter => exact ih _ (hn ▸ shorter) _ _ rfl
              · exact spares_endless
            · exact spares_unexpected _ _

theorem block_spares (h : ∀ a s, Spares (item a s)) (a : σ) (s : Stream) :
    Spares (block item a s) :=
  (s.expect_spares _).bind fun _ => blockLines_spares h a _

theorem optionalBlock_spares (h : ∀ a s, Spares (item a s)) (a : σ) (s : Stream) :
    Spares (optionalBlock item a s) := by
  rw [optionalBlock]
  split
  · exact block_spares h a s
  · exact spares_ok _

end Stream

namespace Document

open ScrapeConfig.Stream (expect_spares expectText_spares expectTexts_spares block_spares
  optionalBlock_spares)

theorem setting_spares (m : Options) (s : Stream) : Spares (setting m s) :=
  (expect_spares _ s).bind fun _ => (expectText_spares _ _).bind fun _ =>
    (expect_spares _ _).bind fun _ => (expectText_spares _ _).bind fun _ => spares_ok _

theorem settingLine_spares (m : Options) (s : Stream) : Spares (settingLine m s) := by
  rw [settingLine]
  split
  · exact setting_spares m s
  · exact spares_unexpected s _

theorem option_spares (m : Options) (s : Stream) : Spares (option m s) := by
  rw [option]
  split
  · exact setting_spares m s
  · exact block_spares settingLine_spares m _
  · exact spares_unexpected s _

theorem decoder_spares (s : Stream) : Spares (decoder s) :=
  (expect_spares _ s).bind fun _ => (expectText_spares _ _).bind fun _ =>
    (optionalBlock_spares option_spares _ _).bind fun _ => spares_ok _

theorem metricType_spares (s : Stream) : Spares (metricType s) := by
  rw [metricType]
  split
  all_goals first | exact spares_ok _ | exact spares_unexpected s _

theorem metricItem_spares (d : MetricDraft) (s : Stream) : Spares (metricItem d s) := by
  have text (what : String) := expectText_spares what s.advance
  have options := (option_spares d.options s).bind fun found =>
    spares_ok ({ d with options := found.1 }, found.2)
  rw [metricItem]
  split
  case h_2 => exact (metricType_spares _).bind fun _ => spares_ok _
  case h_5 => exact (expectTexts_spares _ _).bind fun _ => spares_ok _
  case h_9 => exact spares_unexpected s _
  all_goals first
    | exact options
    | exact (text _).bind fun _ => spares_ok _

theorem finish_spares (d : MetricDraft) (span : Span) : Spares (d.finish span) := by
  rw [MetricDraft.finish]
  split
  · exact spares_problem (by rintro ⟨⟩)
  · exact spares_problem (by rintro ⟨⟩)
  · exact spares_ok _

theorem metric_spares (s : Stream) : Spares (metric s) :=
  (expect_spares _ s).bind fun _ => (block_spares metricItem_spares _ _).bind fun _ =>
    (finish_spares _ _).bind fun _ => spares_ok _

theorem resourceItem_spares (r : Resource) (s : Stream) : Spares (resourceItem r s) := by
  rw [resourceItem]
  split
  · exact (option_spares _ s).bind fun _ => spares_ok _
  · exact (option_spares _ s).bind fun _ => spares_ok _
  · exact (metric_spares s).bind fun _ => spares_ok _
  · exact (decoder_spares s).bind fun _ => spares_ok _
  · exact spares_unexpected s _

theorem httpMethod_spares (s : Stream) : Spares (httpMethod s) := by
  rw [httpMethod]
  split
  · exact spares_ok _
  · exact spares_ok _
  · exact spares_unexpected s _

theorem auth_spares (auths : Auths) (s : Stream) : Spares (auth auths s) :=
  (expect_spares _ s).bind fun _ => (expectText_spares _ _).bind fun _ =>
    (expect_spares _ _).bind fun _ => (expectText_spares _ _).bind fun _ =>
      (optionalBlock_spares option_spares _ _).bind fun _ => spares_ok _

theorem reporting_spares (span : Span) (x : Except StoreError α) : Spares (reporting span x) := by
  cases x with
  | ok a => exact spares_ok a
  | error e => exact spares_problem (by rintro ⟨⟩)

theorem authOr_spares (context : Context) (span : Span) (auth : Option Auth) :
    Spares (authOr context span auth) := by
  cases auth with
  | none => exact reporting_spares span _
  | some auth => exact spares_ok _

theorem settle_spares (context : Context) (service : Service) (m : Options) (span : Span) :
    Spares (settle context service m span) := by
  intro e fails
  obtain ⟨problem, heq, invalid⟩ := settle_eq_error fails
  cases heq
  rw [show (ParseError.atSpan problem span).problem.kind = .invalidValue from invalid]
  decide

end Document

end ScrapeConfig
