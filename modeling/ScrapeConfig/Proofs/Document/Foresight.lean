import ScrapeConfig.Proofs.Document.Grammar
import ScrapeConfig.Proofs.Document.Lookahead

/-!
# Readers of productions look ahead

Every reader of a production is predictive for the language of the production: it takes the tokens
that begin a word of the language one after the other, and on the first token that can not come next
it stops with the error that names it.

Results:
1. `reporting_quiet` to `authOr_quiet`: what is computed from the tokens reports no token.
2. `setting_predictive` to `section_predictive`: a lemma for each production. Those that a block may
   hold are `PredictiveLines`, told apart from the end of the block by the words they begin with.
-/

namespace ScrapeConfig.Document

open Syntax
open ScrapeConfig.Predictive (Branch Branches)
open ScrapeConfig.Stream (expect_predictive expectText_predictive expectTexts_predictive
  block_predictive optionalBlock_predictive PredictiveLines EndsLine)

variable {α : Type} {p : Word → Prop}

/-! ## Computations -/

theorem reporting_quiet (span : Span) (x : Except StoreError α) : Quiet (reporting span x) := by
  cases x with
  | ok a => exact quiet_ok a
  | error e => exact quiet_problem (by rintro ⟨⟩)

theorem finish_quiet (d : MetricDraft) (span : Span) : Quiet (d.finish span) := by
  rw [MetricDraft.finish]
  split
  · exact quiet_problem (by rintro ⟨⟩)
  · exact quiet_problem (by rintro ⟨⟩)
  · exact quiet_ok _

theorem takeString_quiet (m : Options) (key : String) (span : Span) :
    Quiet (takeString m key span) := by
  rw [takeString]
  split
  · exact quiet_ok _
  · exact quiet_ok _
  · exact quiet_problem (by rintro ⟨⟩)

theorem takeMode_quiet (m : Options) (span : Span) : Quiet (takeMode m span) := by
  refine (takeString_quiet m "mode" span).bind fun taken => ?_
  obtain ⟨text, m⟩ := taken
  cases text with
  | none => exact quiet_ok _
  | some text =>
    dsimp only
    split
    · exact quiet_ok _
    · exact quiet_problem (by rintro ⟨⟩)

theorem settle_quiet (context : Context) (service : Service) (options : Options) (span : Span) :
    Quiet (settle context service options span) :=
  (reporting_quiet span _).bind fun merged => (takeMode_quiet merged span).bind fun taken =>
    (takeString_quiet taken.2 "location" span).bind fun _ => quiet_ok _

theorem authOr_quiet (context : Context) (span : Span) (auth : Option Auth) :
    Quiet (authOr context span auth) := by
  cases auth with
  | none => exact reporting_quiet span _
  | some auth => exact quiet_ok _

/-! ## Options and decoders -/

theorem setting_predictive (m : Options) :
    Predictive EndsLine (language Setting.words) (setting m) := by
  rw [language_setting]
  exact .bind (expect_predictive (by decide) (by decide)) (fun _ =>
    .bind (expectText_predictive _) (fun key =>
      .bind (expect_predictive (by decide) (by decide)) (fun _ =>
        (expectText_predictive _).map fun value => (OptionStore.setString m key value).2)
        leads_true) leads_true) leads_true

theorem setting_begins {v : List Word} (hv : v ∈ language Setting.words) :
    ∃ k ∈ [TokenKind.set], ∃ v', v = .mark k :: v' := by
  obtain ⟨x, rfl⟩ := hv
  exact ⟨_, List.mem_singleton_self _, _, rfl⟩

theorem settingLine_eq (m : Options) : settingLine m = setting m := by
  funext s
  rw [settingLine]
  split
  · rfl
  · next hk =>
    rw [setting, Stream.expect, if_neg hk]
    rfl

theorem settingLine_predictive : PredictiveLines settingLine Setting.words where
  predictive m := by
    rw [settingLine_eq]
    exact setting_predictive m
  content _ := ⟨_, _, rfl, rfl⟩

theorem expect_of_kind {s : Stream} {k : TokenKind} (h : s.kind = k) :
    s.expect k = .ok (s.current.span, s.advance) :=
  if_pos h

/-- A branch that begins behind the keyword by which it was chosen. -/
theorem branch_behind {f g : Stream → Except ReadFault (α × Stream)} {k : TokenKind} {M : Language Word}
    (hn : ¬ k.IsName) (hk : k ≠ .eof) (h : Predictive p M g) (leads : Leads p M fun _ => True)
    (same : ∀ s : Stream, s.kind = k → f s = g s.advance) : Branch p f [k] (word k * M) := by
  refine .keyword (.bind (k := fun x => g x.2) (expect_predictive hn hk) (fun _ => h) leads)
    fun s hs => ?_
  rw [same s hs, expect_of_kind hs]
  rfl

theorem option_predictive (m : Options) :
    Predictive EndsLine (language OptionItem.words) (option m) := by
  have set : Branch EndsLine (option m) [.set] (language Setting.words) :=
    ⟨fun _ => setting_begins, _, setting_predictive m, fun s hs => by
      rw [option, List.mem_singleton.mp hs]⟩
  have group : Branch EndsLine (option m) [.withOptions]
      (word .withOptions * language (Series.block Setting.words)) :=
    branch_behind (by decide) (by decide) (block_predictive settingLine_predictive m) leads_true
      fun s hs => by rw [option, hs]
  rw [language_option]
  refine .of_branches "SET or WITH_OPTIONS" (.cons set (.cons group .nil)) ?_ fun s hs => ?_
  · exact ⟨_, .inl ⟨default, rfl⟩⟩
  · rw [option]
    split <;> simp_all

theorem option_begins {v : List Word} (hv : v ∈ language OptionItem.words) :
    ∃ k ∈ [TokenKind.set, .withOptions], ∃ v', v = .mark k :: v' := by
  obtain ⟨x | x, rfl⟩ := hv
  · exact ⟨.set, by simp, _, rfl⟩
  · exact ⟨.withOptions, by simp, _, rfl⟩

theorem option_predictiveLines : PredictiveLines option OptionItem.words :=
  ⟨option_predictive, option_content⟩

theorem decoder_predictive : Predictive EndsLine (language Extract.words) decoder := by
  rw [language_extract]
  exact .bind (expect_predictive (by decide) (by decide)) (fun _ =>
    .bind (expectText_predictive _) (fun mode =>
      (optionalBlock_predictive option_predictiveLines _).map fun options => Decoder.mk mode options)
      leads_true) leads_true

/-! ## Metrics -/

/-- The metric type of its keyword. -/
def typeOf : TokenKind → MetricType
  | .counter => .counter
  | .gauge => .gauge
  | .histogram => .histogram
  | _ => .summary

theorem metricType_predictive : Predictive p (language typeWords) metricType := by
  refine .single (fun t => typeOf t.kind) "COUNTER, GAUGE, HISTOGRAM or SUMMARY" ⟨_, .counter, rfl⟩
    ?_ (fun s hs => ?_) fun s hs => ?_
  · rintro _ ⟨type, rfl⟩
    exact ⟨⟨typeKeyword type, .none, {}⟩, by cases type <;> rfl, by cases type <;> decide⟩
  · obtain ⟨type, heq⟩ := hs
    have kind : s.current.kind = typeKeyword type :=
      (Token.word_eq_mark_iff.mp (List.cons.inj heq).1.symm).1
    rw [metricType, Stream.kind, kind]
    cases type <;> rfl
  · have other (type : MetricType) : s.kind ≠ typeKeyword type := fun kind =>
      hs ⟨type, congrArg (List.cons · [])
        (Token.word_eq_mark_iff.mpr ⟨kind, by cases type <;> decide⟩).symm⟩
    rw [metricType]
    split
    · next hk => exact absurd hk (other .counter)
    · next hk => exact absurd hk (other .gauge)
    · next hk => exact absurd hk (other .histogram)
    · next hk => exact absurd hk (other .summary)
    · rfl

/-- Items that are a text behind a keyword. -/
theorem textItem_branch {d : MetricDraft} (k : TokenKind) (item : String → MetricItem)
    (what : String) (hn : ¬ k.IsName) (hk : k ≠ .eof)
    (same : ∀ s : Stream, s.kind = k → metricItem d s = (do
      let (text, s) ← s.advance.expectText what
      return ((item text).apply d, s))) :
    Branch EndsLine (metricItem d) [k] (word k * Syntax.text) :=
  branch_behind hn hk ((expectText_predictive what).map fun text => (item text).apply d)
    leads_true same

theorem metricItem_predictive (d : MetricDraft) :
    Predictive EndsLine (language MetricItem.words) (metricItem d) := by
  have name := textItem_branch (d := d) .name .name "metric name" (by decide) (by decide)
    fun s hs => by rw [metricItem, hs]; rfl
  have description := textItem_branch (d := d) .description .description "description" (by decide) (by decide)
    fun s hs => by rw [metricItem, hs]; rfl
  have help := textItem_branch (d := d) .help .help "description" (by decide) (by decide)
    fun s hs => by rw [metricItem, hs]; rfl
  have path := textItem_branch (d := d) .fromPath .path "value path" (by decide) (by decide)
    fun s hs => by rw [metricItem, hs]; rfl
  have type : Branch EndsLine (metricItem d) [.type] (word .type * language typeWords) :=
    branch_behind (by decide) (by decide)
      (metricType_predictive.map fun type => (MetricItem.type type).apply d) leads_true
      fun s hs => by rw [metricItem, hs]; rfl
  have labels : Branch EndsLine (metricItem d) [.labels] (word .labels * language Series.names) :=
    branch_behind (by decide) (by decide)
      (((expectTexts_predictive "label").weaken fun w hw => EndsLine.ne hw (by decide)).map
        fun names => { d with labels := names }) leads_true
      fun s hs => by rw [metricItem, hs]
  have options : Branch EndsLine (metricItem d) [.set, .withOptions] (language OptionItem.words) :=
    ⟨fun _ => option_begins, _,
      (option_predictive d.options).map fun options => { d with options }, fun s hs => by
        rcases (by simpa using hs) with hs | hs <;> rw [metricItem, hs]⟩
  rw [language_metricItem]
  refine .of_branches "NAME, TYPE, DESCRIPTION, HELP, LABELS, FROM or SET"
    (.cons name <| .cons type <| .cons description <| .cons help <| .cons labels <| .cons path <|
      .cons options .nil) ?_ fun s hs => ?_
  · exact ⟨_, .inl ⟨_, rfl, _, ⟨"", rfl⟩, rfl⟩⟩
  · rw [metricItem]
    split <;> simp_all

theorem metricItem_predictiveLines : PredictiveLines metricItem MetricItem.words :=
  ⟨metricItem_predictive, metricItem_lines.content⟩

theorem metric_predictive : Predictive EndsLine (language MetricBlock.words) metric := by
  rw [language_metric]
  exact .bind (expect_predictive (by decide) (by decide)) (fun span =>
    (block_predictive metricItem_predictiveLines {}).before fun d => finish_quiet d span) leads_true

theorem metric_begins {v : List Word} (hv : v ∈ language MetricBlock.words) :
    ∃ k ∈ [TokenKind.metric], ∃ v', v = .mark k :: v' := by
  obtain ⟨m, rfl⟩ := hv
  exact ⟨_, List.mem_singleton_self _, _, rfl⟩

theorem decoder_begins {v : List Word} (hv : v ∈ language Extract.words) :
    ∃ k ∈ [TokenKind.extractUsing], ∃ v', v = .mark k :: v' := by
  obtain ⟨e, rfl⟩ := hv
  exact ⟨_, List.mem_singleton_self _, _, rfl⟩

/-! ## Resources -/

theorem resourceItem_predictive (r : Resource) :
    Predictive EndsLine (language ResourceItem.words) (resourceItem r) := by
  have options : Branch EndsLine (resourceItem r) [.set, .withOptions] (language OptionItem.words) :=
    ⟨fun _ => option_begins, _,
      (option_predictive r.options).map fun options => { r with options }, fun s hs => by
        rcases (by simpa using hs) with hs | hs <;> rw [resourceItem, hs]⟩
  have metrics : Branch EndsLine (resourceItem r) [.metric] (language MetricBlock.words) :=
    ⟨fun _ => metric_begins, _,
      metric_predictive.map fun m => { r with metrics := r.metrics ++ [m] }, fun s hs => by
        rw [resourceItem, List.mem_singleton.mp hs]⟩
  have decoders : Branch EndsLine (resourceItem r) [.extractUsing] (language Extract.words) :=
    ⟨fun _ => decoder_begins, _,
      decoder_predictive.map fun d => { r with decoder := some d }, fun s hs => by
        rw [resourceItem, List.mem_singleton.mp hs]⟩
  rw [language_resourceItem]
  refine .of_branches "SET, WITH_OPTIONS, METRIC or EXTRACT_USING"
    (.cons options <| .cons metrics <| .cons decoders .nil) ?_ fun s hs => ?_
  · exact ⟨_, .inl ⟨default, rfl⟩⟩
  · rw [resourceItem]
    split <;> simp_all

theorem resourceItem_predictiveLines : PredictiveLines resourceItem ResourceItem.words :=
  ⟨resourceItem_predictive, resourceItem_lines.content⟩

theorem httpMethod_predictive : Predictive p (language methodWords) httpMethod := by
  refine .single (fun t => if t.kind = .get then .get else .post) "GET or POST" ⟨_, .get, rfl⟩ ?_
    (fun s hs => ?_) fun s hs => ?_
  · rintro _ ⟨method, rfl⟩
    exact ⟨⟨methodKeyword method, .none, {}⟩, by cases method <;> rfl, by cases method <;> decide⟩
  · obtain ⟨method, heq⟩ := hs
    have kind : s.current.kind = methodKeyword method :=
      (Token.word_eq_mark_iff.mp (List.cons.inj heq).1.symm).1
    rw [httpMethod, Stream.kind, kind]
    cases method <;> rfl
  · have other (method : HttpMethod) : s.kind ≠ methodKeyword method := fun kind =>
      hs ⟨method, congrArg (List.cons · [])
        (Token.word_eq_mark_iff.mpr ⟨kind, by cases method <;> decide⟩).symm⟩
    rw [httpMethod]
    split
    · next hk => exact absurd hk (other .get)
    · next hk => exact absurd hk (other .post)
    · rfl

/-- The auth of a name that stands at a span. -/
def authAt (auths : Auths) (found : Span × String) : Except ReadFault Auth :=
  match auths.lookup found.2 with
  | none => .error (.error (.atSpan (.undefinedAuth found.2) found.1))
  | some auth => reporting found.1 auth.copy

theorem authAt_quiet (auths : Auths) (found : Span × String) : Quiet (authAt auths found) := by
  rw [authAt]
  split
  · exact quiet_problem (by rintro ⟨⟩)
  · exact reporting_quiet _ _

/-- Reads the name of an auth, and gives the span at which it stands too. -/
def spottedName (s : Stream) : Except ReadFault ((Span × String) × Stream) := do
  let (name, t) ← s.expectText "auth name"
  return ((s.current.span, name), t)

theorem spottedName_predictive : Predictive p Syntax.text spottedName := by
  refine .single (fun t => (t.span, t.text?.getD "")) "auth name" ⟨_, "", rfl⟩
    (fun _ => Stream.name_of_text) (fun s hs => ?_) fun s hs => ?_
  · rw [spottedName, Stream.expectText, if_pos (Stream.text_mem.mp hs)]
    rfl
  · rw [spottedName, Stream.expectText, if_neg (mt Stream.text_mem.mpr hs)]
    rfl

theorem authName_eq (auths : Auths) : authName auths = fun s => do
    let (found, s) ← spottedName s
    return (← authAt auths found, s) := by
  funext s
  simp only [authName, spottedName, authAt, bind_assoc, pure_bind]
  refine bind_congr fun found => ?_
  cases auths.lookup found.1 <;> rfl

theorem authName_predictive (auths : Auths) : Predictive p Syntax.text (authName auths) := by
  rw [authName_eq]
  exact spottedName_predictive.before (authAt_quiet auths)

/-- Reads the keyword `AS` and the auth behind it. -/
def namedAuth (auths : Auths) (s : Stream) : Except ReadFault (Option Auth × Stream) := do
  let (_, s) ← s.expect .as
  let (auth, s) ← authName auths s
  return (some auth, s)

theorem asAuth_eq (auths : Auths) :
    asAuth auths = fun s => if s.kind = .as then namedAuth auths s else .ok (none, s) := by
  funext s
  rw [asAuth]
  split
  · next hk =>
    rw [namedAuth, expect_of_kind hk]
    rfl
  · rfl

theorem namedAuth_predictive (auths : Auths) :
    Predictive p (word .as * Syntax.text) (namedAuth auths) :=
  .bind (expect_predictive (by decide) (by decide))
    (fun _ => (authName_predictive auths).map some) leads_true

theorem asAuth_predictive (auths : Auths) :
    Predictive (· ≠ .mark .as) (language asWords) (asAuth auths) := by
  rw [language_asWords, asAuth_eq]
  exact ((namedAuth_predictive auths).optional (by decide) none).weaken fun w hw => ⟨hw, hw⟩

/-- What stands behind the header of a section. -/
theorem leads_optionalBlock {τ : Type} (words : τ → List Word) {k : TokenKind}
    (hk : k ∉ [.sameLevel, .blockClose, .eof, .blockOpen]) :
    Leads EndsLine (language (optionalBlock words)) (· ≠ .mark k) := by
  rw [language_optionalBlock]
  refine .optional (fun heq => hk ?_) fun w hw => hw.ne fun mem => hk ?_
  · rw [← Word.mark.inj heq]
    decide
  · simp only [List.mem_cons] at mem ⊢
    tauto

theorem resource_predictive (auths : Auths) :
    Predictive EndsLine (language ResourceSection.words) (resource auths) := by
  rw [language_resource]
  exact .bind httpMethod_predictive (fun method =>
    .bind (expectText_predictive _) (fun uri =>
      .bind (asAuth_predictive auths) (fun auth =>
        optionalBlock_predictive resourceItem_predictiveLines { method, uri, auth })
        (leads_optionalBlock _ (by decide))) leads_true) leads_true

theorem resource_begins {v : List Word} (hv : v ∈ language ResourceSection.words) :
    ∃ k ∈ [TokenKind.get, .post], ∃ v', v = .mark k :: v' := by
  obtain ⟨r, rfl⟩ := hv
  exact ⟨methodKeyword r.method, by cases r.method <;> decide, _, rfl⟩

/-! ## Services -/

theorem serviceItem_predictive (auths : Auths) (a : Service × Options) :
    Predictive EndsLine (language ServiceItem.words) (serviceItem auths a) := by
  have options : Branch EndsLine (serviceItem auths a) [.set, .withOptions]
      (language OptionItem.words) :=
    ⟨fun _ => option_begins, _, (option_predictive a.2).map fun options => (a.1, options),
      fun s hs => by rcases (by simpa using hs) with hs | hs <;> rw [serviceItem, hs]⟩
  have metrics : Branch EndsLine (serviceItem auths a) [.metric] (language MetricBlock.words) :=
    ⟨fun _ => metric_begins, _,
      metric_predictive.map fun m => ({ a.1 with metrics := a.1.metrics ++ [m] }, a.2),
      fun s hs => by rw [serviceItem, List.mem_singleton.mp hs]⟩
  have resources : Branch EndsLine (serviceItem auths a) [.get, .post]
      (language ResourceSection.words) :=
    ⟨fun _ => resource_begins, _,
      (resource_predictive auths).map fun r =>
        ({ a.1 with resources := a.1.resources ++ [r] }, a.2),
      fun s hs => by rcases (by simpa using hs) with hs | hs <;> rw [serviceItem, hs]⟩
  have decoders : Branch EndsLine (serviceItem auths a) [.extractUsing] (language Extract.words) :=
    ⟨fun _ => decoder_begins, _,
      decoder_predictive.map fun d => ({ a.1 with decoder := some d }, a.2),
      fun s hs => by rw [serviceItem, List.mem_singleton.mp hs]⟩
  rw [language_serviceItem]
  refine .of_branches "SET, WITH_OPTIONS, METRIC, GET, POST or EXTRACT_USING"
    (.cons options <| .cons metrics <| .cons resources <| .cons decoders .nil) ?_ fun s hs => ?_
  · exact ⟨_, .inl ⟨default, rfl⟩⟩
  · rw [serviceItem]
    dsimp only
    split <;> simp_all

theorem serviceItem_predictiveLines (auths : Auths) :
    PredictiveLines (serviceItem auths) ServiceItem.words :=
  ⟨serviceItem_predictive auths, (serviceItem_lines auths).content⟩

/-- What is read behind the names of a service section and its auth. -/
def serviceBehind (context : Context) (auths : Auths) (stack : Option String) (span : Span)
    (names : List String) (auth : Option Auth) (s : Stream) :
    Except ReadFault (List Service × Stream) := do
  let auth ← authOr context span auth
  let (a, s) ← s.optionalBlock (serviceItem auths) ({ name := "", stack, auth }, .empty)
  return (← settle context a.1 a.2 span >>= (stamp · span names), s)

theorem service_eq_behind (context : Context) (auths : Auths) (stack : Option String) :
    service context auths stack = fun s => (do
      let (span, s) ← s.expect .forService
      let (names, s) ← s.expectTexts "service name"
      let (auth, s) ← asAuth auths s
      serviceBehind context auths stack span names auth s) := by
  funext s
  simp only [service_eq, serviceBehind, bind_assoc]

theorem serviceBehind_predictive (context : Context) (auths : Auths) (stack : Option String)
    (span : Span) (names : List String) (auth : Option Auth) :
    Predictive EndsLine (language (optionalBlock ServiceItem.words))
      (serviceBehind context auths stack span names auth) := by
  refine .after (authOr_quiet context span auth) fun auth => ?_
  have quiet (a : Service × Options) :
      Quiet (settle context a.1 a.2 span >>= (stamp · span names)) := by
    refine (settle_quiet context a.1 a.2 span).bind fun service => ?_
    rw [stamp_eq_ok]
    exact quiet_ok _
  exact (optionalBlock_predictive (serviceItem_predictiveLines auths) _).before quiet

theorem service_predictive (context : Context) (auths : Auths) (stack : Option String) :
    Predictive EndsLine (language ServiceSection.words) (service context auths stack) := by
  have leads : Leads EndsLine
      (language asWords * language (optionalBlock ServiceItem.words)) (· ≠ .mark .comma) := by
    have asLeads : Leads (fun w => w ≠ .mark .comma) (language asWords) (· ≠ .mark .comma) := by
      rw [language_asWords]
      exact .optional (by decide) fun _ => id
    exact .mul (leads_optionalBlock _ (by decide)) asLeads
  rw [language_service, service_eq_behind]
  exact .bind (expect_predictive (by decide) (by decide)) (fun span =>
    .bind (expectTexts_predictive _) (fun names =>
      .bind (asAuth_predictive auths) (serviceBehind_predictive context auths stack span names)
        (leads_optionalBlock _ (by decide))) leads) leads_true

theorem service_begins {v : List Word} (hv : v ∈ language ServiceSection.words) :
    ∃ k ∈ [TokenKind.forService], ∃ v', v = .mark k :: v' := by
  obtain ⟨x, rfl⟩ := hv
  exact ⟨_, List.mem_singleton_self _, _, rfl⟩

/-! ## Sections -/

theorem auth_predictive (auths : Auths) :
    Predictive EndsLine (language AuthSection.words) (auth auths) := by
  rw [language_auth]
  exact .bind (expect_predictive (by decide) (by decide)) (fun _ =>
    .bind (expectText_predictive _) (fun scheme =>
      .bind (expect_predictive (by decide) (by decide)) (fun _ =>
        .bind (expectText_predictive _) (fun name =>
          (optionalBlock_predictive option_predictiveLines .empty).map fun options =>
            (name, Auth.mk scheme options) :: auths)
          leads_true) leads_true) leads_true) leads_true

theorem auth_begins {v : List Word} (hv : v ∈ language AuthSection.words) :
    ∃ k ∈ [TokenKind.defineAuth], ∃ v', v = .mark k :: v' := by
  obtain ⟨x, rfl⟩ := hv
  exact ⟨_, List.mem_singleton_self _, _, rfl⟩

theorem stackItem_predictive (context : Context) (stack : String) (d : Draft) :
    Predictive EndsLine (language StackItem.words) (stackItem context stack d) := by
  have services : Branch EndsLine (stackItem context stack d) [.forService]
      (language ServiceSection.words) :=
    ⟨fun _ => service_begins, _, (service_predictive context d.auths (some stack)).map d.add,
      fun s hs => by rw [stackItem, List.mem_singleton.mp hs]⟩
  have auths : Branch EndsLine (stackItem context stack d) [.defineAuth]
      (language AuthSection.words) :=
    ⟨fun _ => auth_begins, _, (auth_predictive d.auths).map fun auths => { d with auths },
      fun s hs => by rw [stackItem, List.mem_singleton.mp hs]⟩
  rw [language_stackItem]
  refine .of_branches "FOR_SERVICE or DEFINE_AUTH" (.cons services <| .cons auths .nil) ?_
    fun s hs => ?_
  · exact ⟨_, .inl ⟨⟨⟨"", []⟩, none, none⟩, rfl⟩⟩
  · rw [stackItem]
    split <;> simp_all

theorem stack_predictive (context : Context) (d : Draft) :
    Predictive EndsLine
      (word .forStack * (Syntax.text * language (Series.block StackItem.words)))
      (stack context d) :=
  .bind (expect_predictive (by decide) (by decide)) (fun _ =>
    .bind (expectText_predictive _) (fun name =>
      block_predictive ⟨stackItem_predictive context name, (stackItem_lines context name).content⟩ d)
      leads_true) leads_true

theorem section_predictive (context : Context) (d : Draft) :
    Predictive EndsLine (language Section.words) (documentSection context d) := by
  have datasets : Branch EndsLine (documentSection context d) [.dataset] (word .dataset) := by
    refine ⟨?_, _, (expect_predictive (k := .dataset) (by decide) (by decide)).map fun _ => d.markDataset,
      fun s hs => ?_⟩
    · rintro _ rfl
      exact ⟨_, List.mem_singleton_self _, _, rfl⟩
    · have hs := List.mem_singleton.mp hs
      rw [documentSection, hs, expect_of_kind hs]
      rfl
  have auths : Branch EndsLine (documentSection context d) [.defineAuth]
      (language AuthSection.words) :=
    ⟨fun _ => auth_begins, _, (auth_predictive d.auths).map fun auths => { d with auths },
      fun s hs => by rw [documentSection, List.mem_singleton.mp hs]⟩
  have inStack : Branch EndsLine (documentSection context d) [.forStack]
      (word .forStack * (Syntax.text * language (Series.block StackItem.words))) :=
    .keyword (stack_predictive context d) fun s hs => by rw [documentSection, hs]
  have services : Branch EndsLine (documentSection context d) [.forService]
      (language ServiceSection.words) :=
    ⟨fun _ => service_begins, _, (service_predictive context d.auths none).map d.add,
      fun s hs => by rw [documentSection, List.mem_singleton.mp hs]⟩
  rw [language_section]
  refine .of_branches "DATASET, DEFINE_AUTH, FOR_STACK or FOR_SERVICE"
    (.cons datasets <| .cons auths <| .cons inStack <| .cons services .nil) ?_ fun s hs => ?_
  · exact ⟨_, .inl rfl⟩
  · rw [documentSection]
    split <;> simp_all

end ScrapeConfig.Document
