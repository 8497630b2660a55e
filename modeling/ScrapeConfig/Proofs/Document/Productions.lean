import ScrapeConfig.Proofs.Document.Evaluation
import ScrapeConfig.Proofs.Document.Reading

/-!
# The readers of the productions

Every reader of the document reads the words of its production and gives the value of the tree. Some
ask for more than the grammar: that auths are known by their names, that metrics are complete, and
that the options of a service fit.

Results:
1. `Document.option_reads`, `Document.metric_reads`, `Document.resource_reads` and their like.
2. `Document.service_reads`: service sections, under `ServiceSection.Valid`.
3. `Document.auth_reads`: definitions of auths.
-/

namespace ScrapeConfig

open ScrapeConfig.Stream (Lines of_expect of_expectText of_expectTexts expect_ok expectText_ok
  expectTexts_ok text_reads texts_reads block_reads optionalBlock_sound optionalBlock_complete)

namespace Document

open Syntax

variable {s t : Stream} {ws : List Word}

/-! ## Options -/

theorem setting_reads (m : Options) :
    Reads (setting m) Setting.words (fun _ => True) (Setting.apply m) where
  sound := by
    intro s t ws m' hs tidy e
    obtain ⟨⟨_, s₁⟩, e₁, e⟩ := bind_eq_ok.mp e
    obtain ⟨ws, rfl, h₁, tidy⟩ := of_expect hs tidy e₁ (by decide) nofun
    obtain ⟨⟨key, s₂⟩, e₂, e⟩ := bind_eq_ok.mp e
    obtain ⟨ws, rfl, h₂, tidy⟩ := of_expectText h₁ tidy e₂
    obtain ⟨⟨_, s₃⟩, e₃, e⟩ := bind_eq_ok.mp e
    obtain ⟨ws, rfl, h₃, tidy⟩ := of_expect h₂ tidy e₃ (by decide) nofun
    obtain ⟨⟨value, s₄⟩, e₄, e⟩ := bind_eq_ok.mp e
    obtain ⟨ws, rfl, h₄, tidy⟩ := of_expectText h₃ tidy e₄
    obtain ⟨rfl, rfl⟩ := Prod.mk.inj (Except.ok.inj e)
    exact ⟨⟨key, value⟩, ws, rfl, trivial, rfl, h₄, tidy⟩
  complete := by
    intro s tree ws hs _ _
    obtain ⟨e₁, h₁⟩ := expect_ok hs nofun
    obtain ⟨e₂, h₂⟩ := expectText_ok h₁ "option name"
    obtain ⟨e₃, h₃⟩ := expect_ok h₂ nofun
    obtain ⟨e₄, h₄⟩ := expectText_ok h₃ "option value"
    exact ⟨_, bind_ok e₁ <| bind_ok e₂ <| bind_ok e₃ <| bind_ok e₄ rfl, h₄⟩

theorem settingLine_lines :
    Lines settingLine Setting.words (fun _ _ => True) Setting.apply where
  reads m := {
    sound := by
      intro s t ws m' hs tidy e
      rw [settingLine] at e
      split at e
      · exact (setting_reads m).sound hs tidy e
      · cases e
    complete := by
      intro s tree ws hs lineEnd _
      obtain ⟨t, e, ht⟩ := (setting_reads m).complete hs lineEnd trivial
      exact ⟨t, (if_pos hs.kind_eq).trans e, ht⟩ }
  content _ := ⟨_, _, rfl, rfl⟩

theorem option_reads (m : Options) :
    Reads (option m) OptionItem.words (fun _ => True) (OptionItem.apply m) where
  sound := by
    intro s t ws m' hs tidy e
    rw [option] at e
    split at e
    · obtain ⟨x, ws', rfl, _, rfl, ht⟩ := (setting_reads m).sound hs tidy e
      exact ⟨.set x, ws', rfl, trivial, rfl, ht⟩
    · next hk =>
      obtain ⟨x, ws', rfl, _, rfl, ht⟩ :=
        (block_reads settingLine_lines m).of_keyword hs tidy hk e (by decide) nofun
      exact ⟨.group x, ws', rfl, trivial, rfl, ht⟩
    · cases e
  complete := by
    intro s tree ws hs lineEnd _
    cases tree with
    | set x =>
      rw [option, hs.kind_eq]
      exact (setting_reads m).complete hs lineEnd trivial
    | group x =>
      rw [option, hs.kind_eq]
      exact (block_reads settingLine_lines m).complete (hs.advance nofun) lineEnd
        (okLines_of_true _ _)

theorem option_content (o : OptionItem) : ∃ w ws, o.words = w :: ws ∧ w.IsContent := by
  cases o with
  | set _ => exact ⟨_, _, rfl, rfl⟩
  | group _ => exact ⟨_, _, rfl, rfl⟩

theorem option_lines : Lines option OptionItem.words (fun _ _ => True) OptionItem.apply :=
  ⟨option_reads, option_content⟩

/-- What the words of an option begin with. -/
theorem option_kind {o : OptionItem} (hs : s.Shows (o.words ++ ws)) :
    s.kind = .set ∨ s.kind = .withOptions := by
  cases o with
  | set _ => exact .inl hs.kind_eq
  | group _ => exact .inr hs.kind_eq

/-! ## Decoders -/

theorem decoder_reads : Reads decoder Extract.words (fun _ => True) Extract.decoder where
  sound := by
    intro s t ws d hs tidy e
    obtain ⟨⟨_, s₁⟩, e₁, e⟩ := bind_eq_ok.mp e
    obtain ⟨ws, rfl, h₁, tidy⟩ := of_expect hs tidy e₁ (by decide) nofun
    obtain ⟨⟨mode, s₂⟩, e₂, e⟩ := bind_eq_ok.mp e
    obtain ⟨ws, rfl, h₂, tidy⟩ := of_expectText h₁ tidy e₂
    obtain ⟨⟨options, s₃⟩, e₃, e⟩ := bind_eq_ok.mp e
    obtain ⟨items, ws, rfl, _, rfl, h₃, tidy⟩ := optionalBlock_sound option_lines h₂ tidy e₃
    obtain ⟨rfl, rfl⟩ := Prod.mk.inj (Except.ok.inj e)
    exact ⟨⟨mode, items⟩, ws, rfl, trivial, rfl, h₃, tidy⟩
  complete := by
    intro s tree ws hs lineEnd _
    obtain ⟨e₁, h₁⟩ := expect_ok hs nofun
    obtain ⟨e₂, h₂⟩ := expectText_ok h₁ "decoder"
    obtain ⟨t, e₃, h₃⟩ := optionalBlock_complete option_lines h₂ lineEnd (okLines_of_true .empty _)
    exact ⟨t, bind_ok e₁ <| bind_ok e₂ <| bind_ok e₃ rfl, h₃⟩

/-! ## Metrics -/

theorem metricType_reads :
    Reads metricType (fun type => [.mark (typeKeyword type)]) (fun _ => True) id where
  sound := by
    intro s t ws type hs tidy e
    rw [metricType] at e
    split at e
    case h_5 => cases e
    all_goals
      next hk =>
        obtain ⟨rfl, rfl⟩ := Prod.mk.inj (Except.ok.inj e)
        obtain ⟨ws, rfl, h₁, tidy⟩ := hs.pass tidy hk (by decide) nofun
        exact ⟨_, ws, rfl, trivial, rfl, h₁, tidy⟩
  complete := by
    intro s type ws hs _ _
    refine ⟨s.advance, ?_, hs.advance (by cases type <;> nofun)⟩
    rw [metricType, hs.kind_eq]
    cases type <;> rfl

theorem metricOption_reads (d : MetricDraft) :
    Reads (fun s => do let (options, s) ← option d.options s; return ({ d with options }, s))
      OptionItem.words (fun _ => True) (fun o => (MetricItem.option o).apply d) :=
  (option_reads d.options).map fun options => { d with options }

/-- Items of a keyword and a text. -/
theorem metricText_reads (what : String) (item : String → MetricItem) (d : MetricDraft) :
    Reads (fun s => do let (text, s) ← s.expectText what; return ((item text).apply d, s))
      (fun text => [.name text]) (fun _ => True) (fun text => (item text).apply d) :=
  (text_reads what).map fun text => (item text).apply d

theorem metricItem_lines :
    Lines metricItem MetricItem.words (fun _ _ => True) MetricItem.apply where
  reads d := by
    have types := metricType_reads.map fun type => (MetricItem.type type).apply d
    have labels := (texts_reads "label").map fun names => { d with labels := names }
    constructor
    case sound =>
      intro s t ws d' hs tidy e
      rw [metricItem] at e
      split at e
      · next hk =>
        obtain ⟨text, ws, rfl, _, rfl, rest⟩ :=
          (metricText_reads _ .name d).of_keyword hs tidy hk e (by decide) nofun
        exact ⟨.name text, ws, rfl, trivial, rfl, rest⟩
      · next hk =>
        obtain ⟨type, ws, rfl, _, rfl, rest⟩ := types.of_keyword hs tidy hk e (by decide) nofun
        exact ⟨.type type, ws, rfl, trivial, rfl, rest⟩
      · next hk =>
        obtain ⟨text, ws, rfl, _, rfl, rest⟩ :=
          (metricText_reads _ .description d).of_keyword hs tidy hk e (by decide) nofun
        exact ⟨.description text, ws, rfl, trivial, rfl, rest⟩
      · next hk =>
        obtain ⟨text, ws, rfl, _, rfl, rest⟩ :=
          (metricText_reads _ .help d).of_keyword hs tidy hk e (by decide) nofun
        exact ⟨.help text, ws, rfl, trivial, rfl, rest⟩
      · next hk =>
        obtain ⟨names, ws, rfl, _, rfl, rest⟩ := labels.of_keyword hs tidy hk e (by decide) nofun
        exact ⟨.labels names, ws, rfl, trivial, rfl, rest⟩
      · next hk =>
        obtain ⟨text, ws, rfl, _, rfl, rest⟩ :=
          (metricText_reads _ .path d).of_keyword hs tidy hk e (by decide) nofun
        exact ⟨.path text, ws, rfl, trivial, rfl, rest⟩
      · obtain ⟨o, ws, rfl, _, rfl, rest⟩ := (metricOption_reads d).sound hs tidy e
        exact ⟨.option o, ws, rfl, trivial, rfl, rest⟩
      · obtain ⟨o, ws, rfl, _, rfl, rest⟩ := (metricOption_reads d).sound hs tidy e
        exact ⟨.option o, ws, rfl, trivial, rfl, rest⟩
      · cases e
    case complete =>
      intro s tree ws hs lineEnd _
      cases tree with
      | option o =>
        rcases option_kind hs with hk | hk <;>
        · rw [metricItem, hk]
          exact (metricOption_reads d).complete hs lineEnd trivial
      | name text =>
        rw [metricItem, hs.kind_eq]
        exact (metricText_reads "metric name" .name d).complete
          (hs.advance nofun) lineEnd trivial
      | type type =>
        rw [metricItem, hs.kind_eq]
        exact types.complete (hs.advance nofun) lineEnd trivial
      | description text =>
        rw [metricItem, hs.kind_eq]
        exact (metricText_reads "description" .description d).complete
          (hs.advance nofun) lineEnd trivial
      | help text =>
        rw [metricItem, hs.kind_eq]
        exact (metricText_reads "description" .help d).complete
          (hs.advance nofun) lineEnd trivial
      | labels names =>
        rw [metricItem, hs.kind_eq]
        exact labels.complete (hs.advance nofun) lineEnd trivial
      | path text =>
        rw [metricItem, hs.kind_eq]
        exact (metricText_reads "value path" .path d).complete
          (hs.advance nofun) lineEnd trivial
  content x := by
    cases x with
    | option o => exact option_content o
    | _ => exact ⟨_, _, rfl, rfl⟩

theorem isSome_name_foldl (d : MetricDraft) (xs : List MetricItem) :
    (xs.foldl MetricItem.apply d).name.isSome ↔ d.name.isSome ∨ ∃ text, .name text ∈ xs := by
  induction xs generalizing d with
  | nil => simp
  | cons x xs ih =>
    rw [List.foldl_cons, ih]
    cases x <;> simp [MetricItem.apply]

theorem isSome_type_foldl (d : MetricDraft) (xs : List MetricItem) :
    (xs.foldl MetricItem.apply d).type.isSome ↔ d.type.isSome ∨ ∃ type, .type type ∈ xs := by
  induction xs generalizing d with
  | nil => simp
  | cons x xs ih =>
    rw [List.foldl_cons, ih]
    cases x <;> simp [MetricItem.apply]

theorem complete_iff (m : MetricBlock) :
    m.Complete ↔ m.draft.name.isSome ∧ m.draft.type.isSome := by
  rw [MetricBlock.draft, isSome_name_foldl, isSome_type_foldl, MetricBlock.Complete]
  simp

theorem finish_eq_ok_iff {m : MetricBlock} {span : Span} {r : Metric} :
    m.draft.finish span = .ok r ↔ m.Complete ∧ r = m.metric := by
  rw [complete_iff, MetricBlock.metric, MetricDraft.finish]
  cases m.draft.name <;> cases m.draft.type <;> simp [eq_comm]

theorem metric_reads : Reads metric MetricBlock.words MetricBlock.Complete MetricBlock.metric where
  sound := by
    intro s t ws r hs tidy e
    obtain ⟨⟨span, s₁⟩, e₁, e⟩ := bind_eq_ok.mp e
    obtain ⟨ws, rfl, h₁, tidy⟩ := of_expect hs tidy e₁ (by decide) nofun
    obtain ⟨⟨draft, s₂⟩, e₂, e⟩ := bind_eq_ok.mp e
    obtain ⟨m, ws, rfl, _, rfl, rest⟩ := (block_reads metricItem_lines {}).sound h₁ tidy e₂
    obtain ⟨r', e₃, e⟩ := bind_eq_ok.mp e
    obtain ⟨rfl, rfl⟩ := Prod.mk.inj (Except.ok.inj e)
    obtain ⟨complete, rfl⟩ := finish_eq_ok_iff.mp e₃
    exact ⟨m, ws, rfl, complete, rfl, rest⟩
  complete := by
    intro s m ws hs lineEnd complete
    obtain ⟨e₁, h₁⟩ := expect_ok hs nofun
    obtain ⟨t, e₂, h₂⟩ := (block_reads metricItem_lines {}).complete h₁ lineEnd
      (okLines_of_true _ _)
    exact ⟨t, bind_ok e₁ <| bind_ok e₂ <| bind_ok (finish_eq_ok_iff.mpr ⟨complete, rfl⟩) rfl, h₂⟩

/-! ## Auths in use -/

/-- Auths are known by these names. -/
def Known (auths : Auths) (names : List String) : Prop := ∀ n ∈ names, (auths.lookup n).isSome

instance (auths : Auths) (names : List String) : Decidable (Known auths names) :=
  inferInstanceAs (Decidable (∀ n ∈ names, _))

theorem asAuth_sound {auths : Auths} {a : Option Auth} (hs : s.Shows ws) (tidy : Tidy ws)
    (e : asAuth auths s = .ok (a, t)) :
    ∃ name ws', ws = asWords name ++ ws' ∧ Known auths name.toList ∧ a = resolve auths name ∧
      t.Shows ws' ∧ Tidy ws' := by
  rw [asAuth] at e
  split at e
  · next hk =>
    obtain ⟨ws, rfl, h₁, tidy⟩ := hs.pass tidy hk (by decide) nofun
    obtain ⟨⟨auth, s₂⟩, e₂, e⟩ := bind_eq_ok.mp e
    obtain ⟨rfl, rfl⟩ := Prod.mk.inj (Except.ok.inj e)
    obtain ⟨⟨name, s₃⟩, e₃, e⟩ := bind_eq_ok.mp e₂
    obtain ⟨ws, rfl, h₃, tidy⟩ := of_expectText h₁ tidy e₃
    dsimp only at e
    split at e
    · cases e
    · next found hfound =>
      rw [Auth.copy_eq_ok] at e
      obtain ⟨rfl, rfl⟩ := Prod.mk.inj (Except.ok.inj e)
      refine ⟨some name, ws, rfl, ?_, ?_, h₃, tidy⟩
      · refine List.forall_mem_singleton.mpr ?_
        rw [hfound]
        rfl
      · rw [resolve, Option.bind_some, hfound]
        rfl
  · obtain ⟨rfl, rfl⟩ := Prod.mk.inj (Except.ok.inj e)
    exact ⟨none, ws, rfl, nofun, rfl, hs, tidy⟩

theorem asAuth_complete {auths : Auths} {name : Option String} {w : Word}
    (hs : s.Shows (asWords name ++ w :: ws)) (hw : w ≠ .mark .as)
    (known : Known auths name.toList) :
    ∃ t, asAuth auths s = .ok (resolve auths name, t) ∧ t.Shows (w :: ws) := by
  cases name with
  | none =>
    have hk : s.kind ≠ .as := fun hk => hw (hs.mark_of_kind hk (by decide))
    rw [asAuth, if_neg hk]
    exact ⟨s, rfl, hs⟩
  | some name =>
    obtain ⟨auth, found⟩ := Option.isSome_iff_exists.mp (known name (List.mem_singleton_self name))
    obtain ⟨e, h⟩ := expectText_ok (hs.advance nofun) "auth name"
    refine ⟨_, ?_, h⟩
    have hk : s.kind = .as := hs.kind_eq
    rw [asAuth, if_pos hk, resolve, Option.bind_some, found]
    refine bind_ok (a := (auth.copied, s.advance.advance)) (bind_ok e ?_) rfl
    simp only [found, Auth.copy_eq_ok]
    rfl

/-! ## Resources -/

theorem resourceItem_lines :
    Lines resourceItem ResourceItem.words (fun _ x => ∀ m ∈ x.metrics, MetricBlock.Complete m)
      ResourceItem.apply where
  reads r := by
    have options := (option_reads r.options).map fun options => { r with options }
    have metrics := metric_reads.map fun m => { r with metrics := r.metrics ++ [m] }
    have decoders := decoder_reads.map fun d => { r with decoder := some d }
    constructor
    case sound =>
      intro s t ws r' hs tidy e
      rw [resourceItem] at e
      split at e
      · obtain ⟨o, ws, rfl, _, rfl, rest⟩ := options.sound hs tidy e
        exact ⟨.option o, ws, rfl, nofun, rfl, rest⟩
      · obtain ⟨o, ws, rfl, _, rfl, rest⟩ := options.sound hs tidy e
        exact ⟨.option o, ws, rfl, nofun, rfl, rest⟩
      · obtain ⟨m, ws, rfl, complete, rfl, rest⟩ := metrics.sound hs tidy e
        exact ⟨.metric m, ws, rfl, List.forall_mem_singleton.mpr complete, rfl, rest⟩
      · obtain ⟨x, ws, rfl, _, rfl, rest⟩ := decoders.sound hs tidy e
        exact ⟨.extract x, ws, rfl, nofun, rfl, rest⟩
      · cases e
    case complete =>
      intro s tree ws hs lineEnd good
      cases tree with
      | option o =>
        rcases option_kind hs with hk | hk <;>
        · rw [resourceItem, hk]
          exact options.complete hs lineEnd trivial
      | metric m =>
        rw [resourceItem, hs.kind_eq]
        exact metrics.complete hs lineEnd (List.forall_mem_singleton.mp good)
      | extract x =>
        rw [resourceItem, hs.kind_eq]
        exact decoders.complete hs lineEnd trivial
  content x := by
    cases x with
    | option o => exact option_content o
    | _ => exact ⟨_, _, rfl, rfl⟩

theorem of_httpMethod {method : HttpMethod} (hs : s.Shows ws) (tidy : Tidy ws)
    (e : httpMethod s = .ok (method, t)) :
    ∃ ws', ws = .mark (methodKeyword method) :: ws' ∧ t.Shows ws' ∧ Tidy ws' := by
  rw [httpMethod] at e
  split at e
  case h_3 => cases e
  all_goals
    next hk =>
      obtain ⟨rfl, rfl⟩ := Prod.mk.inj (Except.ok.inj e)
      exact hs.pass tidy hk (by decide) nofun

theorem httpMethod_ok {method : HttpMethod} (hs : s.Shows (.mark (methodKeyword method) :: ws)) :
    httpMethod s = .ok (method, s.advance) ∧ s.advance.Shows ws := by
  rw [httpMethod, hs.kind_eq]
  exact ⟨by cases method <;> rfl, hs.advance (by cases method <;> nofun)⟩

/-- What stands behind the header of a section: a block, or the end of the line. -/
theorem behind_header {α : Type} (words : α → List Word) (items : Option (Series α))
    (lineEnd : LineEnd ws) :
    ∃ k rest, optionalBlock words items ++ ws = .mark k :: rest ∧ k ≠ .comma ∧ k ≠ .as := by
  cases items with
  | none =>
    obtain ⟨k, rest, rfl, hk⟩ := lineEnd
    refine ⟨k, rest, rfl, ?_⟩
    rcases hk with rfl | rfl | rfl <;> decide
  | some _ => exact ⟨.blockOpen, _, rfl, by decide⟩

/-- A resource can be read if its auth is known and its metrics are complete. -/
def ResourceValid (auths : Auths) (r : ResourceSection) : Prop :=
  Known auths r.auth.toList ∧ ∀ m ∈ r.metrics, MetricBlock.Complete m

theorem resource_reads (auths : Auths) :
    Reads (resource auths) ResourceSection.words (ResourceValid auths)
      (ResourceSection.resource auths) where
  sound := by
    intro s t ws r hs tidy e
    obtain ⟨⟨method, s₁⟩, e₁, e⟩ := bind_eq_ok.mp e
    obtain ⟨ws, rfl, h₁, tidy⟩ := of_httpMethod hs tidy e₁
    obtain ⟨⟨uri, s₂⟩, e₂, e⟩ := bind_eq_ok.mp e
    obtain ⟨ws, rfl, h₂, tidy⟩ := of_expectText h₁ tidy e₂
    obtain ⟨⟨auth, s₃⟩, e₃, e⟩ := bind_eq_ok.mp e
    obtain ⟨name, ws, rfl, known, rfl, h₃, tidy⟩ := asAuth_sound h₂ tidy e₃
    obtain ⟨items, ws, rfl, complete, rfl, rest⟩ := optionalBlock_sound resourceItem_lines h₃ tidy e
    rw [okLines_iff] at complete
    refine ⟨⟨method, uri, name, items⟩, ws, ?_, ⟨known, ?_⟩, rfl, rest⟩
    · simp [ResourceSection.words]
    · intro m hm
      obtain ⟨x, hx, hm⟩ := List.mem_flatMap.mp hm
      exact complete x hx m hm
  complete := by
    intro s r ws hs lineEnd valid
    obtain ⟨k, rest, behind, _, hk⟩ := behind_header ResourceItem.words r.items lineEnd
    rw [ResourceSection.words, List.cons_append, List.cons_append, List.append_assoc, behind] at hs
    obtain ⟨e₁, h₁⟩ := httpMethod_ok hs
    obtain ⟨e₂, h₂⟩ := expectText_ok h₁ "resource path"
    obtain ⟨s₃, e₃, h₃⟩ := asAuth_complete h₂ (by simpa using hk) valid.1
    rw [← behind] at h₃
    have complete : ∀ x ∈ itemsOf r.items, ∀ m ∈ x.metrics, MetricBlock.Complete m :=
      fun x hx m hm => valid.2 m (List.mem_flatMap.mpr ⟨x, hx, hm⟩)
    obtain ⟨t, e₄, h₄⟩ := optionalBlock_complete resourceItem_lines h₃ lineEnd
      (okLines_iff.mpr complete)
    exact ⟨t, bind_ok e₁ <| bind_ok e₂ <| bind_ok e₃ e₄, h₄⟩

/-! ## Services -/

/-- A line of a service block can be read if its auths are known and its metrics are complete. -/
def ServiceItemValid (auths : Auths) (x : ServiceItem) : Prop :=
  Known auths x.uses ∧ ∀ m ∈ x.metrics, MetricBlock.Complete m

/-- What a line adds to a service and to the options set for it. -/
def addItem (auths : Auths) (a : Service × Options) (x : ServiceItem) : Service × Options :=
  (x.apply auths a.1, x.options.foldl OptionItem.apply a.2)

theorem foldl_addItem (auths : Auths) (service : Service) (m : Options) (xs : List ServiceItem) :
    xs.foldl (addItem auths) (service, m) =
      (xs.foldl (ServiceItem.apply auths) service,
        (xs.flatMap ServiceItem.options).foldl OptionItem.apply m) := by
  induction xs generalizing service m with
  | nil => rfl
  | cons x xs ih =>
    rw [List.foldl_cons, List.foldl_cons, List.flatMap_cons, List.foldl_append, addItem, ih]

theorem serviceItem_lines (auths : Auths) :
    Lines (serviceItem auths) ServiceItem.words (fun _ => ServiceItemValid auths)
      (addItem auths) where
  reads a := by
    have options := (option_reads a.2).map fun options => (a.1, options)
    have metrics := metric_reads.map fun m => ({ a.1 with metrics := a.1.metrics ++ [m] }, a.2)
    have resources := (resource_reads auths).map fun r =>
      ({ a.1 with resources := a.1.resources ++ [r] }, a.2)
    have decoders := decoder_reads.map fun d => ({ a.1 with decoder := some d }, a.2)
    constructor
    case sound =>
      intro s t ws a' hs tidy e
      rw [serviceItem] at e
      split at e
      · obtain ⟨o, ws, rfl, _, rfl, rest⟩ := options.sound hs tidy e
        exact ⟨.option o, ws, rfl, ⟨nofun, nofun⟩, rfl, rest⟩
      · obtain ⟨o, ws, rfl, _, rfl, rest⟩ := options.sound hs tidy e
        exact ⟨.option o, ws, rfl, ⟨nofun, nofun⟩, rfl, rest⟩
      · obtain ⟨m, ws, rfl, complete, rfl, rest⟩ := metrics.sound hs tidy e
        exact ⟨.metric m, ws, rfl, ⟨nofun, List.forall_mem_singleton.mpr complete⟩, rfl, rest⟩
      · obtain ⟨r, ws, rfl, valid, rfl, rest⟩ := resources.sound hs tidy e
        exact ⟨.resource r, ws, rfl, valid, rfl, rest⟩
      · obtain ⟨r, ws, rfl, valid, rfl, rest⟩ := resources.sound hs tidy e
        exact ⟨.resource r, ws, rfl, valid, rfl, rest⟩
      · obtain ⟨x, ws, rfl, _, rfl, rest⟩ := decoders.sound hs tidy e
        exact ⟨.extract x, ws, rfl, ⟨nofun, nofun⟩, rfl, rest⟩
      · cases e
    case complete =>
      intro s tree ws hs lineEnd valid
      cases tree with
      | option o =>
        rcases option_kind hs with hk | hk <;>
        · rw [serviceItem, hk]
          exact options.complete hs lineEnd trivial
      | metric m =>
        rw [serviceItem, hs.kind_eq]
        exact metrics.complete hs lineEnd (List.forall_mem_singleton.mp valid.2)
      | resource r =>
        rw [serviceItem, hs.kind_eq]
        cases r.method <;> exact resources.complete hs lineEnd valid
      | extract x =>
        rw [serviceItem, hs.kind_eq]
        exact decoders.complete hs lineEnd trivial
  content x := by
    cases x with
    | option o => exact option_content o
    | resource r => exact ⟨_, _, rfl, by cases r.method <;> rfl⟩
    | _ => exact ⟨_, _, rfl, rfl⟩

theorem stamp_eq_ok (service : Service) (span : Span) (names : List String) :
    stamp service span names = .ok (names.map fun name => { service.copied with name }) := by
  induction names with
  | nil => rfl
  | cons name names ih =>
    rw [stamp, Service.copy_eq_ok, ih]
    rfl

theorem defaultAuth_eq_ok (context : Context) (span : Span) :
    defaultAuth context span = .ok (context.auth.map Auth.copied) := by
  rw [defaultAuth, mapM_option_eq_ok Auth.copy_eq_ok]
  rfl

/-- A service section can be read if its auths are known, its metrics are complete, and its options
fit. -/
structure ServiceValid (context : Context) (auths : Auths) (s : ServiceSection) : Prop where
  known : Known auths s.uses
  complete : ∀ m ∈ s.metrics, MetricBlock.Complete m
  fits : s.Fits context

theorem items_valid_iff {auths : Auths} {x : ServiceSection} :
    (Known auths x.uses ∧ ∀ m ∈ x.metrics, MetricBlock.Complete m) ↔
      Known auths x.auth.toList ∧ ∀ i ∈ itemsOf x.items, ServiceItemValid auths i := by
  constructor
  · rintro ⟨known, complete⟩
    obtain ⟨ofAuth, ofItems⟩ := List.forall_mem_append.mp known
    exact ⟨ofAuth, fun i hi => ⟨fun n hn => ofItems n (List.mem_flatMap.mpr ⟨i, hi, hn⟩),
      fun m hm => complete m (List.mem_flatMap.mpr ⟨i, hi, hm⟩)⟩⟩
  · rintro ⟨ofAuth, items⟩
    refine ⟨List.forall_mem_append.mpr ⟨ofAuth, ?_⟩, ?_⟩
    · intro n hn
      obtain ⟨i, hi, hn⟩ := List.mem_flatMap.mp hn
      exact (items i hi).1 n hn
    · intro m hm
      obtain ⟨i, hi, hm⟩ := List.mem_flatMap.mp hm
      exact (items i hi).2 m hm

theorem items_valid {context : Context} {auths : Auths} {x : ServiceSection} :
    ServiceValid context auths x ↔ Known auths x.auth.toList ∧
      (∀ i ∈ itemsOf x.items, ServiceItemValid auths i) ∧ x.Fits context := by
  rw [← and_assoc, ← items_valid_iff]
  exact ⟨fun ⟨known, complete, fits⟩ => ⟨⟨known, complete⟩, fits⟩,
    fun ⟨⟨known, complete⟩, fits⟩ => ⟨known, complete, fits⟩⟩

/-- The auth that was read, or a copy of the one of the context if there is none. -/
def authOr (context : Context) (span : Span) : Option Auth → Except ReadFault (Option Auth)
  | some auth => .ok (some auth)
  | none => defaultAuth context span

theorem authOr_eq_ok {context : Context} {auths : Auths} {x : ServiceSection} {span : Span}
    (known : Known auths x.auth.toList) :
    authOr context span (resolve auths x.auth) = .ok (x.authOf context auths) := by
  rw [ServiceSection.authOf]
  cases hx : x.auth with
  | none => exact defaultAuth_eq_ok context span
  | some name =>
    rw [hx] at known
    obtain ⟨auth, found⟩ := Option.isSome_iff_exists.mp (known name (List.mem_singleton_self name))
    dsimp only
    rw [resolve, Option.bind_some, found]
    rfl

/-- The reader of service sections with the choice of the auth as one step. -/
theorem service_eq (context : Context) (auths : Auths) (stack : Option String) (s : Stream) :
    service context auths stack s = (do
      let (span, s) ← s.expect .forService
      let (names, s) ← s.expectTexts "service name"
      let (auth, s) ← asAuth auths s
      let auth ← authOr context span auth
      let ((service, options), s) ←
        s.optionalBlock (serviceItem auths) ({ name := "", stack, auth }, .empty)
      let service ← settle context service options span
      return (← stamp service span names, s)) := by
  refine bind_congr fun (span, s) => bind_congr fun (names, s) => bind_congr fun (auth, s) => ?_
  cases auth <;> rfl

/-- A section whose auths are known and whose items can be read comes down to its options. -/
theorem service_settles (context : Context) {auths : Auths} (stack : Option String)
    {x : ServiceSection} (hs : s.Shows (x.words ++ ws)) (lineEnd : LineEnd ws)
    (known : Known auths x.auth.toList) (items : ∀ i ∈ itemsOf x.items, ServiceItemValid auths i) :
    ∃ t, t.Shows ws ∧ service context auths stack s = (do
      let service ← settle context
        ((itemsOf x.items).foldl (ServiceItem.apply auths)
          { name := "", stack, auth := x.authOf context auths })
        (optionsOf x.options) s.current.span
      return (x.names.toList.map fun name => { service.copied with name }, t)) := by
  obtain ⟨k, rest, behind, hcomma, has⟩ := behind_header ServiceItem.words x.items lineEnd
  obtain ⟨w, more, next, hw⟩ : ∃ w more, asWords x.auth ++ .mark k :: rest = w :: more ∧
      w ≠ .mark .comma := by
    cases x.auth with
    | none => exact ⟨_, _, rfl, by simpa using hcomma⟩
    | some name => exact ⟨_, _, rfl, nofun⟩
  rw [ServiceSection.words, List.cons_append, List.append_assoc, List.append_assoc, behind,
    next] at hs
  obtain ⟨e₁, h₁⟩ := expect_ok hs nofun
  obtain ⟨s₂, e₂, h₂⟩ := expectTexts_ok h₁ hw
  rw [← next] at h₂
  obtain ⟨s₃, e₃, h₃⟩ := asAuth_complete h₂ (by simpa using has) known
  rw [← behind] at h₃
  obtain ⟨t, e₅, h₅⟩ := optionalBlock_complete (serviceItem_lines auths) h₃ lineEnd
    (a := ({ name := "", stack, auth := x.authOf context auths }, .empty)) (okLines_iff.mpr items)
  rw [foldl_addItem] at e₅
  refine ⟨t, h₅, (service_eq ..).trans <| (bind_of_ok e₁).trans <| (bind_of_ok e₂).trans <|
    (bind_of_ok e₃).trans <| (bind_of_ok (authOr_eq_ok known)).trans <| (bind_of_ok e₅).trans ?_⟩
  exact bind_congr fun service => bind_of_ok (stamp_eq_ok ..)

theorem service_reads (context : Context) (auths : Auths) (stack : Option String) :
    Reads (service context auths stack) ServiceSection.words (ServiceValid context auths)
      (ServiceSection.services context auths stack) where
  sound := by
    intro s t ws r hs tidy e
    rw [service_eq] at e
    obtain ⟨⟨span, s₁⟩, e₁, e⟩ := bind_eq_ok.mp e
    obtain ⟨ws, rfl, h₁, tidy⟩ := of_expect hs tidy e₁ (by decide) nofun
    obtain ⟨⟨names, s₂⟩, e₂, e⟩ := bind_eq_ok.mp e
    obtain ⟨names, ws, rfl, rfl, h₂, tidy⟩ := of_expectTexts h₁ tidy e₂
    obtain ⟨⟨auth, s₃⟩, e₃, e⟩ := bind_eq_ok.mp e
    obtain ⟨name, ws, rfl, known, rfl, h₃, tidy⟩ := asAuth_sound h₂ tidy e₃
    obtain ⟨auth, e₄, e⟩ := bind_eq_ok.mp e
    obtain ⟨⟨⟨template, options⟩, s₅⟩, e₅, e⟩ := bind_eq_ok.mp e
    obtain ⟨items, ws, rfl, valid, hvalue, rest⟩ :=
      optionalBlock_sound (serviceItem_lines auths) h₃ tidy e₅
    obtain ⟨service, e₆, e⟩ := bind_eq_ok.mp e
    obtain ⟨services, e₇, e⟩ := bind_eq_ok.mp e
    obtain ⟨rfl, rfl⟩ := Prod.mk.inj (Except.ok.inj e)
    let x : ServiceSection := ⟨names, name, items⟩
    obtain rfl := Except.ok.inj (e₄.symm.trans (authOr_eq_ok (x := x) known))
    rw [foldl_addItem] at hvalue
    obtain ⟨rfl, rfl⟩ := Prod.mk.inj hvalue
    obtain ⟨fits, rfl⟩ := settle_eq_ok_iff.mp e₆
    rw [stamp_eq_ok] at e₇
    obtain rfl := Except.ok.inj e₇
    refine ⟨x, ws, ?_, items_valid.mpr ⟨known, okLines_iff.mp valid, fits⟩, rfl, rest⟩
    simp [x, ServiceSection.words]
  complete := by
    intro s x ws hs lineEnd valid
    obtain ⟨known, items, fits⟩ := items_valid.mp valid
    obtain ⟨t, ht, e⟩ := service_settles context stack hs lineEnd known items
    exact ⟨t, e.trans (bind_ok (settle_eq_ok_iff.mpr ⟨fits, rfl⟩) rfl), ht⟩

/-! ## Definitions of auths -/

theorem auth_reads (auths : Auths) :
    Reads (auth auths) AuthSection.words (fun _ => True) (AuthSection.define auths) where
  sound := by
    intro s t ws r hs tidy e
    obtain ⟨⟨_, s₁⟩, e₁, e⟩ := bind_eq_ok.mp e
    obtain ⟨ws, rfl, h₁, tidy⟩ := of_expect hs tidy e₁ (by decide) nofun
    obtain ⟨⟨scheme, s₂⟩, e₂, e⟩ := bind_eq_ok.mp e
    obtain ⟨ws, rfl, h₂, tidy⟩ := of_expectText h₁ tidy e₂
    obtain ⟨⟨_, s₃⟩, e₃, e⟩ := bind_eq_ok.mp e
    obtain ⟨ws, rfl, h₃, tidy⟩ := of_expect h₂ tidy e₃ (by decide) nofun
    obtain ⟨⟨name, s₄⟩, e₄, e⟩ := bind_eq_ok.mp e
    obtain ⟨ws, rfl, h₄, tidy⟩ := of_expectText h₃ tidy e₄
    obtain ⟨⟨options, s₅⟩, e₅, e⟩ := bind_eq_ok.mp e
    obtain ⟨items, ws, rfl, _, rfl, rest⟩ := optionalBlock_sound option_lines h₄ tidy e₅
    obtain ⟨rfl, rfl⟩ := Prod.mk.inj (Except.ok.inj e)
    exact ⟨⟨scheme, name, items⟩, ws, rfl, trivial, rfl, rest⟩
  complete := by
    intro s x ws hs lineEnd _
    obtain ⟨e₁, h₁⟩ := expect_ok hs nofun
    obtain ⟨e₂, h₂⟩ := expectText_ok h₁ "auth type"
    obtain ⟨e₃, h₃⟩ := expect_ok h₂ nofun
    obtain ⟨e₄, h₄⟩ := expectText_ok h₃ "auth name"
    obtain ⟨t, e₅, h₅⟩ := optionalBlock_complete option_lines h₄ lineEnd (okLines_of_true .empty _)
    exact ⟨t, bind_ok e₁ <| bind_ok e₂ <| bind_ok e₃ <| bind_ok e₄ <| bind_ok e₅ rfl, h₅⟩

end Document

end ScrapeConfig
