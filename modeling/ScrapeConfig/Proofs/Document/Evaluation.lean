import ScrapeConfig.Proofs.Config.Copies
import ScrapeConfig.Proofs.Document.Syntax

/-!
# What documents describe

The configuration of a syntax tree, by recursion on the tree. All functions are total: where a
condition on the document fails, the value does not matter.

Results:
1. `Document.settle_eq_ok_iff`: the options of a section can be read if and only if they fit.
2. `Syntax.Document.configuration`: the configuration of a document.
-/

namespace ScrapeConfig

open OptionStore (merge_eq_ok)

/-! ## The options of a section -/

/-- The options of a section laid over those of the context. -/
def Context.merged (context : Context) (options : Options) : Options :=
  .overlay context.options.cloned options

theorem Context.get?_merged (context : Context) (options : Options) (key : String) :
    (context.merged options).get? key = (options.get? key).or (context.options.get? key) := by
  rw [merged, Options.get?_overlay, Options.cloned, Options.get?_overlay, Options.get?,
    Option.or_none]

/-- The text under a key, if there is one. -/
def Options.text? (m : Options) (key : String) : Option String :=
  (m.get? key).bind OptionValue.string?

/-- What stands under `mode` is the name of a mode, and what stands under `location` is a string. -/
structure Options.Fit (m : Options) : Prop where
  mode : ∀ v, m.get? "mode" = some v → ∃ mode : ServiceMode, v = .string mode.name
  location : ∀ v, m.get? "location" = some v → ∃ text, v = .string text

/-- The mode with a name. -/
def ServiceMode.named (text : String) : ServiceMode :=
  (all.find? (·.name == text)).getD .restApi

theorem ServiceMode.ofText_name (mode : ServiceMode) : ofText mode.name = .ok mode := by
  cases mode <;> rfl

theorem ServiceMode.eq_name_of_ofText {text : String} {mode : ServiceMode}
    (h : ofText text = .ok mode) : text = mode.name := by
  unfold ofText at h
  split at h
  · next m hm =>
    obtain rfl := Except.ok.inj h
    have := List.find?_some hm
    exact (eq_of_beq this).symm
  · cases h

theorem Options.erase_of_get?_eq_none {m : Options} {key : String} (h : m.get? key = none) :
    m.erase key = m := by
  match m with
  | .empty => rfl
  | .entry k v rest =>
    rw [get?] at h
    split at h
    · cases h
    · next hne => rw [erase, if_neg hne, erase_of_get?_eq_none h]

namespace Document

/-- Taking a text out of a map, if what stands there is one. -/
theorem takeString_eq_ok_iff {m : Options} {key : String} {span : Span}
    {r : Option String × Options} :
    takeString m key span = .ok r ↔
      (∀ v, m.get? key = some v → ∃ text, v = .string text) ∧ r = (m.text? key, m.erase key) := by
  rw [takeString, OptionStore.getString, OptionStore.getObject_eq, Options.text?]
  cases hv : m.get? key with
  | none =>
    rw [Options.erase_of_get?_eq_none hv]
    simp [eq_comm]
  | some v => cases v <;> simp [OptionValue.string?, eq_comm]

theorem takeMode_eq (m : Options) (span : Span) :
    takeMode m span = match takeString m "mode" span with
      | .error e => .error e
      | .ok (none, m) => .ok (.restApi, m)
      | .ok (some text, m) => match ServiceMode.ofText text with
        | .ok mode => .ok (mode, m)
        | .error message => .error (.error (.atSpan (.unknownMode message) span)) := by
  rw [takeMode]
  rcases takeString m "mode" span with e | ⟨_ | text, m⟩ <;> rfl

theorem takeMode_eq_ok_iff {m : Options} {span : Span} {r : ServiceMode × Options} :
    takeMode m span = .ok r ↔
      (∀ v, m.get? "mode" = some v → ∃ mode : ServiceMode, v = .string mode.name) ∧
        r = ((m.text? "mode").elim .restApi ServiceMode.named, m.erase "mode") := by
  rw [takeMode_eq]
  cases ht : takeString m "mode" span with
  | error e =>
    constructor
    · exact nofun
    · rintro ⟨h, _⟩
      have texts : ∀ v, m.get? "mode" = some v → ∃ text, v = .string text := fun v hv => by
        obtain ⟨mode, rfl⟩ := h v hv
        exact ⟨_, rfl⟩
      rw [takeString_eq_ok_iff.mpr ⟨texts, rfl⟩] at ht
      cases ht
  | ok taken =>
    obtain ⟨texts, rfl⟩ := takeString_eq_ok_iff.mp ht
    rw [Options.text?]
    cases hv : m.get? "mode" with
    | none => simp [eq_comm]
    | some v =>
      obtain ⟨text, rfl⟩ := texts v hv
      simp only [Option.bind_some, OptionValue.string?, Option.elim_some, Option.some.injEq,
        forall_eq', OptionValue.string.injEq]
      cases hm : ServiceMode.ofText text with
      | error message =>
        simp only [reduceCtorEq, false_iff, not_and]
        rintro ⟨mode, rfl⟩
        rw [ServiceMode.ofText_name] at hm
        cases hm
      | ok mode =>
        obtain rfl := ServiceMode.eq_name_of_ofText hm
        have named : ServiceMode.named mode.name = mode := by cases mode <;> rfl
        simp only [Except.ok.injEq, named]
        exact ⟨fun h => ⟨⟨mode, rfl⟩, h.symm⟩, fun h => h.2.symm⟩

/-- The service with the options that were set for it. -/
def settled (context : Context) (service : Service) (options : Options) : Service :=
  let merged := context.merged options
  { service with
    mode := (merged.text? "mode").elim .restApi ServiceMode.named
    location := (merged.text? "location").getD ""
    options := (merged.erase "mode").erase "location" }

theorem settle_eq_ok_iff {context : Context} {service r : Service} {options : Options}
    {span : Span} :
    settle context service options span = .ok r ↔
      (context.merged options).Fit ∧ r = settled context service options := by
  rw [settle, merge_eq_ok]
  show (takeMode (context.merged options) span >>= _) = _ ↔ _
  generalize hm : context.merged options = m
  -- Taking out the mode leaves the location where it is.
  have beside : (m.erase "mode").get? "location" = m.get? "location" :=
    Options.get?_erase_of_ne (by decide)
  have text : (m.erase "mode").text? "location" = m.text? "location" := by
    rw [Options.text?, beside, Options.text?]
  constructor
  · intro h
    cases hmode : takeMode m span with
    | error e => simp [hmode, bind, Except.bind] at h
    | ok taken =>
      obtain ⟨modes, rfl⟩ := takeMode_eq_ok_iff.mp hmode
      rw [hmode] at h
      change (takeString (m.erase "mode") "location" span >>= _) = _ at h
      cases hloc : takeString (m.erase "mode") "location" span with
      | error e => simp [hloc, bind, Except.bind] at h
      | ok taken =>
        obtain ⟨texts, rfl⟩ := takeString_eq_ok_iff.mp hloc
        rw [hloc] at h
        obtain rfl := Except.ok.inj h
        rw [beside] at texts
        refine ⟨⟨modes, texts⟩, ?_⟩
        rw [text, settled, hm]
  · rintro ⟨fit, rfl⟩
    rw [takeMode_eq_ok_iff.mpr ⟨fit.mode, rfl⟩]
    show (takeString (m.erase "mode") "location" span >>= _) = _
    rw [takeString_eq_ok_iff.mpr ⟨by rw [beside]; exact fit.location, rfl⟩, text, settled, hm]
    rfl

end Document

/-! ## The values of syntax trees -/

namespace Syntax

open ScrapeConfig.Document (Auths MetricDraft Draft settled)

def Setting.apply (m : Options) (s : Setting) : Options := (OptionStore.setString m s.key s.value).2

def OptionItem.apply (m : Options) : OptionItem → Options
  | .set s => s.apply m
  | .group settings => settings.toList.foldl Setting.apply m

/-- The options that a list of items sets. -/
def optionsOf (items : List OptionItem) : Options := items.foldl OptionItem.apply .empty

def Extract.decoder (e : Extract) : Decoder := ⟨e.mode, optionsOf (itemsOf e.options)⟩

def MetricItem.apply (d : MetricDraft) : MetricItem → MetricDraft
  | .name text => { d with name := some text }
  | .type t => { d with type := some t }
  | .description text => { d with description := text }
  | .help text => { d with description := text }
  | .labels names => { d with labels := names.toList }
  | .path text => { d with path := some text }
  | .option o => { d with options := o.apply d.options }

namespace MetricBlock

def draft (m : MetricBlock) : MetricDraft := m.toList.foldl MetricItem.apply {}

def metric (m : MetricBlock) : Metric :=
  let d := m.draft
  ⟨d.name.getD "", d.type.getD .counter, d.description, d.labels, d.path, d.options⟩

end MetricBlock

/-- A copy of the latest auth of a name, if one is named. -/
def resolve (auths : Auths) (name : Option String) : Option Auth :=
  name.bind fun name => (auths.lookup name).map Auth.copied

def ResourceItem.apply (r : Resource) : ResourceItem → Resource
  | .option o => { r with options := o.apply r.options }
  | .metric m => { r with metrics := r.metrics ++ [m.metric] }
  | .extract e => { r with decoder := some e.decoder }

def ResourceSection.resource (auths : Auths) (r : ResourceSection) : Resource :=
  (itemsOf r.items).foldl ResourceItem.apply
    { method := r.method, uri := r.uri, auth := resolve auths r.auth }

def ServiceItem.apply (auths : Auths) (s : Service) : ServiceItem → Service
  | .option _ => s
  | .metric m => { s with metrics := s.metrics ++ [m.metric] }
  | .resource r => { s with resources := s.resources ++ [r.resource auths] }
  | .extract e => { s with decoder := some e.decoder }

namespace ServiceSection

/-- The auth of the section, or a copy of the one of the context if the section names none. -/
def authOf (context : Context) (auths : Auths) (s : ServiceSection) : Option Auth :=
  match s.auth with
  | some name => resolve auths (some name)
  | none => context.auth.map Auth.copied

/-- The service of the section, without a name. -/
def template (context : Context) (auths : Auths) (stack : Option String) (s : ServiceSection) :
    Service :=
  settled context
    ((itemsOf s.items).foldl (ServiceItem.apply auths)
      { name := "", stack, auth := s.authOf context auths })
    (optionsOf s.options)

/-- A copy of the service for every name. -/
def services (context : Context) (auths : Auths) (stack : Option String) (s : ServiceSection) :
    List Service :=
  s.names.toList.map fun name => { (s.template context auths stack).copied with name }

/-- The options of the section, laid over those of the context, can be read. -/
def Fits (context : Context) (s : ServiceSection) : Prop :=
  (context.merged (optionsOf s.options)).Fit

end ServiceSection

def AuthSection.define (auths : Auths) (a : AuthSection) : Auths :=
  (a.name, ⟨a.scheme, optionsOf (itemsOf a.options)⟩) :: auths

def StackItem.apply (context : Context) (stack : String) (d : Draft) : StackItem → Draft
  | .service s => d.add (s.services context d.auths (some stack))
  | .auth a => { d with auths := a.define d.auths }

def Section.apply (context : Context) (d : Draft) : Section → Draft
  | .dataset => d.markDataset
  | .auth a => { d with auths := a.define d.auths }
  | .stack name items => items.toList.foldl (StackItem.apply context name) d
  | .service s => d.add (s.services context d.auths none)

namespace Document

/-- The configuration that a document describes. -/
def configuration (context : Context) (d : Document) : Configuration :=
  (d.sections.foldl (Section.apply context) {}).configuration

/-- The options of every service section can be read. -/
def OptionsFit (context : Context) (d : Document) : Prop :=
  ∀ s ∈ d.services, s.Fits context

end Document

end Syntax

end ScrapeConfig
