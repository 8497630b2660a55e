import ScrapeConfig.Proofs.Document.Expressible
import ScrapeConfig.Proofs.Document.Printing

/-!
# Canonical documents

The canonical document of a configuration defines every auth that is in use under a name of its own
before any service, and then has a section for every service. What it describes is the configuration.

Results:
1. `optionsOf_settings`: the options that the settings of a map set are the map.
2. `Metric.metric_block`, `Resource.resource_toSection`, `Service.services_toSection`: the values of
   the parts.
3. `Configuration.configuration_document`: the value of the whole document.
-/

namespace ScrapeConfig

open Syntax (Series OptionItem optionsOf Extract MetricItem MetricBlock ResourceItem ResourceSection
  ServiceItem ServiceSection AuthSection Section itemsOf resolve)
open ScrapeConfig.Document (Auths MetricDraft Draft settled)

theorem itemsOf_ofList? {α : Type} (xs : List α) : itemsOf (Series.ofList? xs) = xs := by
  cases xs <;> rfl

/-! ## Options -/

/-- A setting for every entry. -/
def Options.settings (m : Options) : List OptionItem :=
  m.toList.map fun (k, v) => .set ⟨k, v.string?.getD ""⟩

theorem Options.Expressible.rest {k : String} {v : OptionValue} {rest : Options}
    (h : (Options.entry k v rest).Expressible) : rest.Expressible :=
  ⟨h.ordered.2, (List.forall_mem_cons.mp h.entries).2⟩

theorem Options.Expressible.settings_cons {k : String} {v : OptionValue} {rest : Options}
    (h : (Options.entry k v rest).Expressible) (acc : Options) :
    (Options.entry k v rest).settings.foldl OptionItem.apply acc =
      rest.settings.foldl OptionItem.apply (acc.insert k v) := by
  obtain ⟨_, text, htext, _⟩ := (List.forall_mem_cons.mp h.entries).1
  obtain rfl : v = .string text := htext
  rfl

/-- The settings of a map, laid over other options, by induction on the map. -/
theorem Options.Expressible.foldl_settings {m : Options} (h : m.Expressible) {acc : Options}
    (hacc : acc.Ordered) :
    (m.settings.foldl OptionItem.apply acc).Ordered ∧
      ∀ key, (m.settings.foldl OptionItem.apply acc).get? key = (m.get? key).or (acc.get? key) := by
  match m, h with
  | .empty, _ => exact ⟨hacc, fun _ => rfl⟩
  | .entry k v rest, h =>
    obtain ⟨ordered, values⟩ := h.rest.foldl_settings (hacc.insert k v)
    rw [h.settings_cons]
    refine ⟨ordered, fun key => ?_⟩
    rw [values, get?_insert, get?]
    split
    · next heq =>
      subst heq
      rw [h.ordered.get?_eq_none (le_refl _), Option.none_or, Option.some_or]
    · rfl

/-- The settings of a map set the map. -/
theorem optionsOf_settings {m : Options} (h : m.Expressible) : optionsOf m.settings = m := by
  obtain ⟨ordered, values⟩ := h.foldl_settings (show Options.Ordered .empty from trivial)
  refine ordered.ext h.ordered fun key => ?_
  rw [values, Options.get?, Option.or_none]

/-! ## Decoders and metrics -/

def Decoder.extract (d : Decoder) : Extract := ⟨d.mode, Series.ofList? d.options.settings⟩

def Metric.block (m : Metric) : MetricBlock where
  first := .name m.name
  rest := .type m.type :: .description m.description ::
    ((Series.ofList? m.labels).toList.map .labels ++ (m.path.toList.map .path ++
      m.options.settings.map .option))

theorem Decoder.decoder_extract {d : Decoder} (h : d.Expressible) : d.extract.decoder = d := by
  rw [extract, Extract.decoder, itemsOf_ofList?, optionsOf_settings h.options]

theorem foldl_metric_options (d : MetricDraft) (items : List OptionItem) :
    (items.map MetricItem.option).foldl MetricItem.apply d =
      { d with options := items.foldl OptionItem.apply d.options } := by
  induction items generalizing d with
  | nil => rfl
  | cons o items ih => rw [List.map_cons, List.foldl_cons, ih, MetricItem.apply, List.foldl_cons]

theorem Metric.metric_block {m : Metric} (h : m.Expressible) : m.block.metric = m := by
  have hdraft : m.block.draft =
      ⟨some m.name, some m.type, m.description, m.labels, m.path, m.options⟩ := by
    rw [MetricBlock.draft, Series.toList, block, List.foldl_cons, List.foldl_cons, List.foldl_cons,
      List.foldl_append, List.foldl_append, foldl_metric_options]
    have options := optionsOf_settings h.options
    rw [optionsOf] at options
    cases hl : m.labels <;> cases hp : m.path <;>
      simp [MetricItem.apply, Series.ofList?, Series.toList, options]
  rw [MetricBlock.metric, hdraft]
  rfl

theorem Metric.complete_block (m : Metric) : m.block.Complete :=
  ⟨⟨m.name, List.mem_cons_self⟩, m.type, List.mem_cons_of_mem _ List.mem_cons_self⟩

/-! ## Resources -/

namespace Resource

def items (r : Resource) : List ResourceItem :=
  r.options.settings.map .option ++ (r.decoder.toList.map (.extract ·.extract) ++
    r.metrics.map (.metric ·.block))

/-- The section of a resource, where `use` is the name under which an auth is defined. -/
def toSection (use : Auth → String) (r : Resource) : ResourceSection :=
  ⟨r.method, r.uri, r.auth.map use, Series.ofList? r.items⟩

theorem foldl_options (r : Resource) (items : List OptionItem) :
    (items.map ResourceItem.option).foldl ResourceItem.apply r =
      { r with options := items.foldl OptionItem.apply r.options } := by
  induction items generalizing r with
  | nil => rfl
  | cons o items ih => rw [List.map_cons, List.foldl_cons, ih, ResourceItem.apply, List.foldl_cons]

theorem foldl_decoder (r : Resource) {o : Option Decoder} (h : ∀ d ∈ o, d.Expressible) :
    (o.toList.map fun d => ResourceItem.extract d.extract).foldl ResourceItem.apply r =
      { r with decoder := o.or r.decoder } := by
  cases o with
  | none => rfl
  | some d =>
    show { r with decoder := some d.extract.decoder } = _
    rw [Decoder.decoder_extract (h d rfl)]
    rfl

theorem foldl_metrics (r : Resource) {ms : List Metric} (h : ∀ m ∈ ms, m.Expressible) :
    (ms.map fun m => ResourceItem.metric m.block).foldl ResourceItem.apply r =
      { r with metrics := r.metrics ++ ms } := by
  induction ms generalizing r with
  | nil => rw [List.append_nil]; rfl
  | cons m ms ih =>
    obtain ⟨hm, hms⟩ := List.forall_mem_cons.mp h
    rw [List.map_cons, List.foldl_cons, ih _ hms, ResourceItem.apply, Metric.metric_block hm]
    simp

end Resource

/-- Every auth in a list has been defined under its name. -/
def Defined (use : Auth → String) (auths : Auths) (as : List Auth) : Prop :=
  ∀ a ∈ as, auths.lookup (use a) = some a

theorem resolve_use {use : Auth → String} {auths : Auths} {o : Option Auth}
    (h : ∀ a ∈ o, a.Expressible) (hd : Defined use auths o.toList) :
    resolve auths (o.map use) = o := by
  cases o with
  | none => rfl
  | some a =>
    rw [resolve, Option.map_some, Option.bind_some, hd a (List.mem_singleton_self a),
      Option.map_some, (h a rfl).copied_eq]

theorem Resource.resource_toSection {use : Auth → String} {auths : Auths} {r : Resource}
    (h : r.Expressible) (hd : Defined use auths r.auth.toList) :
    (r.toSection use).resource auths = r := by
  have options := optionsOf_settings h.options
  rw [optionsOf] at options
  rw [ResourceSection.resource, toSection, itemsOf_ofList?, items, List.foldl_append,
    List.foldl_append, foldl_options, foldl_decoder _ h.decoder, foldl_metrics _ h.metrics,
    resolve_use h.auth hd, options, Option.or_none]
  rfl

/-! ## Services -/

namespace Service

/-- The settings for the fields of a service that are set as options. -/
def fieldSettings (s : Service) : List OptionItem :=
  [.set ⟨"mode", s.mode.name⟩, .set ⟨"location", s.location⟩]

def items (use : Auth → String) (s : Service) : List ServiceItem :=
  (s.fieldSettings ++ s.options.settings).map .option ++
    (s.decoder.toList.map (.extract ·.extract) ++ (s.metrics.map (.metric ·.block) ++
      s.resources.map (.resource <| ·.toSection use)))

def toSection (use : Auth → String) (s : Service) : ServiceSection :=
  ⟨⟨s.name, []⟩, s.auth.map use, Series.ofList? (s.items use)⟩

/-- The section of a service, in a block of its own stack if it has one. -/
def topSection (use : Auth → String) (s : Service) : Section :=
  match s.stack with
  | none => .service (s.toSection use)
  | some stack => .stack stack ⟨.service (s.toSection use), []⟩

/-- The auths that a service uses, in the order of the text. -/
def auths (s : Service) : List Auth := s.auth.toList ++ s.resources.flatMap (·.auth.toList)

theorem foldl_options (auths : Auths) (s : Service) (items : List OptionItem) :
    (items.map ServiceItem.option).foldl (ServiceItem.apply auths) s = s := by
  induction items with
  | nil => rfl
  | cons o items ih => exact ih

theorem foldl_decoder (auths : Auths) (s : Service) {o : Option Decoder}
    (h : ∀ d ∈ o, d.Expressible) :
    (o.toList.map fun d => ServiceItem.extract d.extract).foldl (ServiceItem.apply auths) s =
      { s with decoder := o.or s.decoder } := by
  cases o with
  | none => rfl
  | some d =>
    show { s with decoder := some d.extract.decoder } = _
    rw [Decoder.decoder_extract (h d rfl)]
    rfl

theorem foldl_metrics (auths : Auths) (s : Service) {ms : List Metric}
    (h : ∀ m ∈ ms, m.Expressible) :
    (ms.map fun m => ServiceItem.metric m.block).foldl (ServiceItem.apply auths) s =
      { s with metrics := s.metrics ++ ms } := by
  induction ms generalizing s with
  | nil => rw [List.append_nil]; rfl
  | cons m ms ih =>
    obtain ⟨hm, hms⟩ := List.forall_mem_cons.mp h
    rw [List.map_cons, List.foldl_cons, ih _ hms, ServiceItem.apply, Metric.metric_block hm]
    simp

theorem foldl_resources {use : Auth → String} {auths : Auths} (s : Service) {rs : List Resource}
    (h : ∀ r ∈ rs, r.Expressible) (hd : ∀ r ∈ rs, Defined use auths r.auth.toList) :
    (rs.map fun r => ServiceItem.resource (r.toSection use)).foldl (ServiceItem.apply auths) s =
      { s with resources := s.resources ++ rs } := by
  induction rs generalizing s with
  | nil => rw [List.append_nil]; rfl
  | cons r rs ih =>
    obtain ⟨hr, hrs⟩ := List.forall_mem_cons.mp h
    obtain ⟨dr, drs⟩ := List.forall_mem_cons.mp hd
    rw [List.map_cons, List.foldl_cons, ih _ hrs drs, ServiceItem.apply,
      Resource.resource_toSection hr dr]
    simp

theorem options_toSection (use : Auth → String) (s : Service) :
    (s.toSection use).options = s.fieldSettings ++ s.options.settings := by
  have options : ∀ items : List OptionItem,
      (items.map ServiceItem.option).flatMap ServiceItem.options = items := fun items => by
    induction items with
    | nil => rfl
    | cons o items ih => rw [List.map_cons, List.flatMap_cons, ih]; rfl
  rw [ServiceSection.options, toSection, itemsOf_ofList?, items, List.flatMap_append,
    List.flatMap_append, List.flatMap_append, options]
  simp [List.flatMap_map, ServiceItem.options]

end Service

/-- What the options of a section come to: the options of the service and its two fields. -/
theorem Service.Expressible.get?_merged {s : Service} (h : s.Expressible)
    (use : Auth → String) (key : String) :
    (Context.merged {} (optionsOf (s.toSection use).options)).get? key =
      if key = "mode" then some (.string s.mode.name)
      else if key = "location" then some (.string s.location)
      else s.options.get? key := by
  have start : Options.Ordered .empty := trivial
  obtain ⟨_, values⟩ := h.options.foldl_settings
    ((start.insert "mode" (.string s.mode.name)).insert "location" (.string s.location))
  have fields : s.fieldSettings.foldl OptionItem.apply .empty =
      (Options.empty.insert "mode" (.string s.mode.name)).insert "location" (.string s.location) := by
    simp only [Service.fieldSettings, List.foldl_cons, List.foldl_nil, OptionItem.apply,
      Syntax.Setting.apply, OptionStore.setString, OptionStore.setObject_eq]
  rw [Context.get?_merged, optionsOf, Service.options_toSection, List.foldl_append, fields, values,
    Options.get?_insert, Options.get?_insert]
  by_cases hm : key = "mode"
  · subst hm
    simp [h.noMode]
  · by_cases hl : key = "location"
    · subst hl
      simp [h.noLocation]
    · simp [hm, hl, Options.get?]

theorem Service.Expressible.fits {s : Service} (h : s.Expressible) (use : Auth → String) :
    (s.toSection use).Fits {} where
  mode v hv := by
    rw [h.get?_merged, if_pos rfl] at hv
    exact ⟨s.mode, (Option.some.inj hv).symm⟩
  location v hv := by
    rw [h.get?_merged, if_neg (by decide), if_pos rfl] at hv
    exact ⟨s.location, (Option.some.inj hv).symm⟩

/-- The options that remain of a section when its fields are taken out are those of the service. -/
theorem Service.Expressible.erased {s : Service} (h : s.Expressible) (use : Auth → String) :
    ((Context.merged {} (optionsOf (s.toSection use).options)).erase "mode").erase "location" =
      s.options := by
  have start : Options.Ordered .empty := trivial
  have ordered : (Context.merged {} (optionsOf (s.toSection use).options)).Ordered :=
    Options.Ordered.overlay (start.overlay _) _
  refine ((ordered.erase _).erase _).ext h.options.ordered fun key => ?_
  by_cases hl : key = "location"
  · subst hl
    rw [(ordered.erase _).get?_erase, h.noLocation]
  · rw [Options.get?_erase_of_ne hl]
    by_cases hm : key = "mode"
    · subst hm
      rw [ordered.get?_erase, h.noMode]
    · rw [Options.get?_erase_of_ne hm, h.get?_merged, if_neg hm, if_neg hl]

theorem Service.Expressible.template_toSection {use : Auth → String} {auths : Auths} {s : Service}
    (h : s.Expressible) (hd : Defined use auths s.auths) :
    (s.toSection use).template {} auths s.stack = { s with name := "" } := by
  obtain ⟨ofService, ofResources⟩ := List.forall_mem_append.mp hd
  have resources : ∀ r ∈ s.resources, Defined use auths r.auth.toList := fun r hr a ha =>
    ofResources a (List.mem_flatMap.mpr ⟨r, hr, ha⟩)
  have resolved := resolve_use h.auth ofService
  have auth : (s.toSection use).authOf {} auths = s.auth := by
    rw [ServiceSection.authOf, toSection]
    cases ha : s.auth with
    | none => rfl
    | some a =>
      rw [ha] at resolved
      exact resolved
  have mode : (Context.merged {} (optionsOf (s.toSection use).options)).text? "mode" =
      some s.mode.name := by
    rw [Options.text?, h.get?_merged, if_pos rfl]
    rfl
  have location : (Context.merged {} (optionsOf (s.toSection use).options)).text? "location" =
      some s.location := by
    rw [Options.text?, h.get?_merged, if_neg (by decide), if_pos rfl]
    rfl
  have named : ServiceMode.named s.mode.name = s.mode := by cases s.mode <;> rfl
  rw [ServiceSection.template, auth, settled, mode, location, h.erased, toSection, itemsOf_ofList?,
    items, List.foldl_append, List.foldl_append, List.foldl_append, foldl_options,
    foldl_decoder _ _ h.decoder, foldl_metrics _ _ h.metrics, foldl_resources _ h.resources resources,
    Option.or_none]
  simp [named]

/-- What the section of a service describes is the service. -/
theorem Service.Expressible.services_toSection {use : Auth → String} {auths : Auths} {s : Service}
    (h : s.Expressible) (hd : Defined use auths s.auths) :
    (s.toSection use).services {} auths s.stack = [s] := by
  have copied : { ({ s with name := "" } : Service).copied with name := s.name } = s.copied := rfl
  rw [ServiceSection.services, h.template_toSection hd]
  show [{ ({ s with name := "" } : Service).copied with name := s.name }] = _
  rw [copied, h.copied_eq]

/-! ## Configurations -/

/-- Different names that can stand between double quotes, as many as are needed. -/
structure FreshNames where
  name : Nat → String
  injective : Function.Injective name
  quotable : ∀ i, Quotable (name i)

/-- Numbered names. -/
def FreshNames.numbered : FreshNames where
  name i := "auth" ++ i.repr
  injective i j h := by
    -- Different numbers have different digits, since digits can be read back.
    have digits : Nat.toDigits 10 i = Nat.toDigits 10 j := by
      have := congrArg String.toList h
      simpa only [String.toList_append, Nat.toList_repr, List.append_cancel_left_eq] using this
    calc i = Nat.ofDigitChars 10 (Nat.toDigits 10 i) 0 :=
          (Nat.ofDigitChars_toDigits (by decide) (le_refl _)).symm
      _ = Nat.ofDigitChars 10 (Nat.toDigits 10 j) 0 := by rw [digits]
      _ = j := Nat.ofDigitChars_toDigits (by decide) (le_refl _)
  quotable i := by
    rw [Quotable, String.toList_append, List.mem_append, not_or, Nat.toList_repr]
    refine ⟨by decide, fun hmem => ?_⟩
    have := Nat.isDigit_of_mem_toDigits (by decide) (le_refl _) hmem
    exact absurd this (by decide)

def Auth.toSection (name : String) (a : Auth) : AuthSection :=
  ⟨a.scheme, name, Series.ofList? a.options.settings⟩

theorem Auth.define_toSection {a : Auth} (h : a.Expressible) (name : String) (auths : Auths) :
    (a.toSection name).define auths = (name, a) :: auths := by
  rw [AuthSection.define, toSection, itemsOf_ofList?, optionsOf_settings h.options]

namespace Configuration

/-- The auths that are in use, each of them once. -/
def auths (c : Configuration) : List Auth := (c.services.flatMap Service.auths).eraseDups

/-- The name under which an auth is defined. -/
def authName (fresh : FreshNames) (c : Configuration) (a : Auth) : String :=
  fresh.name (c.auths.idxOf a)

/-- The auths that are in use come first, then the services. -/
def sections (fresh : FreshNames) (c : Configuration) : List Section :=
  (if c.dataset then [.dataset] else []) ++
    (c.auths.map (fun a => .auth (a.toSection (c.authName fresh a))) ++
      c.services.map (Service.topSection (c.authName fresh)))

def document (fresh : FreshNames) (c : Configuration) : Syntax.Document :=
  .ofSections (c.sections fresh)

end Configuration

theorem lookup_of_mem {auths : Auths} {name : String} {a : Auth} (hmem : (name, a) ∈ auths)
    (h : ∀ b, (name, b) ∈ auths → b = a) : auths.lookup name = some a := by
  induction auths with
  | nil => cases hmem
  | cons p auths ih =>
    obtain ⟨n, b⟩ := p
    rw [List.lookup_cons]
    by_cases hn : name = n
    · subst hn
      rw [beq_self_eq_true, h b List.mem_cons_self]
    · rw [beq_false_of_ne hn]
      refine ih ?_ fun b hb => h b (List.mem_cons_of_mem _ hb)
      rcases List.mem_cons.mp hmem with heq | hmem
      · exact absurd (Prod.mk.inj heq).1 hn
      · exact hmem

theorem foldl_authSections {use : Auth → String} {as : List Auth} (h : ∀ a ∈ as, a.Expressible)
    (d : Draft) :
    (as.map fun a => Section.auth (a.toSection (use a))).foldl (Section.apply {}) d =
      { d with auths := (as.map fun a => (use a, a)).reverse ++ d.auths } := by
  induction as generalizing d with
  | nil => rfl
  | cons a as ih =>
    obtain ⟨ha, has⟩ := List.forall_mem_cons.mp h
    rw [List.map_cons, List.foldl_cons, Section.apply, ih has, Auth.define_toSection ha]
    simp

theorem Service.Expressible.apply_topSection {use : Auth → String} {s : Service} {d : Draft}
    (h : s.Expressible) (hd : Defined use d.auths s.auths) :
    (s.topSection use).apply {} d = d.add [s] := by
  have services := h.services_toSection hd
  rw [topSection]
  cases hs : s.stack with
  | none =>
    rw [hs] at services
    rw [Section.apply, services]
  | some stack =>
    rw [hs] at services
    show d.add ((s.toSection use).services {} d.auths (some stack)) = _
    rw [services]

theorem foldl_topSections {use : Auth → String} {ss : List Service} {d : Draft}
    (h : ∀ s ∈ ss, s.Expressible) (hd : ∀ s ∈ ss, Defined use d.auths s.auths) :
    (ss.map (Service.topSection use)).foldl (Section.apply {}) d = d.add ss := by
  induction ss generalizing d with
  | nil => simp [Draft.add]
  | cons s ss ih =>
    obtain ⟨hs, hss⟩ := List.forall_mem_cons.mp h
    obtain ⟨ds, dss⟩ := List.forall_mem_cons.mp hd
    rw [List.map_cons, List.foldl_cons, hs.apply_topSection ds, ih (d := d.add [s]) hss dss]
    simp [Draft.add]

namespace Configuration

variable {c : Configuration} (fresh : FreshNames)

theorem mem_auths {a : Auth} : a ∈ c.auths ↔ ∃ s ∈ c.services, a ∈ s.auths := by
  rw [auths, List.mem_eraseDups, List.mem_flatMap]

theorem Expressible.auth (h : c.Expressible) {a : Auth} (ha : a ∈ c.auths) : a.Expressible := by
  obtain ⟨s, hs, ha⟩ := mem_auths.mp ha
  rcases List.mem_append.mp ha with ha | ha
  · exact (h s hs).auth a (Option.mem_toList.mp ha)
  · obtain ⟨r, hr, ha⟩ := List.mem_flatMap.mp ha
    exact ((h s hs).resources r hr).auth a (Option.mem_toList.mp ha)

/-- What has been defined in front of the services, the latest definition first. -/
def definitions (c : Configuration) : Auths :=
  (c.auths.map fun a => (c.authName fresh a, a)).reverse

theorem defined_auths (c : Configuration) :
    Defined (c.authName fresh) (c.definitions fresh) c.auths := by
  intro a ha
  refine lookup_of_mem (List.mem_reverse.mpr (List.mem_map.mpr ⟨a, ha, rfl⟩)) fun b hb => ?_
  obtain ⟨b', hb', heq⟩ := List.mem_map.mp (List.mem_reverse.mp hb)
  obtain ⟨hname, rfl⟩ := Prod.mk.inj heq
  exact (List.idxOf_inj hb').mp (fresh.injective hname)

theorem defined_service (c : Configuration) {s : Service} (hs : s ∈ c.services) :
    Defined (c.authName fresh) (c.definitions fresh) s.auths :=
  fun a ha => c.defined_auths fresh a (mem_auths.mpr ⟨s, hs, ha⟩)

/-- What the canonical document of a configuration describes is the configuration. -/
theorem configuration_document (h : c.Expressible) : (c.document fresh).configuration {} = c := by
  -- No auth is defined behind a service, so all services see the same definitions.
  have services := foldl_topSections (d := ⟨c.definitions fresh, ⟨c.dataset, []⟩⟩) h
    fun s hs => c.defined_service fresh hs
  rw [document, Syntax.Document.configuration, Syntax.Document.sections_ofSections, sections,
    List.foldl_append, List.foldl_append, foldl_authSections fun a ha => h.auth ha]
  have dataset : (if c.dataset then [.dataset] else []).foldl (Section.apply {}) ({} : Draft) =
      ⟨[], ⟨c.dataset, []⟩⟩ := by
    cases c.dataset <;> rfl
  rw [dataset, List.append_nil]
  exact (congrArg Draft.configuration services).trans rfl

end Configuration

end ScrapeConfig
