import ScrapeConfig.Proofs.Document.Canonical
import ScrapeConfig.Proofs.Document.Grammar

/-!
# Writing configurations down and reading them back

The canonical text of a configuration is the text of its canonical document, indented by any number
of spaces for every level. Reading it gives the configuration.

Results:
1. `Configuration.printable_document`: every line of a canonical document can be printed.
2. `Configuration.valid_document`: a canonical document keeps to the conditions of the readers.
3. `Document.ofTokens_canonicalText`: what is read of the canonical text is the configuration.
-/

namespace ScrapeConfig

open Syntax (Series OptionItem MetricItem MetricBlock ResourceItem ServiceItem ServiceSection Section
  spaced asWords itemsOf printable_spaced allPrintable_map)
open Outline (AllPrintable)

/-! ## Printing -/

theorem printable_mark {k : TokenKind} (h : k ∈ TokenKind.keywords) : (Word.mark k).Printable := h

theorem printable_asWords {o : Option String} (h : ∀ name ∈ o, Quotable name) :
    ∀ w ∈ asWords o, w.Printable := by
  cases o with
  | none => exact List.forall_mem_nil _
  | some name => exact List.forall_mem_cons.mpr ⟨printable_mark (by decide),
      List.forall_mem_singleton.mpr (h name rfl)⟩

theorem Options.Expressible.printable_settings {m : Options} (h : m.Expressible) :
    ∀ o ∈ m.settings, o.outline.Printable := by
  intro o ho
  obtain ⟨⟨k, v⟩, hmem, rfl⟩ := List.mem_map.mp ho
  obtain ⟨hk, text, hv, htext⟩ := h.entries _ hmem
  obtain rfl : v = .string text := hv
  refine ⟨printable_spaced (printable_mark (by decide)) ?_, trivial⟩
  simpa using ⟨hk, printable_mark (by decide), htext⟩

theorem Decoder.Expressible.printable_extract {d : Decoder} (h : d.Expressible) :
    d.extract.outline.Printable := by
  refine ⟨printable_spaced (printable_mark (by decide)) (List.forall_mem_singleton.mpr h.mode), ?_⟩
  rw [Decoder.extract, itemsOf_ofList?]
  exact allPrintable_map.mpr h.options.printable_settings

theorem Metric.Expressible.printable_block {m : Metric} (h : m.Expressible) :
    m.block.outline.Printable := by
  refine ⟨printable_spaced (printable_mark (by decide)) (List.forall_mem_nil _), ?_⟩
  refine allPrintable_map.mpr ?_
  have line : ∀ {k w}, k ∈ TokenKind.keywords → Word.Printable w →
      (Outline.node (spaced (.mark k) [w]) []).Printable := fun hk hw =>
    ⟨printable_spaced hk (List.forall_mem_singleton.mpr hw), trivial⟩
  refine List.forall_mem_cons.mpr ⟨line (by decide) h.name, List.forall_mem_cons.mpr
    ⟨line (by decide) ?_, List.forall_mem_cons.mpr ⟨line (by decide) h.description, ?_⟩⟩⟩
  · cases m.type <;> exact printable_mark (by decide)
  refine List.forall_mem_append.mpr ⟨?_, List.forall_mem_append.mpr ⟨?_, ?_⟩⟩
  · intro x hx
    obtain ⟨names, hnames, rfl⟩ := List.mem_map.mp hx
    have labels := h.labels
    cases hl : m.labels with
    | nil => simp [hl, Series.ofList?] at hnames
    | cons l ls =>
      rw [hl] at hnames labels
      obtain rfl := Option.some.inj (Option.mem_toList.mp hnames)
      obtain ⟨hl, hls⟩ := List.forall_mem_cons.mp labels
      exact ⟨⟨printable_mark (by decide),
        List.forall_mem_cons.mpr ⟨hl, List.forall_mem_map.mpr hls⟩⟩, trivial⟩
  · intro x hx
    obtain ⟨p, hp, rfl⟩ := List.mem_map.mp hx
    exact line (by decide) (h.path p (Option.mem_toList.mp hp))
  · intro x hx
    obtain ⟨o, ho, rfl⟩ := List.mem_map.mp hx
    exact h.options.printable_settings o ho

section

variable {use : Auth → String} (quotable : ∀ a, Quotable (use a))

include quotable

theorem printable_use (o : Option Auth) : ∀ w ∈ asWords (o.map use), w.Printable :=
  printable_asWords fun name hname => by
    obtain ⟨a, _, rfl⟩ := Option.map_eq_some_iff.mp hname
    exact quotable a

theorem Resource.Expressible.printable_toSection {r : Resource} (h : r.Expressible) :
    (r.toSection use).outline.Printable := by
  have method : Syntax.methodKeyword r.method ∈ TokenKind.keywords := by cases r.method <;> decide
  refine ⟨printable_spaced (printable_mark method)
    (List.forall_mem_cons.mpr ⟨h.uri, printable_use quotable r.auth⟩), ?_⟩
  rw [Resource.toSection, itemsOf_ofList?]
  refine allPrintable_map.mpr ?_
  refine List.forall_mem_append.mpr ⟨?_, List.forall_mem_append.mpr ⟨?_, ?_⟩⟩ <;> intro x hx
  · obtain ⟨o, ho, rfl⟩ := List.mem_map.mp hx
    exact h.options.printable_settings o ho
  · obtain ⟨d, hd, rfl⟩ := List.mem_map.mp hx
    exact (h.decoder d (Option.mem_toList.mp hd)).printable_extract
  · obtain ⟨m, hm, rfl⟩ := List.mem_map.mp hx
    exact (h.metrics m hm).printable_block

theorem Service.Expressible.printable_toSection {s : Service} (h : s.Expressible) :
    (s.toSection use).outline.Printable := by
  constructor
  · refine ⟨printable_mark (by decide), List.forall_mem_cons.mpr ⟨h.name, ?_⟩⟩
    exact List.forall_mem_map.mpr (printable_use quotable s.auth)
  rw [Service.toSection, itemsOf_ofList?]
  refine allPrintable_map.mpr ?_
  refine List.forall_mem_append.mpr ⟨?_, List.forall_mem_append.mpr
    ⟨?_, List.forall_mem_append.mpr ⟨?_, ?_⟩⟩⟩ <;> intro x hx
  · obtain ⟨o, ho, rfl⟩ := List.mem_map.mp hx
    rcases List.mem_append.mp ho with ho | ho
    · have mode : Quotable s.mode.name := by cases s.mode <;> decide
      have field : ∀ {k v}, Quotable k → Quotable v →
          (OptionItem.set ⟨k, v⟩).outline.Printable := fun hk hv =>
        ⟨printable_spaced (printable_mark (by decide))
          (List.forall_mem_cons.mpr ⟨hk, List.forall_mem_cons.mpr
            ⟨printable_mark (by decide), List.forall_mem_singleton.mpr hv⟩⟩), trivial⟩
      rcases List.mem_cons.mp ho with rfl | ho
      · exact field (by decide) mode
      · obtain rfl := List.mem_singleton.mp ho
        exact field (by decide) h.location
    · exact h.options.printable_settings o ho
  · obtain ⟨d, hd, rfl⟩ := List.mem_map.mp hx
    exact (h.decoder d (Option.mem_toList.mp hd)).printable_extract
  · obtain ⟨m, hm, rfl⟩ := List.mem_map.mp hx
    exact (h.metrics m hm).printable_block
  · obtain ⟨r, hr, rfl⟩ := List.mem_map.mp hx
    exact (h.resources r hr).printable_toSection quotable

theorem Service.Expressible.printable_topSection {s : Service} (h : s.Expressible) :
    (s.topSection use).outline.Printable := by
  have service := h.printable_toSection quotable
  rw [Service.topSection]
  cases hs : s.stack with
  | none => exact service
  | some stack =>
    refine ⟨printable_spaced (printable_mark (by decide))
      (List.forall_mem_singleton.mpr (h.stack stack hs)), ?_⟩
    exact allPrintable_map.mpr (List.forall_mem_singleton.mpr service)

end

theorem Auth.Expressible.printable_toSection {a : Auth} (h : a.Expressible) {name : String}
    (hname : Quotable name) : (a.toSection name).outline.Printable := by
  refine ⟨printable_spaced (printable_mark (by decide)) (List.forall_mem_cons.mpr ⟨h.scheme,
    List.forall_mem_cons.mpr ⟨printable_mark (by decide), List.forall_mem_singleton.mpr hname⟩⟩), ?_⟩
  rw [Auth.toSection, itemsOf_ofList?]
  exact allPrintable_map.mpr h.options.printable_settings

namespace Configuration

variable {c : Configuration} (fresh : FreshNames)

theorem printable_document (h : c.Expressible) :
    AllPrintable ((c.sections fresh).map Section.outline) := by
  refine allPrintable_map.mpr ?_
  refine List.forall_mem_append.mpr ⟨?_, List.forall_mem_append.mpr ⟨?_, ?_⟩⟩
  · have dataset : (Section.dataset).outline.Printable :=
      ⟨printable_spaced (printable_mark (by decide)) (List.forall_mem_nil _), trivial⟩
    cases c.dataset
    · exact List.forall_mem_nil _
    · exact List.forall_mem_singleton.mpr dataset
  · intro x hx
    obtain ⟨a, ha, rfl⟩ := List.mem_map.mp hx
    exact (h.auth ha).printable_toSection (fresh.quotable _)
  · intro x hx
    obtain ⟨s, hs, rfl⟩ := List.mem_map.mp hx
    exact (h s hs).printable_topSection fun a => fresh.quotable _

end Configuration

/-! ## Conditions -/

open Document (Known ServiceValid SectionValid)

theorem flatMap_nothing {α β : Type} (xs : List α) : xs.flatMap (fun _ => ([] : List β)) = [] :=
  List.flatMap_eq_nil_iff.mpr fun _ _ => rfl

theorem Service.uses_toSection (use : Auth → String) (s : Service) :
    (s.toSection use).uses = s.auths.map use := by
  rw [ServiceSection.uses, toSection, itemsOf_ofList?, items, auths]
  simp [List.flatMap_map, List.map_flatMap, ServiceItem.uses, Resource.toSection, Option.toList_map,
    flatMap_nothing]

theorem Resource.complete_toSection (use : Auth → String) (r : Resource) :
    ∀ m ∈ (r.toSection use).metrics, MetricBlock.Complete m := by
  rw [Syntax.ResourceSection.metrics, toSection, itemsOf_ofList?, items]
  simp only [List.flatMap_append, List.flatMap_map, List.forall_mem_append,
    List.forall_mem_flatMap, ResourceItem.metrics, List.forall_mem_singleton]
  exact ⟨fun _ _ => List.forall_mem_nil _, fun _ _ => List.forall_mem_nil _,
    fun m _ => m.complete_block⟩

theorem Service.complete_toSection (use : Auth → String) (s : Service) :
    ∀ m ∈ (s.toSection use).metrics, MetricBlock.Complete m := by
  rw [ServiceSection.metrics, toSection, itemsOf_ofList?, items]
  simp only [List.flatMap_append, List.flatMap_map, List.forall_mem_append,
    List.forall_mem_flatMap, ServiceItem.metrics, List.forall_mem_singleton]
  exact ⟨⟨fun _ _ => List.forall_mem_nil _, fun _ _ => List.forall_mem_nil _⟩,
    fun _ _ => List.forall_mem_nil _, fun m _ => m.complete_block, fun r _ => r.complete_toSection use⟩

theorem Service.Expressible.valid_toSection {use : Auth → String} {auths : Document.Auths}
    {s : Service} (h : s.Expressible) (hd : Defined use auths s.auths) :
    ServiceValid {} auths (s.toSection use) where
  known := by
    rw [uses_toSection]
    refine List.forall_mem_map.mpr fun a ha => ?_
    rw [hd a ha]
    rfl
  complete := complete_toSection use s
  fits := h.fits use

theorem Service.Expressible.valid_topSection {use : Auth → String} {d : Document.Draft}
    {s : Service} (h : s.Expressible) (hd : Defined use d.auths s.auths) :
    SectionValid {} d (s.topSection use) := by
  have valid := h.valid_toSection hd
  rw [topSection]
  cases s.stack with
  | none => exact valid
  | some stack => exact ⟨valid, trivial⟩

theorem okLines_topSections {use : Auth → String} {ss : List Service} {d : Document.Draft}
    (h : ∀ s ∈ ss, s.Expressible) (hd : ∀ s ∈ ss, Defined use d.auths s.auths) :
    OkLines (SectionValid {}) (Section.apply {}) d (ss.map (Service.topSection use)) := by
  induction ss generalizing d with
  | nil => trivial
  | cons s ss ih =>
    obtain ⟨hs, hss⟩ := List.forall_mem_cons.mp h
    obtain ⟨ds, dss⟩ := List.forall_mem_cons.mp hd
    refine ⟨hs.valid_topSection ds, ?_⟩
    rw [hs.apply_topSection ds]
    exact ih hss dss

theorem okLines_authSections {use : Auth → String} (as : List Auth) (d : Document.Draft) :
    OkLines (SectionValid {}) (Section.apply {}) d
      (as.map fun a => Section.auth (a.toSection (use a))) := by
  induction as generalizing d with
  | nil => trivial
  | cons a as ih => exact ⟨trivial, ih _⟩

namespace Configuration

variable {c : Configuration} (fresh : FreshNames)

/-- A canonical document keeps to the conditions of the readers. -/
theorem valid_document (h : c.Expressible) :
    OkLines (SectionValid {}) (Section.apply {}) {} (c.document fresh).sections := by
  have dataset : OkLines (SectionValid {}) (Section.apply {}) {}
      (if c.dataset then [.dataset] else []) := by
    cases c.dataset
    · trivial
    · exact ⟨trivial, trivial⟩
  have nothing : ((if c.dataset then [.dataset] else []).foldl (Section.apply {})
      ({} : Document.Draft)).auths = [] := by
    cases c.dataset <;> rfl
  rw [document, Syntax.Document.sections_ofSections, sections]
  refine okLines_append.mpr ⟨dataset, okLines_append.mpr ⟨okLines_authSections _ _, ?_⟩⟩
  refine okLines_topSections h fun s hs => ?_
  rw [foldl_authSections fun a ha => h.auth ha, nothing, List.append_nil]
  exact c.defined_service fresh hs

/-- The canonical text of a configuration, with `k` spaces for every level. -/
def text (fresh : FreshNames) (k : Nat) (c : Configuration) : String :=
  Outline.text k ((c.sections fresh).map Section.outline)

end Configuration

/-! ## The canonical text -/

namespace Document

/-- The canonical text of a configuration that documents can express is cut into tokens without an
error, and what is read of the tokens is the configuration. -/
theorem ofTokens_canonicalText {c : Configuration} (h : c.Expressible) (fresh : FreshNames) {k : Nat}
    (hk : 1 ≤ k) (threaded : Bool) :
    ∃ tokens, tokenize threaded {} (c.text fresh k) = .ok tokens ∧ ofTokens tokens = .ok c := by
  obtain ⟨tokens, cut, words⟩ := exists_tokens hk (c.printable_document fresh h) threaded {}
  have parsed := parsed_of_words (x := c.document fresh) cut words
    (valid_iff.mp (c.valid_document fresh h))
  rw [c.configuration_document fresh h] at parsed
  exact ⟨tokens, cut, parsed⟩

/-- A configuration with an auth, a stack and a metric. -/
def sampleConfiguration : Configuration where
  dataset := true
  services := [{
    name := "api"
    stack := some "web"
    auth := some ⟨"basic", .entry "user" (.string "reader") .empty⟩
    resources := [{
      uri := "/stats"
      metrics := [{ name := "hits", type := .counter, labels := ["code"], path := some "$.n" }] }] }]

theorem ofTokens_sampleText : ∃ tokens,
    tokenize false {} (sampleConfiguration.text .numbered 2) = .ok tokens ∧
      ofTokens tokens = .ok sampleConfiguration := by
  have nothing : Options.Expressible .empty := ⟨trivial, List.forall_mem_nil _⟩
  have user : Options.Expressible (.entry "user" (.string "reader") .empty) :=
    ⟨⟨List.forall_mem_nil _, trivial⟩,
      List.forall_mem_singleton.mpr ⟨by decide, "reader", rfl, by decide⟩⟩
  have hits : Metric.Expressible
      { name := "hits", type := .counter, labels := ["code"], path := some "$.n" } :=
    ⟨by decide, by decide, by decide, by decide, nothing⟩
  have stats : ∀ r ∈ sampleConfiguration.services.flatMap (·.resources), r.Expressible :=
    List.forall_mem_singleton.mpr
      ⟨by decide, nofun, nofun, List.forall_mem_singleton.mpr hits, nothing⟩
  have auth : Auth.Expressible ⟨"basic", .entry "user" (.string "reader") .empty⟩ :=
    ⟨by decide, user⟩
  have expressible : sampleConfiguration.Expressible := List.forall_mem_singleton.mpr
    { name := by decide
      stack := by decide
      location := by decide
      auth := fun a ha => Option.some.inj ha ▸ auth
      decoder := nofun
      resources := fun r hr => stats r (List.mem_flatMap.mpr ⟨_, List.mem_singleton_self _, hr⟩)
      metrics := List.forall_mem_nil _
      options := nothing
      noMode := rfl
      noLocation := rfl }
  exact ofTokens_canonicalText expressible .numbered (by decide) false

end Document

end ScrapeConfig
