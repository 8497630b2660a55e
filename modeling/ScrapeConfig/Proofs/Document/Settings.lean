import ScrapeConfig.Proofs.Document.Drafts
import ScrapeConfig.Proofs.Document.Predictive
import ScrapeConfig.Proofs.Document.Printing

/-!
# Options of services

What a service section sets for its service stands in its own `SET` lines and `WITH_OPTIONS` blocks,
in between its other items. The last setting of a key counts, then the default of the context. Mode
and location are fields of the service and no longer options of it.

Results:
1. `Setting.get?_foldl`: the last setting of a key counts.
2. `ServiceSection.get?_merged`: what the options of a section are merged to.
3. `Document.settle_eq_error`: options that do not fit are reported where the section begins.
4. `Document.service_settings`: the options of the services of a section, and the sections that can
   not be read because of them.
-/

namespace ScrapeConfig

open Options (clone_of_ordered)

namespace Document

variable {context : Context}

/-! ## Options that have been read -/

theorem ordered_merged (context : Context) (m : Options) : (context.merged m).Ordered := by
  have empty : Options.Ordered .empty := trivial
  exact (empty.overlay context.options).overlay m

theorem ordered_settled (context : Context) (service : Service) (m : Options) :
    (settled context service m).options.Ordered :=
  ((ordered_merged context m).erase "mode").erase "location"

theorem get?_settled (context : Context) (service : Service) (m : Options) (key : String) :
    (settled context service m).options.get? key =
      if key = "mode" ∨ key = "location" then none else (context.merged m).get? key := by
  show (((context.merged m).erase "mode").erase "location").get? key = _
  have ordered := ordered_merged context m
  by_cases location : key = "location"
  · rw [if_pos (.inr location), location, (ordered.erase "mode").get?_erase]
  by_cases mode : key = "mode"
  · rw [if_pos (.inl mode), Options.get?_erase_of_ne location, mode, ordered.get?_erase]
  · rw [if_neg (not_or.mpr ⟨mode, location⟩), Options.get?_erase_of_ne location,
      Options.get?_erase_of_ne mode]

theorem mode_settled {m : Options} (service : Service) (fit : (context.merged m).Fit) :
    ((context.merged m).get? "mode" = none ∧ (settled context service m).mode = .restApi) ∨
      (context.merged m).get? "mode" = some (.string (settled context service m).mode.name) := by
  have value : (settled context service m).mode =
      ((context.merged m).text? "mode").elim .restApi ServiceMode.named := rfl
  rw [value, Options.text?]
  cases found : (context.merged m).get? "mode" with
  | none => exact .inl ⟨rfl, rfl⟩
  | some v =>
    obtain ⟨mode, rfl⟩ := fit.mode v found
    refine .inr (congrArg (some <| OptionValue.string <| ServiceMode.name ·) ?_)
    cases mode <;> rfl

theorem location_settled {m : Options} (service : Service) (fit : (context.merged m).Fit) :
    ((context.merged m).get? "location" = none ∧ (settled context service m).location = "") ∨
      (context.merged m).get? "location" = some (.string (settled context service m).location) := by
  have value : (settled context service m).location =
      ((context.merged m).text? "location").getD "" := rfl
  rw [value, Options.text?]
  cases found : (context.merged m).get? "location" with
  | none => exact .inl ⟨rfl, rfl⟩
  | some v =>
    obtain ⟨text, rfl⟩ := fit.location v found
    exact .inr rfl

/-! ## Options that do not fit -/

variable {m : Options} {span : Span} {fault : ReadFault}

theorem takeString_eq_error {key : String} (h : takeString m key span = .error fault) :
    ∃ e, fault = storeFault span e := by
  rw [takeString] at h
  split at h
  · cases h
  · cases h
  · next e _ _ => exact ⟨e, (Except.error.inj h).symm⟩

/-- The options are reported at `span`. -/
def Refuses (span : Span) (fault : ReadFault) : Prop :=
  ∃ problem : Problem, fault = .error (.atSpan problem span) ∧ problem.kind = .invalidValue

theorem takeMode_eq_error (h : takeMode m span = .error fault) : Refuses span fault := by
  rw [takeMode_eq] at h
  split at h
  · next text =>
    obtain rfl := Except.error.inj h
    obtain ⟨e, rfl⟩ := takeString_eq_error text
    exact ⟨.unreadableOption e, rfl, rfl⟩
  · cases h
  · split at h
    · cases h
    · next message _ => exact ⟨.unknownMode message, (Except.error.inj h).symm, rfl⟩

theorem settle_eq_error {service : Service} (h : settle context service m span = .error fault) :
    Refuses span fault := by
  rw [settle, OptionStore.merge_eq_ok] at h
  change (takeMode (context.merged m) span >>= _) = _ at h
  -- The mode is taken first, and the location from what it leaves.
  cases mode : takeMode (context.merged m) span with
  | error e =>
    rw [mode] at h
    obtain rfl := Except.error.inj h
    exact takeMode_eq_error mode
  | ok taken =>
    obtain ⟨_, rest⟩ := taken
    rw [mode] at h
    change (takeString rest "location" span >>= _) = _ at h
    cases location : takeString rest "location" span with
    | error e =>
      rw [location] at h
      obtain rfl := Except.error.inj h
      obtain ⟨e, rfl⟩ := takeString_eq_error location
      exact ⟨.unreadableOption e, rfl, rfl⟩
    | ok taken =>
      rw [location] at h
      cases h

end Document

namespace Syntax

open ScrapeConfig.Document (Auths settled ordered_settled get?_settled mode_settled location_settled)

variable {context : Context}

/-! ## Settings -/

/-- The text that the last setting of a key gives to it. -/
def Setting.last (settings : List Setting) (key : String) : Option String :=
  ((settings.filter (·.key == key)).getLast?).map (·.value)

theorem Setting.last_cons (s : Setting) (settings : List Setting) (key : String) :
    last (s :: settings) key =
      (last settings key).or (if s.key = key then some s.value else none) := by
  rw [last, last, List.filter_cons]
  by_cases same : s.key = key
  · simp [same, List.getLast?_cons]
  · simp [same]

theorem Setting.get?_foldl (settings : List Setting) (m : Options) (key : String) :
    (settings.foldl Setting.apply m).get? key =
      ((last settings key).map .string).or (m.get? key) := by
  induction settings generalizing m with
  | nil => rfl
  | cons s settings ih =>
    have set : (s.apply m).get? key = if key = s.key then some (.string s.value) else m.get? key :=
      Options.get?_insert m s.key (.string s.value) key
    rw [List.foldl_cons, ih, set, last_cons]
    by_cases same : key = s.key
    · subst same
      cases last settings s.key <;> simp
    · cases last settings key <;> simp [same, Ne.symm same]

/-- The settings of an item, in the order of the text. -/
def OptionItem.settings : OptionItem → List Setting
  | .set s => [s]
  | .group settings => settings.toList

theorem foldl_items (items : List OptionItem) (m : Options) :
    items.foldl OptionItem.apply m = (items.flatMap OptionItem.settings).foldl Setting.apply m := by
  induction items generalizing m with
  | nil => rfl
  | cons o items ih =>
    rw [List.foldl_cons, ih, List.flatMap_cons, List.foldl_append]
    cases o <;> rfl

namespace ServiceSection

/-- What the section sets for its service: nothing that it sets for a metric, a resource or a
decoder. -/
def settings (x : ServiceSection) : List Setting := x.options.flatMap OptionItem.settings

/-- What a key stands for in the section: the text that it is set to, or its default. -/
def effective (context : Context) (x : ServiceSection) (key : String) : Option OptionValue :=
  ((Setting.last x.settings key).map .string).or (context.options.get? key)

theorem get?_merged (context : Context) (x : ServiceSection) (key : String) :
    (context.merged (optionsOf x.options)).get? key = x.effective context key := by
  rw [Context.get?_merged, optionsOf, foldl_items, Setting.get?_foldl, Options.get?, Option.or_none]
  rfl

/-- The mode of the section is not the name of a mode, or its location is not a text. -/
def Misfit (context : Context) (x : ServiceSection) : Prop :=
  (∃ v, x.effective context "mode" = some v ∧ ∀ mode : ServiceMode, v ≠ .string mode.name) ∨
    ∃ v, x.effective context "location" = some v ∧ ∀ text, v ≠ .string text

theorem misfit_iff {x : ServiceSection} : x.Misfit context ↔ ¬ x.Fits context := by
  have fits : x.Fits context ↔
      (∀ v, x.effective context "mode" = some v → ∃ mode : ServiceMode, v = .string mode.name) ∧
        ∀ v, x.effective context "location" = some v → ∃ text, v = .string text := by
    rw [← get?_merged, ← get?_merged]
    exact ⟨fun ⟨mode, location⟩ => ⟨mode, location⟩, fun ⟨mode, location⟩ => ⟨mode, location⟩⟩
  rw [fits, not_and_or]
  simp only [Misfit, not_forall, not_exists, exists_prop, ne_eq]

/-- The service is as the section and the context say. -/
structure Configures (context : Context) (x : ServiceSection) (v : Service) : Prop where
  options : ∀ key, v.options.get? key =
    if key = "mode" ∨ key = "location" then none else x.effective context key
  ordered : v.options.Ordered
  mode : (x.effective context "mode" = none ∧ v.mode = .restApi) ∨
    x.effective context "mode" = some (.string v.mode.name)
  location : (x.effective context "location" = none ∧ v.location = "") ∨
    x.effective context "location" = some (.string v.location)

theorem configures_settled {x : ServiceSection} (fits : x.Fits context) (service : Service)
    (name : String) :
    x.Configures context { (settled context service (optionsOf x.options)).copied with name } := by
  have ordered := ordered_settled context service (optionsOf x.options)
  have options : (settled context service (optionsOf x.options)).copied.options =
      (settled context service (optionsOf x.options)).options := clone_of_ordered ordered
  refine ⟨fun key => ?_, options ▸ ordered, ?_, ?_⟩
  · rw [options, get?_settled, get?_merged]
  · rw [← get?_merged]
    exact mode_settled service fits
  · rw [← get?_merged]
    exact location_settled service fits

theorem configures_services {x : ServiceSection} (fits : x.Fits context) (auths : Auths)
    (stack : Option String) :
    ∀ v ∈ x.services context auths stack, x.Configures context v := by
  intro v hv
  obtain ⟨name, _, rfl⟩ := List.mem_map.mp hv
  exact configures_settled fits _ name

theorem names_services (context : Context) (auths : Auths) (stack : Option String)
    (x : ServiceSection) : (x.services context auths stack).map (·.name) = x.names.toList := by
  rw [services, List.map_map]
  exact List.map_id _

end ServiceSection

end Syntax

namespace Document

open Syntax (Place ServiceSection sameLevels itemsOf optionsOf)

variable {context : Context}

/-- A section whose items can be read. -/
structure ItemsRead (auths : Auths) (x : ServiceSection) (s : Stream) (ws : List Word) : Prop where
  shows : s.Shows (x.words ++ ws)
  lineEnd : LineEnd ws
  known : Known auths x.uses
  complete : ∀ m ∈ x.metrics, m.Complete

variable {auths : Auths} {s : Stream} {x : ServiceSection} {ws : List Word}

theorem ItemsRead.valid (h : ItemsRead auths x s ws) :
    Known auths x.auth.toList ∧ ∀ i ∈ itemsOf x.items, ServiceItemValid auths i :=
  items_valid_iff.mp ⟨h.known, h.complete⟩

theorem service_ok (h : ItemsRead auths x s ws) (fits : ¬ x.Misfit context)
    (stack : Option String) :
    ∃ t, service context auths stack s = .ok (x.services context auths stack, t) ∧ t.Shows ws := by
  rw [Syntax.ServiceSection.misfit_iff, not_not] at fits
  exact (service_reads context auths stack).complete h.shows h.lineEnd ⟨h.known, h.complete, fits⟩

theorem service_error_iff (h : ItemsRead auths x s ws) (stack : Option String) :
    x.Misfit context ↔ ∃ e, service context auths stack s = .error (.error e) ∧
      e.problem.kind = .invalidValue ∧ e.IsAt s.current := by
  constructor
  · intro misfit
    rw [Syntax.ServiceSection.misfit_iff] at misfit
    obtain ⟨known, items⟩ := h.valid
    obtain ⟨t, _, e⟩ := service_settles context stack h.shows h.lineEnd known items
    rw [e]
    cases hs : settle context _ (optionsOf x.options) s.current.span with
    | ok service => exact absurd (settle_eq_ok_iff.mp hs).1 misfit
    | error fault =>
      obtain ⟨problem, rfl, invalid⟩ := settle_eq_error hs
      exact ⟨_, rfl, invalid, ParseError.isAt_atSpan problem s.current⟩
  · rintro ⟨e, fails, _⟩
    by_contra fits
    obtain ⟨t, read, _⟩ := service_ok h fits stack
    rw [read] at fails
    cases fails

/-- What is set for the services of a section, in every document that is read and wherever the
section stands in it. A section whose items can be read is refused where it begins, if its mode or
its location does not fit, and is read otherwise. -/
theorem service_settings (context : Context) :
    (∀ {threaded source tokens c front rest}, tokenize threaded context source = .ok tokens →
      ofTokens tokens = .ok c → tokens.map Token.word = front ++ .mark .forService :: rest →
      ∃ before p, ∃ x : ServiceSection, ∃ given later,
        front = .mark .ctx :: (sameLevels before ++ Place.opening p) ∧
          .mark .forService :: rest = x.words ++ p.closing ∧
          c.services = (p.draft context).configuration.services ++ (given ++ later) ∧
          given.map (·.name) = x.names.toList ∧ ∀ v ∈ given, x.Configures context v) ∧
    ∀ {auths stack s x ws}, ItemsRead auths x s ws →
      (¬ x.Misfit context → ∃ given t, service context auths stack s = .ok (given, t) ∧
        t.Shows ws ∧ given.map (·.name) = x.names.toList ∧ ∀ v ∈ given, x.Configures context v) ∧
      (x.Misfit context ↔ ∃ e, service context auths stack s = .error (.error e) ∧
        e.problem.kind = .invalidValue ∧ e.IsAt s.current) := by
  constructor
  · intro threaded source tokens c front rest h hc words
    obtain ⟨before, p, x, later, opened, here, valid, services⟩ := exists_section h hc words
    exact ⟨before, p, x, _, later, opened, here, services, x.names_services context _ _,
      x.configures_services valid.fits _ _⟩
  · intro auths stack s x ws read
    refine ⟨fun fits => ?_, service_error_iff read stack⟩
    obtain ⟨t, e, ht⟩ := service_ok read fits stack
    rw [x.misfit_iff, not_not] at fits
    exact ⟨_, t, e, ht, x.names_services context _ _, x.configures_services fits _ _⟩

/-- A service whose mode is set twice, around a resource with an option of its own. -/
def twiceSet : ServiceSection where
  names := ⟨"a", []⟩
  auth := none
  items := some ⟨.option (.group ⟨⟨"mode", "off"⟩, [⟨"depth", "2"⟩]⟩),
    [.resource ⟨.get, "u", none, some ⟨.option (.set ⟨"depth", "9"⟩), []⟩⟩,
      .option (.set ⟨"mode", "forward_metrics"⟩)]⟩

/-- A service whose mode is no mode. -/
def switchedOff : ServiceSection := ⟨⟨"a", []⟩, none, some ⟨.option (.set ⟨"mode", "off"⟩), []⟩⟩

def switchedOffTokens : List Token :=
  [⟨.forService, .none, ⟨0, 11, 1, 1⟩⟩, ⟨.identifier, .text "a", ⟨12, 13, 1, 13⟩⟩,
    ⟨.blockOpen, .none, ⟨13, 16, 1, 14⟩⟩, ⟨.set, .none, ⟨16, 19, 2, 3⟩⟩,
    ⟨.identifier, .text "mode", ⟨20, 24, 2, 7⟩⟩, ⟨.to, .none, ⟨25, 27, 2, 12⟩⟩,
    ⟨.identifier, .text "off", ⟨28, 31, 2, 15⟩⟩, ⟨.blockClose, .none, ⟨31, 31, 2, 18⟩⟩,
    ⟨.eof, .none, ⟨31, 31, 2, 18⟩⟩]

theorem itemsRead_switchedOff :
    ItemsRead [] switchedOff (.ofList switchedOffTokens) [.mark .eof] where
  shows := by rw [Stream.Shows]; decide
  lineEnd := ⟨.eof, [], rfl, by simp⟩
  known := nofun
  complete := nofun

theorem service_settings_twice :
    let context : Context := { options := .ofList [("location", .string "http://h")] }
    (∃ tokens c, tokenize false context (Outline.text 2 [twiceSet.outline]) = .ok tokens ∧
      ofTokens tokens = .ok c ∧ ∃ before p, ∃ x : ServiceSection, ∃ given later,
        [.mark .ctx] = .mark .ctx :: (sameLevels before ++ Place.opening p) ∧
          twiceSet.words ++ [.mark .eof] = x.words ++ p.closing ∧
          c.services = (p.draft context).configuration.services ++ (given ++ later) ∧
          given.map (·.name) = x.names.toList ∧ ∀ v ∈ given, x.Configures context v) ∧
    ∃ e, service context [] none (.ofList switchedOffTokens) = .error (.error e) ∧
      e.problem.kind = .invalidValue ∧ e.IsAt ⟨.forService, .none, ⟨0, 11, 1, 1⟩⟩ := by
  intro context
  constructor
  · have printable : Outline.AllPrintable (List.map Syntax.Section.outline [.service twiceSet]) := by
      decide
    obtain ⟨tokens, h, words⟩ := exists_tokens (k := 2) (by decide) printable false context
    have fits : twiceSet.Fits context :=
      ⟨fun v hv => ⟨.forwardMetrics, (Option.some.inj hv).symm⟩,
        fun v hv => ⟨"http://h", (Option.some.inj hv).symm⟩⟩
    have valid : OkLines (SectionValid context) (Syntax.Section.apply context) {}
        [.service twiceSet] := ⟨⟨nofun, nofun, fits⟩, trivial⟩
    have read := parsed_of_words h words (valid_iff.mp valid)
    have words : tokens.map Token.word =
        [.mark .ctx] ++ .mark .forService :: (twiceSet.words.tail ++ [.mark .eof]) := words
    exact ⟨tokens, _, h, read, (service_settings context).1 h read words⟩
  · refine ((service_settings context).2 itemsRead_switchedOff).2.mp (.inl ?_)
    exact ⟨.string "off", rfl, fun mode same => by cases mode <;> exact absurd same (by decide)⟩

end Document

end ScrapeConfig
