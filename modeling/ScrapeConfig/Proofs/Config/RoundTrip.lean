import ScrapeConfig.Proofs.Config.Options
import ScrapeConfig.Proofs.Datum.JsonValue
import ScrapeConfig.Proofs.Options.Data

/-!
# Writing a configuration to JSON and reading it back

A part of the tree is written with its fields under fixed names, and a part that is absent is left out.
It is read back by these names, whatever order the JSON value keeps them in, and what is left out is
taken for absent. A number that is not finite has no JSON value but `null`, which is no option.

Results:
1. `Options.Finite`: no number in the options is NaN or infinite. Such options are their own JSON value,
   `Options.toJson_toDatum`.
2. `Auth.ofDatum?_toJson` and its like, one for each part: what is written is read back.
3. `Configuration.ofDatum?_toDatum_toJson`: the whole tree.
-/

namespace ScrapeConfig

/-! ## Options -/

mutual

/-- All numbers inside the value are finite. -/
def OptionValue.Finite : OptionValue → Prop
  | .float x => x.isFinite
  | .map m => m.Finite
  | .boolean _ | .integer _ | .string _ => True

def Options.Finite : Options → Prop
  | .empty => True
  | .entry _ v rest => v.Finite ∧ rest.Finite

end

/-- Options that JSON keeps as they are: a map as maps are built, with finite numbers. -/
structure Options.Lasting (m : Options) : Prop where
  wellFormed : m.WellFormed
  finite : m.Finite

namespace Datum

theorem setField_of_lt {fields : List (String × Datum)} {name : String} (d : Datum)
    (h : ∀ f ∈ fields, f.1 < name) : setField fields name d = fields ++ [(name, d)] := by
  induction fields with
  | nil => rfl
  | cons f fields ih =>
    obtain ⟨first, h⟩ := List.forall_mem_cons.mp h
    rw [setField, if_neg first.ne', if_neg first.asymm, ih h, List.cons_append]

end Datum

open Datum (toJson fieldsToJson itemsToJson_eq fields?_present_toJson present)

mutual

theorem OptionValue.toJson_toDatum {v : OptionValue} (wellFormed : v.WellFormed)
    (finite : v.Finite) : v.toDatum.toJson = v.toDatum := by
  match v with
  | .boolean _ | .integer _ | .string _ => rfl
  | .float x => exact if_pos finite
  | .map m =>
    have none : ∀ f ∈ ([] : List (String × Datum)), ∀ k ∈ m.keys, f.1 < k :=
      fun f hf => absurd hf List.not_mem_nil
    rw [OptionValue.toDatum, toJson, Options.fieldsToJson_toFields wellFormed finite none]
    rfl

/-- The entries of a map go behind fields with lower names. -/
theorem Options.fieldsToJson_toFields {m : Options} {done : List (String × Datum)}
    (wellFormed : m.WellFormed) (finite : m.Finite) (lower : ∀ f ∈ done, ∀ k ∈ m.keys, f.1 < k) :
    fieldsToJson done m.toFields = done ++ m.toFields := by
  match m, wellFormed, finite with
  | .empty, _, _ => exact (List.append_nil done).symm
  | .entry key v rest, ⟨first, value, behind⟩, ⟨finite, finite'⟩ =>
    have next : ∀ f ∈ done ++ [(key, v.toDatum)], ∀ k ∈ rest.keys, f.1 < k := by
      intro f hf k hk
      rcases List.mem_append.mp hf with hf | hf
      · exact lower f hf k (List.mem_cons_of_mem _ hk)
      · exact List.mem_singleton.mp hf ▸ first k hk
    rw [Options.toFields, fieldsToJson, OptionValue.toJson_toDatum value finite,
      Datum.setField_of_lt _ fun f hf => lower f hf key List.mem_cons_self,
      Options.fieldsToJson_toFields behind finite' next, List.append_assoc, List.singleton_append]

end

theorem Options.Lasting.ofDatum?_toJson {m : Options} (h : m.Lasting) :
    Options.ofDatum? m.toDatum.toJson = some m := by
  have same : m.toDatum.toJson = m.toDatum :=
    OptionValue.toJson_toDatum (v := .map m) h.wellFormed h.finite
  rw [same, Options.ofDatum?_toDatum h.wellFormed]

/-! ## Parts -/

namespace Datum

variable {α : Type} {read : Datum → Option α} {write : α → Datum}

theorem optional?_of_ne {d : Datum} (h : d ≠ .null) : optional? read d = (read d).map some := by
  cases d with
  | null => exact absurd rfl h
  | _ => rfl

/-- A part that may be absent. -/
theorem optional?_toJson {o : Option α} (h : ∀ a ∈ o, read (write a).toJson = some a)
    (absent : read .null = none) :
    orElse ((o.map write).map toJson) none (optional? read) = some o := by
  cases o with
  | none => rfl
  | some a =>
    have present : read (write a).toJson = some a := h a rfl
    have differ : (write a).toJson ≠ .null := fun null => by rw [null, absent] at present; cases present
    rw [Option.map_some, Option.map_some, orElse, optional?_of_ne differ, present]
    rfl

theorem list?_toJson {xs : List α} (h : ∀ a ∈ xs, read (write a).toJson = some a) :
    list? read (arr (xs.map write)).toJson = some xs := by
  rw [toJson, itemsToJson_eq, list?, List.map_map]
  induction xs with
  | nil => rfl
  | cons a xs ih =>
    obtain ⟨first, h⟩ := List.forall_mem_cons.mp h
    rw [List.map_cons, List.mapM_cons, Function.comp, first, ih h]
    rfl

/-- The name of an alternative tells it from the others. -/
theorem choice?_toJson {f : DataFormat} {name : α → String} {all : List α} {a : α}
    (h : all.find? (name · == name a) = some a) :
    choice? f name all (str (name a)).toJson = some a :=
  h

theorem orElse_some (d : Datum) (default : α) : orElse (some d) default read = read d := rfl

theorem str?_toJson (s : String) : str? (str s).toJson = some s := rfl

end Datum

open Datum (str?_toJson orElse_some choice?_toJson list?_toJson optional?_toJson)

variable {f : DataFormat}

theorem Auth.ofDatum?_toJson {a : Auth} (h : a.options.Lasting) :
    Auth.ofDatum? f a.toDatum.toJson = some a := by
  have fields : a.toDatum =
      .obj (present ["type", "options"] [some (.str a.scheme), some a.options.toDatum]) := rfl
  rw [fields, ofDatum?, fields?_present_toJson (by decide) rfl]
  simp only [List.map_cons, List.map_nil, Option.map_some, Option.bind_eq_bind, Option.bind_some,
    str?_toJson, orElse_some, h.ofDatum?_toJson]
  rfl

theorem Decoder.ofDatum?_toJson {d : Decoder} (h : d.options.Lasting) :
    Decoder.ofDatum? f d.toDatum.toJson = some d := by
  have fields : d.toDatum =
      .obj (present ["mode", "options"] [some (.str d.mode), some d.options.toDatum]) := rfl
  rw [fields, ofDatum?, fields?_present_toJson (by decide) rfl]
  simp only [List.map_cons, List.map_nil, Option.map_some, Option.bind_eq_bind, Option.bind_some,
    str?_toJson, orElse_some, h.ofDatum?_toJson]
  rfl

theorem MetricType.find?_name (t : MetricType) : all.find? (name · == name t) = some t := by
  cases t <;> decide

theorem HttpMethod.find?_name (m : HttpMethod) : all.find? (name · == name m) = some m := by
  cases m <;> decide

theorem ServiceMode.find?_name (m : ServiceMode) : all.find? (name · == name m) = some m := by
  cases m <;> decide

theorem Metric.ofDatum?_toJson {m : Metric} (h : m.options.Lasting) :
    Metric.ofDatum? f m.toDatum.toJson = some m := by
  have fields : m.toDatum =
      .obj (present ["name", "type", "description", "labels", "path", "options"]
        [some (.str m.name), some (.str m.type.name), some (.str m.description),
          some (.arr (m.labels.map .str)), m.path.map .str, some m.options.toDatum]) := by
    rw [toDatum]
    cases m.path <;> rfl
  have labels : Datum.list? Datum.str? (Datum.arr (m.labels.map .str)).toJson = some m.labels :=
    list?_toJson fun l _ => str?_toJson l
  have path := optional?_toJson (o := m.path) (fun p _ => str?_toJson p) rfl
  rw [fields, ofDatum?, fields?_present_toJson (by decide) rfl]
  simp only [List.map_cons, List.map_nil, Option.map_some, Option.bind_eq_bind, Option.bind_some,
    str?_toJson, orElse_some, choice?_toJson m.type.find?_name, labels, path, h.ofDatum?_toJson]
  rfl

theorem Resource.ofDatum?_toJson {r : Resource} (h : r.AllOptions Options.Lasting) :
    Resource.ofDatum? f r.toDatum.toJson = some r := by
  have fields : r.toDatum =
      .obj (present ["type", "uri", "auth", "decoder", "metrics", "options"]
        [some (.str r.method.name), some (.str r.uri), r.auth.map Auth.toDatum,
          r.decoder.map Decoder.toDatum, some (.arr (r.metrics.map Metric.toDatum)),
          some r.options.toDatum]) := by
    rw [toDatum]
    cases r.auth <;> cases r.decoder <;> rfl
  have auth := optional?_toJson (fun a ha => Auth.ofDatum?_toJson (f := f) (h.auth a ha)) rfl
  have decoder := optional?_toJson (fun d hd => Decoder.ofDatum?_toJson (f := f) (h.decoder d hd)) rfl
  have metrics := list?_toJson fun m hm => Metric.ofDatum?_toJson (f := f) (h.metrics m hm)
  rw [fields, ofDatum?, fields?_present_toJson (by decide) rfl]
  simp only [List.map_cons, List.map_nil, Option.map_some, Option.bind_eq_bind, Option.bind_some,
    str?_toJson, orElse_some, choice?_toJson r.method.find?_name, auth, decoder, metrics,
    h.options.ofDatum?_toJson]
  rfl

theorem Service.ofDatum?_toJson {s : Service} (h : s.AllOptions Options.Lasting) :
    Service.ofDatum? f s.toDatum.toJson = some s := by
  have fields : s.toDatum =
      .obj (present ["name", "mode", "stack", "location", "auth", "decoder", "resources", "metrics",
        "options"]
        [some (.str s.name), some (.str s.mode.name), s.stack.map .str, some (.str s.location),
          s.auth.map Auth.toDatum, s.decoder.map Decoder.toDatum,
          some (.arr (s.resources.map Resource.toDatum)),
          some (.arr (s.metrics.map Metric.toDatum)), some s.options.toDatum]) := by
    rw [toDatum]
    cases s.stack <;> cases s.auth <;> cases s.decoder <;> rfl
  have stack := optional?_toJson (o := s.stack) (fun t _ => str?_toJson t) rfl
  have auth := optional?_toJson (fun a ha => Auth.ofDatum?_toJson (f := f) (h.auth a ha)) rfl
  have decoder := optional?_toJson (fun d hd => Decoder.ofDatum?_toJson (f := f) (h.decoder d hd)) rfl
  have resources := list?_toJson fun r hr => Resource.ofDatum?_toJson (f := f) (h.resources r hr)
  have metrics := list?_toJson fun m hm => Metric.ofDatum?_toJson (f := f) (h.metrics m hm)
  rw [fields, ofDatum?, fields?_present_toJson (by decide) rfl]
  simp only [List.map_cons, List.map_nil, Option.map_some, Option.bind_eq_bind, Option.bind_some,
    str?_toJson, orElse_some, choice?_toJson s.mode.find?_name, stack, auth, decoder, resources,
    metrics, h.options.ofDatum?_toJson]
  rfl

/-! ## Configurations -/

namespace Configuration

/-- A configuration without NaN and infinite numbers is read back from its JSON value. -/
theorem ofDatum?_toDatum_toJson {c : Configuration} (h : c.AllOptions Options.Lasting) :
    ofDatum? .json c.toDatum.toJson = some c := by
  have fields : c.toDatum = .obj (present ["dataset", "services"]
      [some (.bool c.dataset), some (.arr (c.services.map Service.toDatum))]) := rfl
  have dataset : Datum.bool? (Datum.bool c.dataset).toJson = some c.dataset := rfl
  have services := list?_toJson fun s hs => Service.ofDatum?_toJson (f := .json) (h s hs)
  rw [fields, ofDatum?, fields?_present_toJson (by decide) rfl]
  simp only [List.map_cons, List.map_nil, Option.map_some, Option.bind_eq_bind, Option.bind_some,
    orElse_some, dataset, services]
  rfl

/-- A half, minus three and negative zero, in a map inside a map. -/
def nestedNumbers : Options :=
  .entry "limits" (.map (.entry "ratio" (.float ⟨0x3FE0000000000000⟩)
    (.entry "retries" (.integer (-3)) (.entry "zero" (.float ⟨0x8000000000000000⟩) .empty)))) .empty

/-- Some parts are absent, and others are there. -/
def sparseTree : Configuration where
  services := [{
    name := "node"
    mode := .forwardMetrics
    stack := some "main"
    auth := some ⟨"basic", nestedNumbers⟩
    resources := [{
      uri := "/health"
      decoder := some ⟨"jsonpath", .empty⟩
      metrics := [⟨"up", .gauge, "", ["host", "port"], some "$.up", nestedNumbers⟩] }] }]

theorem ofDatum?_toDatum_toJson_sparse : sparseTree.AllOptions Options.Lasting ∧
    ofDatum? .json sparseTree.toDatum.toJson = some sparseTree := by
  have half : Binary64.isFinite ⟨0x3FE0000000000000⟩ := by decide +kernel
  have zero : Binary64.isFinite ⟨0x8000000000000000⟩ := by decide +kernel
  have numbers : nestedNumbers.Lasting := ⟨by decide, ⟨half, trivial, zero, trivial⟩, trivial⟩
  have empty : Options.Lasting .empty := ⟨trivial, trivial⟩
  have lasting : sparseTree.AllOptions Options.Lasting := by
    refine List.forall_mem_singleton.mpr ⟨?_, nofun, List.forall_mem_singleton.mpr ?_, nofun, empty⟩
    · exact fun a ha => Option.some.inj ha ▸ numbers
    · refine ⟨nofun, fun d hd => Option.some.inj hd ▸ empty, ?_, empty⟩
      exact List.forall_mem_singleton.mpr numbers
  exact ⟨lasting, ofDatum?_toDatum_toJson lasting⟩

end Configuration

end ScrapeConfig
