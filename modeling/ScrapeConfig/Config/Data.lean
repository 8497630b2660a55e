import ScrapeConfig.Config.Service
import ScrapeConfig.Options.Printer

/-!
# The configuration tree as data

`toDatum` writes each part of the tree as an object of its fields; a part that is absent leaves its
field out. `ofDatum?` reads such data back. It ignores fields that it does not know, fills in fields
that are missing and have a default, takes an array for an object with its fields in order, and
refuses a field that occurs twice.
-/

namespace ScrapeConfig

/-- What differs between the texts that data comes from. -/
structure DataFormat where
  /-- What may stand under the name of an alternative that is written as an object. -/
  isUnit : Datum → Bool
  /-- An array with more items than there are fields is refused. -/
  exactArrays : Bool

namespace DataFormat

def json : DataFormat where
  isUnit
    | .null => true
    | _ => false
  exactArrays := true

def toml : DataFormat where
  isUnit
    | .arr [] => true
    | .obj [] => true
    | _ => false
  exactArrays := false

end DataFormat

namespace Datum

def bool? : Datum → Option Bool
  | .bool b => some b
  | _ => none

def str? : Datum → Option String
  | .str s => some s
  | _ => none

/-- Reads every item of an array. -/
def list? {α : Type} (read : Datum → Option α) : Datum → Option (List α)
  | .arr items => items.mapM read
  | _ => none

/-- Reads `null` as absence. -/
def optional? {α : Type} (read : Datum → Option α) : Datum → Option (Option α)
  | .null => some none
  | d => (read d).map some

/-- Reads the name of an alternative. -/
def choice? {α : Type} (f : DataFormat) (name : α → String) (all : List α) : Datum → Option α
  | .str s => all.find? (name · == s)
  | .obj [(s, d)] => if f.isUnit d then all.find? (name · == s) else none
  | _ => none

/-- The values of the named fields, in the order of the names. -/
def fields? (f : DataFormat) (names : List String) : Datum → Option (List (Option Datum))
  | .obj fields =>
    if names.all fun n => (fields.filter (·.1 == n)).length ≤ 1 then
      some (names.map fun n => (fields.find? (·.1 == n)).map (·.2))
    else none
  | .arr items =>
    if f.exactArrays && names.length < items.length then none
    else some ((List.range names.length).map (items[·]?))
  | _ => none

/-- Reads a field, or takes the default if it is missing. -/
def orElse {α : Type} (d : Option Datum) (default : α) (read : Datum → Option α) : Option α :=
  match d with
  | none => some default
  | some d => read d

end Datum

mutual

/-- A datum as an option value. A whole number outside of 64 bits becomes a floating point one; of
two entries with the same key the later one counts. -/
def OptionValue.ofDatum? : Datum → Option OptionValue
  | .null => none
  | .bool b => some (.boolean b)
  | .int i =>
    if Int64.minValue.toInt ≤ i ∧ i ≤ Int64.maxValue.toInt then some (.integer (Int64.ofInt i))
    else some (.float (.ofInt i))
  | .float x => some (.float x)
  | .str s => some (.string s)
  | .arr _ => none
  | .unreadable => none
  | .obj fields => (Options.ofFields? fields .empty).map .map

/-- Adds entries to a map of options. -/
def Options.ofFields? : List (String × Datum) → Options → Option Options
  | [], m => some m
  | (k, d) :: rest, m => match OptionValue.ofDatum? d with
    | some v => Options.ofFields? rest (m.insert k v)
    | none => none

end

def Options.ofDatum? : Datum → Option Options
  | .obj fields => Options.ofFields? fields .empty
  | _ => none

/-- The field of a part that may be absent. -/
def fieldIfPresent {α : Type} (name : String) (write : α → Datum) : Option α → List (String × Datum)
  | none => []
  | some a => [(name, write a)]

namespace Auth

def toDatum (a : Auth) : Datum :=
  .obj [("type", .str a.scheme), ("options", a.options.toDatum)]

def ofDatum? (f : DataFormat) (d : Datum) : Option Auth := do
  let [type, options] ← d.fields? f ["type", "options"] | none
  return {
    scheme := ← (← type).str?
    options := ← Datum.orElse options .empty Options.ofDatum? }

end Auth

namespace Decoder

def toDatum (a : Decoder) : Datum :=
  .obj [("mode", .str a.mode), ("options", a.options.toDatum)]

def ofDatum? (f : DataFormat) (d : Datum) : Option Decoder := do
  let [mode, options] ← d.fields? f ["mode", "options"] | none
  return {
    mode := ← (← mode).str?
    options := ← Datum.orElse options .empty Options.ofDatum? }

end Decoder

namespace Metric

def toDatum (m : Metric) : Datum :=
  .obj ([("name", .str m.name), ("type", .str m.type.name), ("description", .str m.description),
    ("labels", .arr (m.labels.map .str))] ++ fieldIfPresent "path" .str m.path ++
    [("options", m.options.toDatum)])

def ofDatum? (f : DataFormat) (d : Datum) : Option Metric := do
  let [name, type, description, labels, path, options] ←
    d.fields? f ["name", "type", "description", "labels", "path", "options"] | none
  return {
    name := ← (← name).str?
    type := ← (← type).choice? f MetricType.name MetricType.all
    description := ← Datum.orElse description "" Datum.str?
    labels := ← Datum.orElse labels [] (Datum.list? Datum.str?)
    path := ← Datum.orElse path none (Datum.optional? Datum.str?)
    options := ← Datum.orElse options .empty Options.ofDatum? }

end Metric

namespace Resource

def toDatum (r : Resource) : Datum :=
  .obj ([("type", .str r.method.name), ("uri", .str r.uri)] ++
    fieldIfPresent "auth" Auth.toDatum r.auth ++
    fieldIfPresent "decoder" Decoder.toDatum r.decoder ++
    [("metrics", .arr (r.metrics.map Metric.toDatum)), ("options", r.options.toDatum)])

def ofDatum? (f : DataFormat) (d : Datum) : Option Resource := do
  let [type, uri, auth, decoder, metrics, options] ←
    d.fields? f ["type", "uri", "auth", "decoder", "metrics", "options"] | none
  return {
    method := ← Datum.orElse type .get (Datum.choice? f HttpMethod.name HttpMethod.all)
    uri := ← (← uri).str?
    auth := ← Datum.orElse auth none (Datum.optional? (Auth.ofDatum? f))
    decoder := ← Datum.orElse decoder none (Datum.optional? (Decoder.ofDatum? f))
    metrics := ← Datum.orElse metrics [] (Datum.list? (Metric.ofDatum? f))
    options := ← Datum.orElse options .empty Options.ofDatum? }

end Resource

namespace Service

def toDatum (s : Service) : Datum :=
  .obj ([("name", .str s.name), ("mode", .str s.mode.name)] ++
    fieldIfPresent "stack" .str s.stack ++
    [("location", .str s.location)] ++ fieldIfPresent "auth" Auth.toDatum s.auth ++
    fieldIfPresent "decoder" Decoder.toDatum s.decoder ++
    [("resources", .arr (s.resources.map Resource.toDatum)),
      ("metrics", .arr (s.metrics.map Metric.toDatum)), ("options", s.options.toDatum)])

def ofDatum? (f : DataFormat) (d : Datum) : Option Service := do
  let [name, mode, stack, location, auth, decoder, resources, metrics, options] ←
    d.fields? f ["name", "mode", "stack", "location", "auth", "decoder", "resources", "metrics",
      "options"] | none
  return {
    name := ← (← name).str?
    mode := ← Datum.orElse mode .restApi (Datum.choice? f ServiceMode.name ServiceMode.all)
    stack := ← Datum.orElse stack none (Datum.optional? Datum.str?)
    location := ← Datum.orElse location "" Datum.str?
    auth := ← Datum.orElse auth none (Datum.optional? (Auth.ofDatum? f))
    decoder := ← Datum.orElse decoder none (Datum.optional? (Decoder.ofDatum? f))
    resources := ← Datum.orElse resources [] (Datum.list? (Resource.ofDatum? f))
    metrics := ← Datum.orElse metrics [] (Datum.list? (Metric.ofDatum? f))
    options := ← Datum.orElse options .empty Options.ofDatum? }

end Service

namespace Configuration

def toDatum (c : Configuration) : Datum :=
  .obj [("dataset", .bool c.dataset), ("services", .arr (c.services.map Service.toDatum))]

def ofDatum? (f : DataFormat) (d : Datum) : Option Configuration := do
  let [dataset, services] ← d.fields? f ["dataset", "services"] | none
  return {
    dataset := ← Datum.orElse dataset false Datum.bool?
    services := ← Datum.orElse services [] (Datum.list? (Service.ofDatum? f)) }

end Configuration

end ScrapeConfig
