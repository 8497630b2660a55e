import ScrapeConfig.Options.Store

/-!
# Metrics
-/

namespace ScrapeConfig

inductive MetricType where
  | counter
  | gauge
  | histogram
  | summary
  deriving DecidableEq, Repr, Inhabited

namespace MetricType

def all : List MetricType := [.counter, .gauge, .histogram, .summary]

def name : MetricType → String
  | .counter => "counter"
  | .gauge => "gauge"
  | .histogram => "histogram"
  | .summary => "summary"

/-- The type with this name, in any case of its ASCII letters. -/
def ofText (text : String) : Except String MetricType :=
  let lower := String.ofList (text.toList.map Char.toLower)
  match all.find? (·.name == lower) with
  | some t => .ok t
  | none => .error s!"unknown metric type '{lower}'"

end MetricType

/-- A metric to extract from the answer of a resource. -/
structure Metric where
  name : String
  type : MetricType
  description : String := ""
  labels : List String := []
  /-- Where the value stands in the decoded answer. -/
  path : Option String := none
  options : Options := .empty
  deriving Inhabited, DecidableEq

namespace Metric

/-- A copy whose options went through the store interface. -/
def copy (m : Metric) : Except StoreError Metric := do
  let options ← OptionStore.clone m.options
  return {
    name := m.name
    type := m.type
    description := m.description
    labels := m.labels
    path := m.path
    options }

def agrees (a b : Metric) : Bool :=
  a.name == b.name && a.type == b.type && a.description == b.description && a.labels == b.labels &&
    a.path == b.path && a.options.agrees b.options

end Metric

end ScrapeConfig
