import ScrapeConfig.Config.Resource

/-!
# Services
-/

namespace ScrapeConfig

/-- How metrics are obtained from a service: by querying its resources, or by passing on metrics
that it already exposes. -/
inductive ServiceMode where
  | restApi
  | forwardMetrics
  deriving DecidableEq, Repr, Inhabited

namespace ServiceMode

def all : List ServiceMode := [.restApi, .forwardMetrics]

def name : ServiceMode → String
  | .restApi => "rest_api"
  | .forwardMetrics => "forward_metrics"

def ofText (text : String) : Except String ServiceMode :=
  match all.find? (·.name == text) with
  | some m => .ok m
  | none => .error s!"unknown service mode '{text}'"

end ServiceMode

structure Service where
  name : String
  mode : ServiceMode := .restApi
  stack : Option String := none
  /-- The URL that the path of every resource is appended to. -/
  location : String := ""
  /-- Auth for the resources that have none of their own. -/
  auth : Option Auth := none
  decoder : Option Decoder := none
  resources : List Resource := []
  metrics : List Metric := []
  options : Options := .empty
  deriving Inhabited, DecidableEq

namespace Service

def copy (s : Service) : Except StoreError Service := do
  let auth ← s.auth.mapM Auth.copy
  let decoder ← s.decoder.mapM Decoder.copy
  let resources ← s.resources.mapM Resource.copy
  let metrics ← s.metrics.mapM Metric.copy
  let options ← OptionStore.clone s.options
  return {
    name := s.name
    mode := s.mode
    stack := s.stack
    location := s.location
    auth
    decoder
    resources
    metrics
    options }

def agrees (a b : Service) : Bool :=
  a.name == b.name && a.mode == b.mode && a.stack == b.stack && a.location == b.location &&
    agreeOption Auth.agrees a.auth b.auth && agreeOption Decoder.agrees a.decoder b.decoder &&
    agreeList Resource.agrees a.resources b.resources &&
    agreeList Metric.agrees a.metrics b.metrics &&
    a.options.agrees b.options

/-- The auth for requests to `r`. -/
def authFor (s : Service) (r : Resource) : Option Auth := r.authOr s.auth

/-- The decoder for answers of `r`. -/
def decoderFor (s : Service) (r : Resource) : Option Decoder := r.decoder <|> s.decoder

/-- A text without the slashes at its end. -/
def trimSlashes (text : String) : String :=
  String.ofList (text.toList.reverse.dropWhile (· = '/')).reverse

/-- The URL of `r` on this service. -/
def urlOf (s : Service) (r : Resource) : String := r.pathBelow (trimSlashes s.location)

/-- The metrics of the service itself, then those of its resources. -/
def allMetrics (s : Service) : List Metric := s.metrics ++ s.resources.flatMap (·.metrics)

end Service

/-- The whole tree: what a document or a file describes. -/
structure Configuration where
  /-- The document declared itself a dataset. -/
  dataset : Bool := false
  services : List Service := []
  deriving Inhabited, DecidableEq

namespace Configuration

/-- The first service of this name. -/
def service? (c : Configuration) (name : String) : Option Service :=
  c.services.find? (·.name == name)

/-- The services of `c` followed by those of `d`. -/
def extend (c d : Configuration) : Configuration :=
  ⟨c.dataset || d.dataset, c.services ++ d.services⟩

/-- All metrics of a type, in tree order. -/
def metricsOfType (c : Configuration) (t : MetricType) : List Metric :=
  (c.services.flatMap Service.allMetrics).filter (·.type == t)

def servicesOfMode (c : Configuration) (m : ServiceMode) : List Service :=
  c.services.filter (·.mode == m)

end Configuration

end ScrapeConfig
