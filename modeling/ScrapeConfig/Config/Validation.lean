import ScrapeConfig.Config.Service
import ScrapeConfig.Location.Url
import ScrapeConfig.Text.Blank

/-!
# Validation

Every problem of a configuration is an issue, and they are listed in tree order. A name of white
space alone counts as missing and is never a duplicate.
-/

namespace ScrapeConfig

/-- A problem of a resource. -/
inductive ResourceIssue where
  | relativeUri (uri : String)
  | namelessMetric (uri : String)
  deriving DecidableEq, Repr

def ResourceIssue.message : ResourceIssue → String
  | .relativeUri uri => s!"resource uri '{uri}' should start with '/'"
  | .namelessMetric uri => s!"metric without name in resource '{uri}'"

/-- A problem of a configuration; `service` names the service that it belongs to. -/
inductive Issue where
  | duplicateService (name : String)
  | namelessService
  | invalidLocation (service location reason : String)
  | missingLocation (service : String)
  | inResource (service : String) (issue : ResourceIssue)
  | namelessMetric (service : String)
  | duplicateMetric (service metric : String)
  deriving DecidableEq, Repr

def Issue.message : Issue → String
  | .duplicateService name => s!"duplicate service '{name}'"
  | .namelessService => "service without name"
  | .invalidLocation service location reason =>
    s!"service '{service}': invalid location '{location}': {reason}"
  | .missingLocation service => s!"service '{service}': forward_metrics mode requires a location"
  | .inResource service issue => s!"service '{service}': " ++ issue.message
  | .namelessMetric service => s!"service '{service}': metric without name"
  | .duplicateMetric service metric => s!"service '{service}': duplicate metric '{metric}'"

/-- The elements that occur before among those that count, each time they occur again. -/
def repeated (counts : String → Bool) : (seen : List String) → List String → List String
  | _, [] => []
  | seen, name :: rest =>
    if counts name then
      if seen.contains name then name :: repeated counts seen rest
      else repeated counts (name :: seen) rest
    else repeated counts seen rest

/-- Whether a name is more than white space. -/
def isNamed (name : String) : Bool := !Text.onlyBlanks name

namespace Resource

def issues (r : Resource) : List ResourceIssue :=
  (if r.uri.toList.head? = some '/' then [] else [.relativeUri r.uri]) ++
    (r.metrics.filter (!isNamed ·.name)).map fun _ => .namelessMetric r.uri

end Resource

namespace Service

/-- The problems with the location; `fault?` says why a text is no absolute URL. -/
def locationIssues (fault? : String → Option String) (s : Service) : List Issue :=
  if s.location ≠ "" then
    match fault? s.location with
    | some reason => [.invalidLocation s.name s.location reason]
    | none => []
  else if s.mode = .forwardMetrics then [.missingLocation s.name]
  else []

def issues (fault? : String → Option String) (s : Service) : List Issue :=
  (if isNamed s.name then [] else [.namelessService]) ++
    s.locationIssues fault? ++
    s.resources.flatMap (fun r => r.issues.map (.inResource s.name)) ++
    (s.metrics.filter (!isNamed ·.name)).map (fun _ => .namelessMetric s.name) ++
    (repeated isNamed [] (s.allMetrics.map (·.name))).map (.duplicateMetric s.name)

end Service

namespace Configuration

/-- The issues of a list of services, given the names of the services before them. -/
def issuesOf (fault? : String → Option String) : (seen : List String) → List Service → List Issue
  | _, [] => []
  | seen, s :: rest =>
    let duplicate := isNamed s.name && seen.contains s.name
    (if duplicate then [.duplicateService s.name] else []) ++ s.issues fault? ++
      issuesOf fault? (if isNamed s.name then s.name :: seen else seen) rest

def issues (fault? : String → Option String) (c : Configuration) : List Issue :=
  issuesOf fault? [] c.services

end Configuration

/-- Why a text is no absolute URL, as text. -/
def Location.reason? (text : String) : Option String :=
  (Location.fault? text).map (·.message)

/-- Why a configuration can not be used. -/
inductive ConfigError where
  | read (path reason : String)
  | parse (reason : String)
  | invalidValue (field value reason : String)
  | validation (issues : List String)
  deriving DecidableEq, Repr

def ConfigError.message : ConfigError → String
  | .read path reason => s!"Can not read config file {path}: {reason}"
  | .parse reason => s!"Can not decode the config data: {reason}"
  | .invalidValue field value reason => s!"Invalid value for {field}: {value} - {reason}"
  | .validation issues => "Config validation failed: " ++ "; ".intercalate issues

/-- Why work on a configuration tree fails. -/
inductive TreeError where
  | store (e : StoreError)
  | config (e : ConfigError)
  deriving DecidableEq, Repr

def TreeError.message : TreeError → String
  | .store e => "Store error: " ++ e.message
  | .config e => "Config error: " ++ e.message

/-- Fails with the list of all issues if there are any; `fault?` says why a text is no absolute
URL. -/
def Configuration.validate (c : Configuration)
    (fault? : String → Option String := Location.reason?) : Except ConfigError Unit :=
  match c.issues fault? with
  | [] => .ok ()
  | issues => .error (.validation (issues.map (·.message)))

end ScrapeConfig
