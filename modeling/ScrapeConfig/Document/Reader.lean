import ScrapeConfig.Config.Service
import ScrapeConfig.Document.Stream

/-!
# Reading documents

The grammar of documents, where `block(x)` stands for `BLOCK_OPEN x (SAME_LEVEL x)* BLOCK_CLOSE` and
`NAME` for a literal or an identifier:

* document = CTX SAME_LEVEL* [section (SAME_LEVEL+ section)*] SAME_LEVEL* EOF
* section = DATASET | auth | stack | service
* auth = DEFINE_AUTH NAME AS NAME [block(option)]
* stack = FOR_STACK NAME block(service | auth)
* service = FOR_SERVICE NAME (COMMA NAME)* [AS NAME] [block(option | metric | resource | decoder)]
* resource = (GET | POST) NAME [AS NAME] [block(option | metric | decoder)]
* decoder = EXTRACT_USING NAME [block(option)]
* metric = METRIC block(NAME NAME | TYPE type | (DESCRIPTION | HELP) NAME
    | LABELS NAME (COMMA NAME)* | FROM NAME | option)
* option = SET NAME TO NAME | WITH_OPTIONS block(SET NAME TO NAME)

A reader takes a stream and gives what it read and the stream behind it.
-/

namespace ScrapeConfig.Document

/-- Auths by the names under which they were defined, the latest definition first. -/
abbrev Auths := List (String × Auth)

def storeFault (span : Span) (e : StoreError) : ReadFault :=
  .error (.atSpan (.unreadableOption e) span)

/-- Carries an error of a store over to the place where it is reported. -/
def reporting {α : Type} (span : Span) : Except StoreError α → Except ReadFault α
  | .ok a => .ok a
  | .error e => .error (storeFault span e)

/-- Reads `SET key TO value`. -/
def setting (m : Options) (s : Stream) : Except ReadFault (Options × Stream) := do
  let (_, s) ← s.expect .set
  let (key, s) ← s.expectText "option name"
  let (_, s) ← s.expect .to
  let (value, s) ← s.expectText "option value"
  return ((OptionStore.setString m key value).2, s)

/-- Reads a line of a `WITH_OPTIONS` block. -/
def settingLine (m : Options) (s : Stream) : Except ReadFault (Options × Stream) :=
  if s.kind = .set then setting m s else .error (s.unexpected "SET")

/-- Reads a setting or a block of settings. -/
def option (m : Options) (s : Stream) : Except ReadFault (Options × Stream) :=
  match s.kind with
  | .set => setting m s
  | .withOptions => s.advance.block settingLine m
  | _ => .error (s.unexpected "SET or WITH_OPTIONS")

def decoder (s : Stream) : Except ReadFault (Decoder × Stream) := do
  let (_, s) ← s.expect .extractUsing
  let (mode, s) ← s.expectText "decoder"
  let (options, s) ← s.optionalBlock option .empty
  return (⟨mode, options⟩, s)

/-- Reads a copy of the latest auth of a name. -/
def authName (auths : Auths) (s : Stream) : Except ReadFault (Auth × Stream) := do
  let span := s.current.span
  let (name, s) ← s.expectText "auth name"
  match auths.lookup name with
  | none => .error (.error (.atSpan (.undefinedAuth name) span))
  | some auth => return (← reporting span auth.copy, s)

/-- Reads an auth behind `AS`, if there is one. -/
def asAuth (auths : Auths) (s : Stream) : Except ReadFault ((Option Auth) × Stream) :=
  if s.kind = .as then do
    let (auth, s) ← authName auths s.advance
    return (some auth, s)
  else .ok (none, s)

/-- The items of a metric block; of items of the same kind the last one counts. -/
structure MetricDraft where
  name : Option String := none
  type : Option MetricType := none
  description : String := ""
  labels : List String := []
  path : Option String := none
  options : Options := .empty

def metricType (s : Stream) : Except ReadFault (MetricType × Stream) :=
  match s.kind with
  | .counter => .ok (.counter, s.advance)
  | .gauge => .ok (.gauge, s.advance)
  | .histogram => .ok (.histogram, s.advance)
  | .summary => .ok (.summary, s.advance)
  | _ => .error (s.unexpected "COUNTER, GAUGE, HISTOGRAM or SUMMARY")

def metricItem (d : MetricDraft) (s : Stream) : Except ReadFault (MetricDraft × Stream) :=
  match s.kind with
  | .name => do
    let (name, s) ← s.advance.expectText "metric name"
    return ({ d with name := some name }, s)
  | .type => do
    let (type, s) ← metricType s.advance
    return ({ d with type := some type }, s)
  | .description | .help => do
    let (description, s) ← s.advance.expectText "description"
    return ({ d with description }, s)
  | .labels => do
    let (labels, s) ← s.advance.expectTexts "label"
    return ({ d with labels }, s)
  | .fromPath => do
    let (path, s) ← s.advance.expectText "value path"
    return ({ d with path := some path }, s)
  | .set | .withOptions => do
    let (options, s) ← option d.options s
    return ({ d with options }, s)
  | _ => .error (s.unexpected "NAME, TYPE, DESCRIPTION, HELP, LABELS, FROM or SET")

/-- The metric of a block that began at `span`. A name and a type are required. -/
def MetricDraft.finish (d : MetricDraft) (span : Span) : Except ReadFault Metric :=
  match d.name, d.type with
  | none, _ => .error (.error (.atSpan .metricWithoutName span))
  | some name, none => .error (.error (.atSpan (.metricWithoutType name) span))
  | some name, some type => .ok ⟨name, type, d.description, d.labels, d.path, d.options⟩

def metric (s : Stream) : Except ReadFault (Metric × Stream) := do
  let (span, s) ← s.expect .metric
  let (draft, s) ← s.block metricItem {}
  return (← draft.finish span, s)

def resourceItem (r : Resource) (s : Stream) : Except ReadFault (Resource × Stream) :=
  match s.kind with
  | .set | .withOptions => do
    let (options, s) ← option r.options s
    return ({ r with options }, s)
  | .metric => do
    let (m, s) ← metric s
    return ({ r with metrics := r.metrics ++ [m] }, s)
  | .extractUsing => do
    let (d, s) ← decoder s
    return ({ r with decoder := some d }, s)
  | _ => .error (s.unexpected "SET, WITH_OPTIONS, METRIC or EXTRACT_USING")

def httpMethod (s : Stream) : Except ReadFault (HttpMethod × Stream) :=
  match s.kind with
  | .get => .ok (.get, s.advance)
  | .post => .ok (.post, s.advance)
  | _ => .error (s.unexpected "GET or POST")

def resource (auths : Auths) (s : Stream) : Except ReadFault (Resource × Stream) := do
  let (method, s) ← httpMethod s
  let (uri, s) ← s.expectText "resource path"
  let (auth, s) ← asAuth auths s
  s.optionalBlock resourceItem { method, uri, auth }

/-- A line of a service block adds to the service or to the options set for it. -/
def serviceItem (auths : Auths) (a : Service × Options) (s : Stream) :
    Except ReadFault ((Service × Options) × Stream) :=
  let (service, options) := a
  match s.kind with
  | .set | .withOptions => do
    let (options, s) ← option options s
    return ((service, options), s)
  | .metric => do
    let (m, s) ← metric s
    return (({ service with metrics := service.metrics ++ [m] }, options), s)
  | .get | .post => do
    let (r, s) ← resource auths s
    return (({ service with resources := service.resources ++ [r] }, options), s)
  | .extractUsing => do
    let (d, s) ← decoder s
    return (({ service with decoder := some d }, options), s)
  | _ => .error (s.unexpected "SET, WITH_OPTIONS, METRIC, GET, POST or EXTRACT_USING")

/-- Takes a string out of a map of options. -/
def takeString (m : Options) (key : String) (span : Span) :
    Except ReadFault (Option String × Options) :=
  match OptionStore.getString m key with
  | .ok text => .ok (some text, m.erase key)
  | .error (.notFound _) => .ok (none, m)
  | .error e => .error (storeFault span e)

/-- Takes the mode of a service out of its options. -/
def takeMode (m : Options) (span : Span) : Except ReadFault (ServiceMode × Options) := do
  match ← takeString m "mode" span with
  | (none, m) => return (.restApi, m)
  | (some text, m) => match ServiceMode.ofText text with
    | .ok mode => return (mode, m)
    | .error message => .error (.error (.atSpan (.unknownMode message) span))

/-- Completes a service with the options set for it, which override the defaults of the document.
The options `mode` and `location` become fields of the service. -/
def settle (context : Context) (service : Service) (options : Options) (span : Span) :
    Except ReadFault Service := do
  let merged ← reporting span (OptionStore.merge context.options options)
  let (mode, merged) ← takeMode merged span
  let (location, merged) ← takeString merged "location" span
  return { service with mode, location := location.getD "", options := merged }

/-- Copies a service once for every name. -/
def stamp (service : Service) (span : Span) : List String → Except ReadFault (List Service)
  | [] => .ok []
  | name :: names => do
    let copy ← reporting span service.copy
    let copies ← stamp service span names
    return { copy with name } :: copies

/-- The auth of a service that names none. -/
def defaultAuth (context : Context) (span : Span) : Except ReadFault (Option Auth) :=
  reporting span (context.auth.mapM Auth.copy)

/-- Reads a service section; every name listed gets a copy of the service. -/
def service (context : Context) (auths : Auths) (stack : Option String) (s : Stream) :
    Except ReadFault ((List Service) × Stream) := do
  let (span, s) ← s.expect .forService
  let (names, s) ← s.expectTexts "service name"
  let (auth, s) ← asAuth auths s
  let auth ← match auth with
    | some auth => pure (some auth)
    | none => defaultAuth context span
  let ((service, options), s) ←
    s.optionalBlock (serviceItem auths) ({ name := "", stack, auth }, .empty)
  let service ← settle context service options span
  return (← stamp service span names, s)

/-- Reads an auth definition, which comes before the earlier ones. -/
def auth (auths : Auths) (s : Stream) : Except ReadFault (Auths × Stream) := do
  let (_, s) ← s.expect .defineAuth
  let (scheme, s) ← s.expectText "auth type"
  let (_, s) ← s.expect .as
  let (name, s) ← s.expectText "auth name"
  let (options, s) ← s.optionalBlock option .empty
  return ((name, ⟨scheme, options⟩) :: auths, s)

/-- What has been read of a document. -/
structure Draft where
  auths : Auths := []
  configuration : Configuration := {}

namespace Draft

def add (d : Draft) (services : List Service) : Draft :=
  let c := d.configuration
  { d with configuration := { c with services := c.services ++ services } }

def markDataset (d : Draft) : Draft :=
  { d with configuration := { d.configuration with dataset := true } }

end Draft

def stackItem (context : Context) (stack : String) (d : Draft) (s : Stream) :
    Except ReadFault (Draft × Stream) :=
  match s.kind with
  | .forService => do
    let (services, s) ← service context d.auths (some stack) s
    return (d.add services, s)
  | .defineAuth => do
    let (auths, s) ← auth d.auths s
    return ({ d with auths }, s)
  | _ => .error (s.unexpected "FOR_SERVICE or DEFINE_AUTH")

def stack (context : Context) (d : Draft) (s : Stream) : Except ReadFault (Draft × Stream) := do
  let (_, s) ← s.expect .forStack
  let (name, s) ← s.expectText "stack name"
  s.block (stackItem context name) d

def documentSection (context : Context) (d : Draft) (s : Stream) :
    Except ReadFault (Draft × Stream) :=
  match s.kind with
  | .dataset => .ok (d.markDataset, s.advance)
  | .defineAuth => do
    let (auths, s) ← auth d.auths s
    return ({ d with auths }, s)
  | .forStack => stack context d s
  | .forService => do
    let (services, s) ← service context d.auths none s
    return (d.add services, s)
  | _ => .error (s.unexpected "DATASET, DEFINE_AUTH, FOR_STACK or FOR_SERVICE")

/-- Reads sections, one a line, up to the end of the stream. -/
def sections (context : Context) (d : Draft) (s : Stream) : Except ReadFault Draft :=
  if s.atEnd then .ok d
  else match documentSection context d s with
    | .error e => .error e
    | .ok (d, t) =>
      if t.atEnd then .ok d
      else if t.kind = .sameLevel then
        match t.skipSameLevel with
        | .error e => .error e
        | .ok u => if u.rest.length < s.rest.length then sections context d u else .error .endless
      else .error (t.unexpected "end of line")
termination_by s.rest.length

/-- Reads the context in front of a document; a token without one stands for the empty context. -/
def context (s : Stream) : Except ReadFault (Context × Stream) :=
  if s.kind = .ctx then
    match s.current.payload with
    | .context c => .ok (c, s.advance)
    | _ => .ok ({}, s.advance)
  else .error (s.unexpected "CTX")

/-- The configuration that a list of tokens describes. A wrong dedent anywhere is reported before
anything else. -/
def ofTokens (tokens : List Token) : Except ReadFault Configuration :=
  match tokens.find? (·.kind == .badIndent) with
  | some t => .error (.error (.atSpan .badIndent t.span))
  | none => do
    let (c, s) ← context (.ofList tokens)
    let s ← s.skipSameLevel
    let d ← sections c {} s
    return d.configuration

end ScrapeConfig.Document
