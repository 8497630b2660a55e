import ScrapeConfig.Document.Reader

/-!
# Reading step by step

The readers of documents once more, as walks along a list of tokens. A walk has a position, and goes
round its loops for as long as they last, so it may never come to an end. It keeps a record of the
tokens that it looks at and of those that it takes.

Results:
1. `Cursor`, `Walk`: walks and where they stand.
2. `Walk.look`, `Walk.advance`, `Walk.loop`: the steps of which all readers are made.
3. `Walk.document`: the reader of documents.
-/

namespace ScrapeConfig

/-- A place in a list of tokens, and what was done on the way. -/
structure Cursor where
  tokens : List Token
  position : Nat := 0
  /-- The places of the tokens that were looked at. -/
  seen : List Nat := []
  /-- The places of the tokens that were taken. -/
  taken : List Nat := []

namespace Cursor

/-- The place of the current token, which behind the last token is that token. -/
def place (c : Cursor) : Nat := min c.position (c.tokens.length - 1)

def current (c : Cursor) : Token :=
  (c.tokens[c.position]? <|> c.tokens.getLast?).getD ⟨.eof, .none, {}⟩

end Cursor

/-- Moves a cursor, and gives a value or reports an error, or goes on for ever. -/
abbrev Walk := ExceptT ParseError (StateT Cursor Option)

namespace Walk

variable {α β σ : Type}

/-! ## Steps -/

/-- Looks at the current token. -/
def look : Walk Token := do
  let c ← get
  set { c with seen := c.seen ++ [c.place] }
  return c.current

def kind : Walk TokenKind := return (← look).kind

def atEnd : Walk Bool := do
  let c ← get
  if c.tokens.length ≤ c.position then return true
  else return (← kind) == .eof

/-- Takes the current token. At the end the cursor does not move. -/
def advance : Walk Unit := do
  modify fun c => { c with taken := c.taken ++ [c.place] }
  if ← atEnd then return
  else modify fun c => { c with position := c.position + 1 }

def unexpected (expected : String) : Walk α := do
  let t ← look
  throw (.atSpan (.unexpectedToken expected t.display) t.span)

/-- A computation that looks at no token. -/
def compute : Except ReadFault α → Walk α
  | .ok a => return a
  | .error (.error e) => throw e
  | .error .endless => fun _ => none

/-- Goes round, from one state to the next, as long as no turn gives a result. -/
def loop (turn : σ → Walk (σ ⊕ α)) (s : σ) : Walk α :=
  turn s >>= fun
    | .inl s => by
      apply loop
      · exact turn
      · exact s
    | .inr a => pure a
partial_fixpoint

theorem ite_bind {c : Prop} [Decidable c] (p q : Walk α) (k : α → Walk β) :
    (if c then p else q) >>= k = if c then p >>= k else q >>= k :=
  apply_ite (fun p : Walk α => p >>= k) c p q

theorem unexpected_bind (expected : String) (k : α → Walk β) :
    unexpected expected >>= k = unexpected expected := by
  rw [unexpected, unexpected, bind_assoc]
  rfl

/-! ## Tokens and blocks -/

def expect (k : TokenKind) : Walk Span := do
  if (← kind) = k then
    let t ← look
    advance
    return t.span
  else unexpected k.label

def expectText (what : String) : Walk String := do
  let k ← kind
  if k = .strLiteral ∨ k = .identifier then
    let t ← look
    advance
    return t.text?.getD ""
  else unexpected what

def moreTexts (what : String) : List String → Walk (List String) :=
  loop fun texts => do
    if (← kind) = .comma then
      advance
      let text ← expectText what
      return .inl (texts ++ [text])
    else return .inr texts

theorem moreTexts_eq (what : String) (texts : List String) : moreTexts what texts = (do
    if (← kind) = .comma then
      advance
      let text ← expectText what
      moreTexts what (texts ++ [text])
    else return texts) := by
  rw [moreTexts, loop]
  simp only [bind_assoc, ite_bind, pure_bind]

def expectTexts (what : String) : Walk (List String) := do
  let text ← expectText what
  moreTexts what [text]

def skipSameLevel : Walk Unit :=
  loop (fun _ => do
    if (← kind) = .sameLevel then
      advance
      return .inl ()
    else return .inr ()) ()

theorem skipSameLevel_eq : skipSameLevel = (do
    if (← kind) = .sameLevel then
      advance
      skipSameLevel) := by
  conv =>
    lhs
    rw [skipSameLevel, loop]
  simp only [bind_assoc, ite_bind, pure_bind]
  rfl

def blockLines (item : σ → Walk σ) : σ → Walk σ :=
  loop fun a => do
    skipSameLevel
    let k ← kind
    if k = .blockClose then
      advance
      return .inr a
    else if k = .eof then unexpected "end of block"
    else
      let a ← item a
      let k ← kind
      if k = .sameLevel ∨ k = .blockClose then return .inl a
      else unexpected "end of line"

theorem blockLines_eq (item : σ → Walk σ) (a : σ) : blockLines item a = (do
    skipSameLevel
    let k ← kind
    if k = .blockClose then
      advance
      return a
    else if k = .eof then unexpected "end of block"
    else
      let a ← item a
      let k ← kind
      if k = .sameLevel ∨ k = .blockClose then blockLines item a
      else unexpected "end of line") := by
  rw [blockLines, loop]
  simp only [bind_assoc, ite_bind, pure_bind, unexpected_bind]

def block (item : σ → Walk σ) (a : σ) : Walk σ := do
  let _ ← expect .blockOpen
  blockLines item a

def optionalBlock (item : σ → Walk σ) (a : σ) : Walk σ := do
  if (← kind) = .blockOpen then block item a else return a

/-! ## Productions -/

open Document (Auths MetricDraft Draft)

def setting (m : Options) : Walk Options := do
  let _ ← expect .set
  let key ← expectText "option name"
  let _ ← expect .to
  let value ← expectText "option value"
  return (OptionStore.setString m key value).2

def settingLine (m : Options) : Walk Options := do
  if (← kind) = .set then setting m else unexpected "SET"

def option (m : Options) : Walk Options := do
  match ← kind with
  | .set => setting m
  | .withOptions => do
    advance
    block settingLine m
  | _ => unexpected "SET or WITH_OPTIONS"

def decoder : Walk Decoder := do
  let _ ← expect .extractUsing
  let mode ← expectText "decoder"
  let options ← optionalBlock option .empty
  return ⟨mode, options⟩

def authName (auths : Auths) : Walk Auth := do
  let span := (← look).span
  let name ← expectText "auth name"
  match auths.lookup name with
  | none => throw (.atSpan (.undefinedAuth name) span)
  | some auth => compute (Document.reporting span auth.copy)

def asAuth (auths : Auths) : Walk (Option Auth) := do
  if (← kind) = .as then
    advance
    let auth ← authName auths
    return some auth
  else return none

def metricType : Walk MetricType := do
  match ← kind with
  | .counter => do
    advance
    return .counter
  | .gauge => do
    advance
    return .gauge
  | .histogram => do
    advance
    return .histogram
  | .summary => do
    advance
    return .summary
  | _ => unexpected "COUNTER, GAUGE, HISTOGRAM or SUMMARY"

def metricItem (d : MetricDraft) : Walk MetricDraft := do
  match ← kind with
  | .name => do
    advance
    let name ← expectText "metric name"
    return { d with name := some name }
  | .type => do
    advance
    let type ← metricType
    return { d with type := some type }
  | .description | .help => do
    advance
    let description ← expectText "description"
    return { d with description }
  | .labels => do
    advance
    let labels ← expectTexts "label"
    return { d with labels }
  | .fromPath => do
    advance
    let path ← expectText "value path"
    return { d with path := some path }
  | .set | .withOptions => do
    let options ← option d.options
    return { d with options }
  | _ => unexpected "NAME, TYPE, DESCRIPTION, HELP, LABELS, FROM or SET"

def metric : Walk Metric := do
  let span ← expect .metric
  let draft ← block metricItem {}
  compute (draft.finish span)

def resourceItem (r : Resource) : Walk Resource := do
  match ← kind with
  | .set | .withOptions => do
    let options ← option r.options
    return { r with options }
  | .metric => do
    let m ← metric
    return { r with metrics := r.metrics ++ [m] }
  | .extractUsing => do
    let d ← decoder
    return { r with decoder := some d }
  | _ => unexpected "SET, WITH_OPTIONS, METRIC or EXTRACT_USING"

def httpMethod : Walk HttpMethod := do
  match ← kind with
  | .get => do
    advance
    return .get
  | .post => do
    advance
    return .post
  | _ => unexpected "GET or POST"

def resource (auths : Auths) : Walk Resource := do
  let method ← httpMethod
  let uri ← expectText "resource path"
  let auth ← asAuth auths
  optionalBlock resourceItem { method, uri, auth }

def serviceItem (auths : Auths) (a : Service × Options) : Walk (Service × Options) := do
  let (service, options) := a
  match ← kind with
  | .set | .withOptions => do
    let options ← option options
    return (service, options)
  | .metric => do
    let m ← metric
    return ({ service with metrics := service.metrics ++ [m] }, options)
  | .get | .post => do
    let r ← resource auths
    return ({ service with resources := service.resources ++ [r] }, options)
  | .extractUsing => do
    let d ← decoder
    return ({ service with decoder := some d }, options)
  | _ => unexpected "SET, WITH_OPTIONS, METRIC, GET, POST or EXTRACT_USING"

def service (context : Context) (auths : Auths) (stack : Option String) : Walk (List Service) := do
  let span ← expect .forService
  let names ← expectTexts "service name"
  let auth ← asAuth auths
  let auth ← match auth with
    | some auth => pure (some auth)
    | none => compute (Document.defaultAuth context span)
  let (service, options) ←
    optionalBlock (serviceItem auths) ({ name := "", stack, auth }, .empty)
  let service ← compute (Document.settle context service options span)
  compute (Document.stamp service span names)

def auth (auths : Auths) : Walk Auths := do
  let _ ← expect .defineAuth
  let scheme ← expectText "auth type"
  let _ ← expect .as
  let name ← expectText "auth name"
  let options ← optionalBlock option .empty
  return (name, ⟨scheme, options⟩) :: auths

/-! ## Sections and documents -/

def stackItem (context : Context) (stack : String) (d : Draft) : Walk Draft := do
  match ← kind with
  | .forService => do
    let services ← service context d.auths (some stack)
    return d.add services
  | .defineAuth => do
    let auths ← auth d.auths
    return { d with auths }
  | _ => unexpected "FOR_SERVICE or DEFINE_AUTH"

def stack (context : Context) (d : Draft) : Walk Draft := do
  let _ ← expect .forStack
  let name ← expectText "stack name"
  block (stackItem context name) d

def documentSection (context : Context) (d : Draft) : Walk Draft := do
  match ← kind with
  | .dataset => do
    advance
    return d.markDataset
  | .defineAuth => do
    let auths ← auth d.auths
    return { d with auths }
  | .forStack => stack context d
  | .forService => do
    let services ← service context d.auths none
    return d.add services
  | _ => unexpected "DATASET, DEFINE_AUTH, FOR_STACK or FOR_SERVICE"

def sections (context : Context) : Draft → Walk Draft :=
  loop fun d => do
    if ← atEnd then return .inr d
    let d ← documentSection context d
    if ← atEnd then return .inr d
    if (← kind) = .sameLevel then
      skipSameLevel
      return .inl d
    else unexpected "end of line"

theorem sections_eq (context : Context) (d : Draft) : sections context d = (do
    if ← atEnd then return d
    let d ← documentSection context d
    if ← atEnd then return d
    if (← kind) = .sameLevel then
      skipSameLevel
      sections context d
    else unexpected "end of line") := by
  rw [sections, loop]
  simp only [bind_assoc, ite_bind, pure_bind, unexpected_bind]

def context : Walk Context := do
  if (← kind) = .ctx then
    let t ← look
    advance
    match t.payload with
    | .context c => return c
    | _ => return {}
  else unexpected "CTX"

/-- The reader of documents, once no wrong dedent has been found. -/
def document : Walk Configuration := do
  let c ← context
  skipSameLevel
  let d ← sections c {}
  return d.configuration

/-- The walk along a list of tokens. Wrong dedents are looked for beforehand. -/
def ofTokens (tokens : List Token) : Option (Except ParseError Configuration × Cursor) :=
  match tokens.find? (·.kind == .badIndent) with
  | some t => some (.error (.atSpan .badIndent t.span), { tokens })
  | none => document { tokens }

end Walk

end ScrapeConfig
