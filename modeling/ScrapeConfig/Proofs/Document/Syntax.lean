import ScrapeConfig.Document.Reader
import ScrapeConfig.Proofs.Document.Word

/-!
# The grammar of documents

A syntax tree for every production of the grammar, and the words that it stands for. A sequence of
words is a sentence of the grammar if it is the words of a `Syntax.Document`.

What a tree refers to is collected here too: the auths that it defines and uses, in the order of the
text, its metric blocks and its service sections. The conditions on a document that are not in the
grammar are about these.
-/

namespace ScrapeConfig.Syntax

/-- One item or more. -/
structure Series (α : Type) where
  first : α
  rest : List α

namespace Series

variable {α : Type}

def toList (s : Series α) : List α := s.first :: s.rest

/-- `BLOCK_OPEN x (SAME_LEVEL x)* BLOCK_CLOSE`. -/
def block (words : α → List Word) (s : Series α) : List Word :=
  .mark .blockOpen :: (words s.first ++
    (s.rest.flatMap (fun x => .mark .sameLevel :: words x) ++ [.mark .blockClose]))

/-- `NAME (COMMA NAME)*`. -/
def names (s : Series String) : List Word :=
  .name s.first :: s.rest.flatMap fun n => [.mark .comma, .name n]

/-- The series of a list that is not empty. -/
def ofList? : List α → Option (Series α)
  | [] => none
  | x :: xs => some ⟨x, xs⟩

end Series

variable {α : Type}

/-- `[block(x)]`. -/
def optionalBlock (words : α → List Word) : Option (Series α) → List Word
  | none => []
  | some s => s.block words

/-- The items of a block that may be absent. -/
def itemsOf : Option (Series α) → List α
  | none => []
  | some s => s.toList

/-- `[AS NAME]`. -/
def asWords : Option String → List Word
  | none => []
  | some name => [.mark .as, .name name]

/-! ## Options -/

/-- `SET NAME TO NAME`. -/
structure Setting where
  key : String
  value : String

def Setting.words (s : Setting) : List Word :=
  [.mark .set, .name s.key, .mark .to, .name s.value]

inductive OptionItem where
  | set (s : Setting)
  | group (settings : Series Setting)

def OptionItem.words : OptionItem → List Word
  | .set s => s.words
  | .group settings => .mark .withOptions :: settings.block Setting.words

/-! ## Decoders and metrics -/

structure Extract where
  mode : String
  options : Option (Series OptionItem)

def Extract.words (e : Extract) : List Word :=
  .mark .extractUsing :: .name e.mode :: optionalBlock OptionItem.words e.options

/-- The keyword of a metric type. -/
def typeKeyword : MetricType → TokenKind
  | .counter => .counter
  | .gauge => .gauge
  | .histogram => .histogram
  | .summary => .summary

inductive MetricItem where
  | name (text : String)
  | type (t : MetricType)
  | description (text : String)
  | help (text : String)
  | labels (names : Series String)
  | path (text : String)
  | option (o : OptionItem)

def MetricItem.words : MetricItem → List Word
  | .name text => [.mark .name, .name text]
  | .type t => [.mark .type, .mark (typeKeyword t)]
  | .description text => [.mark .description, .name text]
  | .help text => [.mark .help, .name text]
  | .labels names => .mark .labels :: names.names
  | .path text => [.mark .fromPath, .name text]
  | .option o => o.words

abbrev MetricBlock := Series MetricItem

namespace MetricBlock

def words (m : MetricBlock) : List Word := .mark .metric :: m.block MetricItem.words

/-- A metric needs a name and a type. -/
def Complete (m : MetricBlock) : Prop :=
  (∃ text, .name text ∈ m.toList) ∧ ∃ t, .type t ∈ m.toList

end MetricBlock

/-! ## Resources and services -/

inductive ResourceItem where
  | option (o : OptionItem)
  | metric (m : MetricBlock)
  | extract (e : Extract)

namespace ResourceItem

def words : ResourceItem → List Word
  | .option o => o.words
  | .metric m => m.words
  | .extract e => e.words

def metrics : ResourceItem → List MetricBlock
  | .metric m => [m]
  | _ => []

end ResourceItem

structure ResourceSection where
  method : HttpMethod
  uri : String
  auth : Option String
  items : Option (Series ResourceItem)

/-- The keyword of a method. -/
def methodKeyword : HttpMethod → TokenKind
  | .get => .get
  | .post => .post

namespace ResourceSection

def words (r : ResourceSection) : List Word :=
  .mark (methodKeyword r.method) :: .name r.uri ::
    (asWords r.auth ++ optionalBlock ResourceItem.words r.items)

def metrics (r : ResourceSection) : List MetricBlock :=
  (itemsOf r.items).flatMap ResourceItem.metrics

end ResourceSection

inductive ServiceItem where
  | option (o : OptionItem)
  | metric (m : MetricBlock)
  | resource (r : ResourceSection)
  | extract (e : Extract)

namespace ServiceItem

def words : ServiceItem → List Word
  | .option o => o.words
  | .metric m => m.words
  | .resource r => r.words
  | .extract e => e.words

def metrics : ServiceItem → List MetricBlock
  | .metric m => [m]
  | .resource r => r.metrics
  | _ => []

/-- The auth that a resource names. -/
def uses : ServiceItem → List String
  | .resource r => r.auth.toList
  | _ => []

/-- The option that is set for the service. -/
def options : ServiceItem → List OptionItem
  | .option o => [o]
  | _ => []

end ServiceItem

structure ServiceSection where
  names : Series String
  auth : Option String
  items : Option (Series ServiceItem)

namespace ServiceSection

def words (s : ServiceSection) : List Word :=
  .mark .forService :: (s.names.names ++ (asWords s.auth ++ optionalBlock ServiceItem.words s.items))

def metrics (s : ServiceSection) : List MetricBlock :=
  (itemsOf s.items).flatMap ServiceItem.metrics

/-- The auths that the section names. -/
def uses (s : ServiceSection) : List String :=
  s.auth.toList ++ (itemsOf s.items).flatMap ServiceItem.uses

/-- The options that are set for the service, in the order of the text. -/
def options (s : ServiceSection) : List OptionItem := (itemsOf s.items).flatMap ServiceItem.options

end ServiceSection

/-! ## Sections -/

structure AuthSection where
  scheme : String
  name : String
  options : Option (Series OptionItem)

def AuthSection.words (a : AuthSection) : List Word :=
  .mark .defineAuth :: .name a.scheme :: .mark .as :: .name a.name ::
    optionalBlock OptionItem.words a.options

/-- A place where the name of an auth stands: behind the definition of the auth, or where the auth
is used. -/
inductive Mention where
  | defines (name : String)
  | uses (name : String)
  deriving DecidableEq

inductive StackItem where
  | service (s : ServiceSection)
  | auth (a : AuthSection)

namespace StackItem

def words : StackItem → List Word
  | .service s => s.words
  | .auth a => a.words

def services : StackItem → List ServiceSection
  | .service s => [s]
  | .auth _ => []

def mentions : StackItem → List Mention
  | .service s => s.uses.map .uses
  | .auth a => [.defines a.name]

end StackItem

inductive Section where
  | dataset
  | auth (a : AuthSection)
  | stack (name : String) (items : Series StackItem)
  | service (s : ServiceSection)

namespace Section

def words : Section → List Word
  | .dataset => [.mark .dataset]
  | .auth a => a.words
  | .stack name items => .mark .forStack :: .name name :: items.block StackItem.words
  | .service s => s.words

def services : Section → List ServiceSection
  | .stack _ items => items.toList.flatMap StackItem.services
  | .service s => [s]
  | _ => []

def mentions : Section → List Mention
  | .dataset => []
  | .auth a => [.defines a.name]
  | .stack _ items => items.toList.flatMap StackItem.mentions
  | .service s => s.uses.map .uses

end Section

/-- `SAME_LEVEL` a number of times. -/
def sameLevels (n : Nat) : List Word := List.replicate n (.mark .sameLevel)

/-- A section and the lines behind it, each with the number of same-level tokens in front of it,
which is one at least. -/
structure Lines where
  first : Section
  rest : List (Nat × Section)

def Lines.words (l : Lines) : List Word :=
  l.first.words ++ l.rest.flatMap fun (n, s) => sameLevels (n + 1) ++ s.words

/-- `CTX SAME_LEVEL* [section (SAME_LEVEL+ section)*] SAME_LEVEL* EOF`. -/
structure Document where
  before : Nat
  lines : Option Lines
  behind : Nat

namespace Document

def words (d : Document) : List Word :=
  .mark .ctx :: (sameLevels d.before ++ ((d.lines.elim [] Lines.words) ++
    (sameLevels d.behind ++ [.mark .eof])))

def sections (d : Document) : List Section :=
  d.lines.elim [] fun l => l.first :: l.rest.map (·.2)

def services (d : Document) : List ServiceSection := d.sections.flatMap Section.services

/-- Where auths are defined and used, in the order of the text. -/
def mentions (d : Document) : List Mention := d.sections.flatMap Section.mentions

/-! ## Conditions -/

/-- Every auth is defined before it is used. -/
def AuthsDefined (d : Document) : Prop :=
  ∀ before name behind, d.mentions = before ++ .uses name :: behind → .defines name ∈ before

/-- Every metric has a name and a type. -/
def MetricsComplete (d : Document) : Prop :=
  ∀ s ∈ d.services, ∀ m ∈ s.metrics, MetricBlock.Complete m

end Document

end ScrapeConfig.Syntax
