import ScrapeConfig.Config.Validation
import ScrapeConfig.Document.Reader
import ScrapeConfig.Files.Folder
import ScrapeConfig.Lexer.Basic
import ScrapeConfig.Scan.Handoff

/-!
# From document text to a configuration

The whole way: frames, events, tokens, tree, validation.
-/

namespace ScrapeConfig

/-- Why a document can not be used. -/
inductive LoadError where
  | pattern (e : PatternError)
  | parse (e : ParseError)
  | store (e : StoreError)
  | config (e : ConfigError)
  | read (path reason : String)
  | write (target reason : String)
  /-- The document is waited on for ever. -/
  | endless
  deriving Repr

namespace LoadError

def message : LoadError → String
  | .pattern e => e.message
  | .parse e => e.message
  | .store e => "Store error: " ++ e.message
  | .config e => e.message
  | .read path reason => s!"Can not read {path}: {reason}"
  | .write target reason => s!"Can not write {target}: {reason}"
  | .endless => "endless"

def ofFault : ReadFault → LoadError
  | .error e => .parse e
  | .endless => .endless

end LoadError

namespace Document

/-- The frames of a source, by way of another thread if `threaded`. -/
def frames (patterns : PatternSet) (threaded : Bool) (source : String) : List Frame :=
  let scanner := Scanner.new patterns source
  if threaded then scanner.spawn.drain.1 else scanner.frames

/-- The lexer of a document. -/
def lexer (threaded : Bool) (context : Context) (source : String) : Except PatternError Lexer := do
  let patterns ← Rule.documentPatterns
  return .new Rule.documentRules context (frames patterns threaded source)

/-- The tokens of a document. -/
def tokenize (threaded : Bool) (context : Context) (source : String) :
    Except LoadError (List Token) := do
  let l ← (lexer threaded context source).mapError .pattern
  l.tokens.mapError .parse

/-- The tree of a document, not validated. -/
def parse (threaded : Bool) (context : Context) (source : String) :
    Except LoadError Configuration := do
  let tokens ← tokenize threaded context source
  (ofTokens tokens).mapError .ofFault

/-- The tree of a document that describes a valid configuration. -/
def load (threaded : Bool) (context : Context) (source : String) :
    Except LoadError Configuration := do
  let c ← parse threaded context source
  (c.validate Location.reason?).mapError .config
  return c

/-- The text of a document file. -/
def text (path : String) (contents : Contents) : Except LoadError String :=
  contents.text.mapError fun fault => .read path fault.message

/-- The valid tree of a document file. -/
def loadFile (path : String) (contents : Contents) : Except LoadError Configuration := do
  load false {} (← text path contents)

end Document

end ScrapeConfig
