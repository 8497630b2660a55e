/-!
# Kinds of tokens
-/

namespace ScrapeConfig

inductive TokenKind where
  | get
  | post
  | counter
  | gauge
  | histogram
  | summary
  | fromPath
  | help
  | labels
  | metric
  | name
  | set
  | type
  | to
  | description
  | withOptions
  | as
  | defineAuth
  | extractUsing
  | forService
  | forStack
  | dataset
  | comma
  | strLiteral
  | identifier
  | blockOpen
  | sameLevel
  | blockClose
  | badIndent
  | ctx
  | eof
  deriving DecidableEq, Repr, Inhabited

namespace TokenKind

/-- The name under which tables and messages know a kind. -/
def label : TokenKind → String
  | .get => "GET"
  | .post => "POST"
  | .counter => "COUNTER"
  | .gauge => "GAUGE"
  | .histogram => "HISTOGRAM"
  | .summary => "SUMMARY"
  | .fromPath => "FROM"
  | .help => "HELP"
  | .labels => "LABELS"
  | .metric => "METRIC"
  | .name => "NAME"
  | .set => "SET"
  | .type => "TYPE"
  | .to => "TO"
  | .description => "DESCRIPTION"
  | .withOptions => "WITH_OPTIONS"
  | .as => "AS"
  | .defineAuth => "DEFINE_AUTH"
  | .extractUsing => "EXTRACT_USING"
  | .forService => "FOR_SERVICE"
  | .forStack => "FOR_STACK"
  | .dataset => "DATASET"
  | .comma => "COMMA"
  | .strLiteral => "STR_LITERAL"
  | .identifier => "IDENTIFIER"
  | .blockOpen => "BLOCK_OPEN"
  | .sameLevel => "SAME_LEVEL"
  | .blockClose => "BLOCK_CLOSE"
  | .badIndent => "BAD_INDENT"
  | .ctx => "CTX"
  | .eof => "EOF"

def keywords : List TokenKind :=
  [.get, .post, .counter, .gauge, .histogram, .summary, .fromPath, .help, .labels, .metric, .name,
    .set, .type, .to, .description, .withOptions, .as, .defineAuth, .extractUsing, .forService,
    .forStack, .dataset]

/-- The kinds that stand for the layout of a document or for its two ends. -/
def structural : List TokenKind :=
  [.blockOpen, .sameLevel, .blockClose, .badIndent, .ctx, .eof]

def all : List TokenKind :=
  keywords ++ [.comma, .strLiteral, .identifier] ++ structural

def isStructural (k : TokenKind) : Bool := structural.contains k

end TokenKind

end ScrapeConfig
