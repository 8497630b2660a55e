import ScrapeConfig.Options.Store
import ScrapeConfig.Text.Position

/-!
# What is wrong with a document

A problem has a kind, by which problems are told apart, a message, and the line and column at which
it was noticed.
-/

namespace ScrapeConfig

inductive ProblemKind where
  | unexpectedToken
  | unknownKeyword
  | unexpectedInput
  | badIndent
  | tokenTable
  | missingField
  | undefinedReference
  | invalidValue
  deriving DecidableEq, Repr

namespace ProblemKind

def label : ProblemKind → String
  | .unexpectedToken => "unexpected token"
  | .unknownKeyword => "unknown keyword"
  | .unexpectedInput => "unexpected input"
  | .badIndent => "bad indentation"
  | .tokenTable => "token table mismatch"
  | .missingField => "missing field"
  | .undefinedReference => "undefined reference"
  | .invalidValue => "invalid value"

def all : List ProblemKind :=
  [.unexpectedToken, .unknownKeyword, .unexpectedInput, .badIndent, .tokenTable, .missingField,
    .undefinedReference, .invalidValue]

end ProblemKind

inductive Problem where
  /-- `found` is a token as shown. -/
  | unexpectedToken (expected found : String)
  | unknownKeyword (text : String)
  /-- `text` is quoted. -/
  | unexpectedInput (text : String)
  | badIndent
  | noRule (pattern : Nat)
  | noStructuralToken (name : String)
  | noObjectToken (name : String)
  | metricWithoutName
  | metricWithoutType (name : String)
  | undefinedAuth (name : String)
  | unknownMode (message : String)
  | unreadableOption (error : StoreError)
  deriving DecidableEq, Repr

namespace Problem

def kind : Problem → ProblemKind
  | .unexpectedToken .. => .unexpectedToken
  | .unknownKeyword _ => .unknownKeyword
  | .unexpectedInput _ => .unexpectedInput
  | .badIndent => .badIndent
  | .noRule _ => .tokenTable
  | .noStructuralToken _ => .tokenTable
  | .noObjectToken _ => .tokenTable
  | .metricWithoutName => .missingField
  | .metricWithoutType _ => .missingField
  | .undefinedAuth _ => .undefinedReference
  | .unknownMode _ => .invalidValue
  | .unreadableOption _ => .invalidValue

def message : Problem → String
  | .unexpectedToken expected found => s!"expected {expected}, found {found}"
  | .unknownKeyword text => s!"unknown keyword '{text}'"
  | .unexpectedInput text => s!"unexpected input {text}"
  | .badIndent => "dedent does not match any enclosing indentation level"
  | .noRule pattern => s!"no lexical rule for pattern Some({pattern})"
  | .noStructuralToken name => s!"no structural token named '{name}'"
  | .noObjectToken name => s!"no object token named '{name}'"
  | .metricWithoutName => "metric without NAME"
  | .metricWithoutType name => s!"metric '{name}' without TYPE"
  | .undefinedAuth name => s!"auth '{name}' is not defined"
  | .unknownMode message => message
  | .unreadableOption error => error.message

end Problem

structure ParseError where
  problem : Problem
  line : Nat
  column : Nat
  deriving DecidableEq, Repr

namespace ParseError

/-- A problem at the start of a span. -/
def atSpan (problem : Problem) (span : Span) : ParseError := ⟨problem, span.line, span.column⟩

/-- The text that reports a problem. -/
def report (kind : ProblemKind) (message : String) (line column : Nat) : String :=
  s!"Parse error at line {line}, column {column}: {kind.label}: {message}"

def message (e : ParseError) : String :=
  report e.problem.kind e.problem.message e.line e.column

end ParseError

end ScrapeConfig
