import ScrapeConfig.Layout.Tracker
import ScrapeConfig.Lexer.Rule
import ScrapeConfig.Token.Emission

/-!
# Lexer events

What a lexer says of a document: what it recognizes is emitted, what it does not is a fault.
-/

namespace ScrapeConfig

inductive Event where
  | emit (emission : Emission) (span : Span)
  | fault (e : ParseError)
  /-- Punctuation that does not begin with an ASCII character; the lexer goes no further. -/
  | abort
  deriving DecidableEq

namespace Event

def boundary (span : Span) (b : Boundary) : Event := .emit (.boundary b.name b.level) span

/-- The first byte of a text as a character of its own. -/
def leadingPunct : List Char → Option Char
  | [] => none
  | c :: _ => if c.utf8Size = 1 then some c else none

/-- A text without its first and last byte, or the empty text if one of them is no character of its
own. -/
def withoutQuotes : List Char → List Char
  | [] => []
  | c :: rest =>
    if c.utf8Size = 1 ∧ rest.getLast?.any (·.utf8Size = 1) then rest.dropLast else []

/-- The event for a frame whose rule neither skips it nor takes it as indentation. -/
def ofFrame (action : Action) (text : List Char) (span : Span) : Event :=
  match action with
  | .punct => match leadingPunct text with
    | some c => .emit (.text .punct c.toString) span
    | none => .abort
  | .keyword => .emit (.text .keyword (String.ofList text)) span
  | .literal => .emit (.text .literal (String.ofList (withoutQuotes text))) span
  | .variable => .emit (.text .variable (String.ofList text)) span
  | _ => .fault (.atSpan (.unexpectedInput (Quoted.encode (String.ofList text))) span)

end Event

end ScrapeConfig
