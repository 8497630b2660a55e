import ScrapeConfig.Token.Basic
import ScrapeConfig.Token.Keyword
import ScrapeConfig.Token.Problem

/-!
# Emissions

What a lexer recognizes is emitted under a name or as text; it becomes a token by the keyword table.
-/

namespace ScrapeConfig

/-- What kind of text is emitted. -/
inductive Channel where
  | punct
  | keyword
  | literal
  | variable
  deriving DecidableEq, Repr

inductive Emission where
  /-- A block boundary or the end of the document. -/
  | boundary (name : String) (level : Nat)
  | text (channel : Channel) (s : String)
  | object (name : String) (context : Context)
  deriving DecidableEq

/-- The token for an emission. Texts of the first two channels have to name a kind that is not
structural. -/
def Token.ofEmission : Emission → Span → Except ParseError Token
  | .boundary name level, span => match Keyword.lookup name with
    | some kind =>
      if kind = .eof then .ok ⟨.eof, .none, span⟩
      else if kind.isStructural && kind ≠ .ctx then .ok ⟨kind, .level level, span⟩
      else .error (.atSpan (.noStructuralToken name) span)
    | none => .error (.atSpan (.noStructuralToken name) span)
  | .text .literal s, span => .ok ⟨.strLiteral, .text s, span⟩
  | .text .variable s, span => .ok ⟨.identifier, .text s, span⟩
  | .text _ s, span => match Keyword.lookup s with
    | some kind =>
      if kind.isStructural then .error (.atSpan (.unknownKeyword s) span)
      else .ok ⟨kind, .none, span⟩
    | none => .error (.atSpan (.unknownKeyword s) span)
  | .object name context, span =>
    if Keyword.lookup name = some .ctx then .ok ⟨.ctx, .context context, span⟩
    else .error (.atSpan (.noObjectToken name) span)

end ScrapeConfig
