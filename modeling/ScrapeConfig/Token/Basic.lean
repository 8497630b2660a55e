import ScrapeConfig.Config.Resource
import ScrapeConfig.Text.Position
import ScrapeConfig.Text.Quoted
import ScrapeConfig.Token.Kind

/-!
# Tokens
-/

namespace ScrapeConfig

/-- Defaults that all services of a document share: options, which those of a service override, and
the auth of services that name none. -/
structure Context where
  options : Options := .empty
  auth : Option Auth := none
  deriving Inhabited, DecidableEq

/-- What a token carries beside its kind. -/
inductive Payload where
  | none
  | level (n : Nat)
  | text (s : String)
  | context (c : Context)
  deriving Inhabited, DecidableEq

structure Token where
  kind : TokenKind
  payload : Payload := .none
  span : Span := {}
  deriving Inhabited, DecidableEq

namespace Token

def text? (t : Token) : Option String :=
  match t.payload with
  | .text s => some s
  | _ => none

/-- A token as messages and transcripts display it. -/
def display (t : Token) : String :=
  match t.payload with
  | .none => t.kind.label
  | .context _ => t.kind.label
  | .level n => s!"{t.kind.label}({n})"
  | .text s => t.kind.label ++ "(" ++ Quoted.encode s ++ ")"

end Token

end ScrapeConfig
