import ScrapeConfig.Token.Basic
import ScrapeConfig.Token.Problem

/-!
# Token streams

A reader of tokens looks at one token at a time. Behind its last token a stream goes on showing
that token, and it does not move past the end-of-input token either.
-/

namespace ScrapeConfig

/-- Why a document can not be read. -/
inductive ReadFault where
  | error (e : ParseError)
  /-- A stream that ends with a same-level token, and has no end-of-input token before it, is waited
  on for ever. -/
  | endless
  deriving DecidableEq, Repr

structure Stream where
  rest : List Token
  last : Token
  deriving DecidableEq

namespace Stream

/-- An empty stream shows the end of input. -/
def ofList (tokens : List Token) : Stream :=
  ⟨tokens, tokens.getLast?.getD ⟨.eof, .none, {}⟩⟩

def current (s : Stream) : Token := s.rest.head?.getD s.last

/-- The kind of the current token. -/
def kind (s : Stream) : TokenKind := s.current.kind

def atEnd (s : Stream) : Bool := s.rest.isEmpty || s.kind == .eof

def advance (s : Stream) : Stream := if s.atEnd then s else { s with rest := s.rest.tail }

theorem length_advance (s : Stream) : s.advance.rest.length ≤ s.rest.length := by
  unfold advance; split <;> simp

/-- The current token is none of those expected here. -/
def unexpected (s : Stream) (expected : String) : ReadFault :=
  .error (.atSpan (.unexpectedToken expected s.current.display) s.current.span)

/-- Reads a token of a kind and gives its span. -/
def expect (s : Stream) (kind : TokenKind) : Except ReadFault (Span × Stream) :=
  if s.kind = kind then .ok (s.current.span, s.advance) else .error (s.unexpected kind.label)

/-- Reads a literal or an identifier; `what` names it. -/
def expectText (s : Stream) (what : String) : Except ReadFault (String × Stream) :=
  if s.kind = .strLiteral ∨ s.kind = .identifier then .ok (s.current.text?.getD "", s.advance)
  else .error (s.unexpected what)

/-- Reads texts separated by commas after a first one. -/
def moreTexts (what : String) (s : Stream) : Except ReadFault (List String × Stream) :=
  if s.kind = .comma then
    match s.advance.expectText what with
    | .error e => .error e
    | .ok (text, t) =>
      if t.rest.length < s.rest.length then
        match moreTexts what t with
        | .error e => .error e
        | .ok (texts, u) => .ok (text :: texts, u)
      else .error .endless
  else .ok ([], s)
termination_by s.rest.length

/-- Reads one text or more, separated by commas. -/
def expectTexts (s : Stream) (what : String) : Except ReadFault (List String × Stream) := do
  let (text, s) ← s.expectText what
  let (texts, s) ← moreTexts what s
  return (text :: texts, s)

/-- Passes same-level tokens. -/
def skipSameLevel (s : Stream) : Except ReadFault Stream :=
  let rest := s.rest.dropWhile (·.kind == .sameLevel)
  if rest.isEmpty && s.last.kind == .sameLevel then .error .endless else .ok { s with rest }

/-- Reads the lines of a block by `item`, up to its end. A line that reads no token would be read
again for ever. -/
def blockLines {σ : Type} (item : σ → Stream → Except ReadFault (σ × Stream)) (a : σ) (s : Stream) :
    Except ReadFault (σ × Stream) :=
  match s.skipSameLevel with
  | .error e => .error e
  | .ok t =>
    if t.kind = .blockClose then .ok (a, t.advance)
    else if t.kind = .eof then .error (t.unexpected "end of block")
    else match item a t with
      | .error e => .error e
      | .ok (a, u) =>
        if u.kind = .sameLevel ∨ u.kind = .blockClose then
          if u.rest.length < s.rest.length then blockLines item a u else .error .endless
        else .error (u.unexpected "end of line")
termination_by s.rest.length

/-- Reads a block; `item` reads a line and adds it to what was read before. -/
def block {σ : Type} (item : σ → Stream → Except ReadFault (σ × Stream)) (a : σ) (s : Stream) :
    Except ReadFault (σ × Stream) := do
  let (_, s) ← s.expect .blockOpen
  blockLines item a s

/-- Reads a block if one begins here. -/
def optionalBlock {σ : Type} (item : σ → Stream → Except ReadFault (σ × Stream)) (a : σ)
    (s : Stream) : Except ReadFault (σ × Stream) :=
  if s.kind = .blockOpen then block item a s else .ok (a, s)

end Stream

end ScrapeConfig
