import ScrapeConfig.Lexer.Machine

/-!
# The lexer and its handlers

A lexer passes what it has to say on to a handler, which may answer an emission by an output, by an
error or not at all. The lexer goes on until there is something to return, and takes up its work where
it left it when it is asked again.
-/

namespace ScrapeConfig

/-- Whoever takes the events of a lexer, with a state `σ` and outputs `ω`. -/
structure Handler (σ ω : Type) where
  emit : Emission → Span → σ → Except ParseError (Option ω) × σ
  /-- Is told about every fault of the document. -/
  fault : ParseError → σ → ParseError × σ

/-- What asking a lexer comes to. -/
inductive Reply (ω : Type) where
  | output (o : ω)
  | error (e : ParseError)
  | finished
  | aborted

namespace Lexer

variable {σ ω : Type}

/-- Asks the lexer once: it works until the handler or a fault gives something to return. -/
def lex (l : Lexer) (h : Handler σ ω) (s : σ) : Reply ω × Lexer × σ :=
  match _e : l.advance with
  | none => (.finished, l, s)
  | some (none, l) => l.lex h s
  | some (some .abort, l) => (.aborted, l, s)
  | some (some (.fault e), l) =>
    let (e, s) := h.fault e s
    (.error e, l, s)
  | some (some (.emit emission span), l) => match h.emit emission span s with
    | (.error e, s) => (.error e, l, s)
    | (.ok (some o), s) => (.output o, l, s)
    | (.ok none, s) => l.lex h s
termination_by l.work
decreasing_by all_goals exact work_advance _e

/-- A reply takes work. -/
theorem work_lex {l l' : Lexer} {h : Handler σ ω} {s t : σ} {reply : Reply ω}
    (e : l.lex h s = (reply, l', t)) (hr : reply ≠ .finished) : l'.work < l.work := by
  fun_induction lex l h s with
  | case1 => exact absurd (Prod.mk.inj e).1.symm hr
  | case2 l s next step further => exact Nat.lt_trans (further e) (work_advance step)
  | case3 l s next step => exact (Prod.mk.inj (Prod.mk.inj e).2).1 ▸ work_advance step
  | case4 l s _ next step => exact (Prod.mk.inj (Prod.mk.inj e).2).1 ▸ work_advance step
  | case5 l s _ _ next step => exact (Prod.mk.inj (Prod.mk.inj e).2).1 ▸ work_advance step
  | case6 l s _ _ next step => exact (Prod.mk.inj (Prod.mk.inj e).2).1 ▸ work_advance step
  | case7 l s _ _ next step _ _ further => exact Nat.lt_trans (further e) (work_advance step)

/-- Asks for replies until the end and gives all but the last one, each with the handler's state
behind it, and then the state and the lexer at the end. -/
def run (l : Lexer) (h : Handler σ ω) (s : σ) : List (Reply ω × σ) × σ × Lexer :=
  match _e : l.lex h s with
  | (.finished, l, s) => ([], s, l)
  | (.aborted, l, s) => ([(.aborted, s)], s, l)
  | (.output o, l, s) =>
    let (replies, final) := l.run h s
    ((.output o, s) :: replies, final)
  | (.error e, l, s) =>
    let (replies, final) := l.run h s
    ((.error e, s) :: replies, final)
termination_by l.work
decreasing_by all_goals exact work_lex _e nofun

end Lexer

/-- The handler that builds tokens. -/
def Token.handler : Handler Unit Token where
  emit e span _ := (((Token.ofEmission e span).map some), ())
  fault e _ := (e, ())

namespace Lexer

/-- The tokens of a list of replies, or the first error among them. -/
def collect : List (Reply Token) → Except ParseError (List Token)
  | [] => .ok []
  | .output t :: rest => do
    let ts ← collect rest
    return t :: ts
  | .error e :: _ => .error e
  | _ :: rest => collect rest

/-- All tokens of a document, unless some part of it is no token. -/
def tokens (l : Lexer) : Except ParseError (List Token) :=
  collect ((l.run Token.handler ()).1.map (·.1))

end Lexer

end ScrapeConfig
