import ScrapeConfig.CommandLine.Arguments
import ScrapeConfig.Config.Data
import ScrapeConfig.Config.Dump
import ScrapeConfig.Datum.Printer
import ScrapeConfig.Document.Load
import ScrapeConfig.Lexer.Transcript

/-!
# What the command writes

A trace shows the tokens of a document, or its tree as JSON or in full. If the document is faulty
the error goes to the error output; tokens in front of the fault have been written by then.
-/

namespace ScrapeConfig.CommandLine

structure Outcome where
  exitCode : Nat := 0
  output : String := ""
  errorOutput : String := ""
  deriving DecidableEq, Repr

def Outcome.failure (e : LoadError) (output : String) : Outcome :=
  ⟨1, output, "❌ " ++ e.message ++ "\n"⟩

def Outcome.ofResult : Except LoadError String → Outcome
  | .ok output => { output }
  | .error e => .failure e ""

def versionText : String := "rxt_trace 0.4.0\n"

def helpText : String := "\n".intercalate [
  "Trace RXT sources through the lexer and parser",
  "",
  "Usage: rxt_trace [OPTIONS] [INPUT]",
  "",
  "Arguments:",
  "  [INPUT]  Input file (reads stdin if not provided)",
  "",
  "Options:",
  "      --tokens-only  Print tokens as they are lexed and stop there",
  "      --threaded     Run the scanner on its own thread",
  "      --json         Print the configuration tree as JSON",
  "      --json-logs    Emit logs as JSON lines [env: RXT_JSON_LOGS=]",
  "  -h, --help         Print help",
  "  -V, --version      Print version",
  ""]

/-- The transcript of a document up to its end or first fault. -/
def tokenOutcome (threaded : Bool) (source : String) : Outcome :=
  match Document.lexer threaded {} source with
  | .error e => .failure (.pattern e) ""
  | .ok l =>
    let (reply, _, t) := l.lex Transcript.handler {}
    let output := t.text?.getD ""
    match reply with
    | .error e => .failure (.parse e) output
    | _ => { output }

/-- The valid tree of a document in the form asked for. -/
def treeText (json : Bool) (c : Configuration) : String :=
  (if json then c.toDatum.pretty else c.dump) ++ "\n"

namespace Trace

/-- The name of the input in messages. -/
def inputName (t : Trace) : String := t.input.getD "<stdin>"

def outcome (t : Trace) (contents : Contents) : Outcome :=
  match Document.text t.inputName contents with
  | .error e => .failure e ""
  | .ok source =>
    if t.has .tokensOnly then tokenOutcome (t.has .threaded) source
    else .ofResult ((Document.load (t.has .threaded) {} source).map (treeText (t.has .json)))

end Trace

/-- What a request comes to, given the contents of every input: a file or, without a name, the
standard input. -/
def Request.outcome (contents : Option String → Contents) : Request → Outcome
  | .trace t => t.outcome (contents t.input)
  | .help => { output := helpText }
  | .version => { output := versionText }
  | .invalid => { exitCode := 2, errorOutput := "Usage: rxt_trace [OPTIONS] [INPUT]\n" }

end ScrapeConfig.CommandLine
