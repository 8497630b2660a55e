/-!
# Arguments of the command

Arguments are taken from left to right, and the first that can not be accepted decides. Every flag
may be given once, and at most one input file may be named. Behind `--` every argument is a file.
-/

namespace ScrapeConfig.CommandLine

inductive Flag where
  | tokensOnly
  | threaded
  | json
  | jsonLogs
  deriving DecidableEq, Repr

namespace Flag

def all : List Flag := [.tokensOnly, .threaded, .json, .jsonLogs]

def text : Flag → String
  | .tokensOnly => "--tokens-only"
  | .threaded => "--threaded"
  | .json => "--json"
  | .jsonLogs => "--json-logs"

end Flag

/-- What is to be traced, and how. -/
structure Trace where
  /-- The input file; without one the standard input is read. -/
  input : Option String := none
  flags : List Flag := []
  deriving DecidableEq, Repr

namespace Trace

def has (t : Trace) (f : Flag) : Bool := t.flags.contains f

/-- Names the input file. -/
def withInput (t : Trace) (path : String) : Option Trace :=
  if t.input.isSome || path.isEmpty then none else some { t with input := some path }

def withFlag (t : Trace) (f : Flag) : Option Trace :=
  if t.has f then none else some { t with flags := f :: t.flags }

end Trace

inductive Request where
  | trace (t : Trace)
  | help
  | version
  | invalid
  deriving DecidableEq, Repr

/-- What an argument in front of `--` asks for at once, whatever comes behind it. -/
def immediate? (arg : String) : Option Request :=
  if arg = "--help" then some .help
  else if arg = "--version" then some .version
  else match arg.toList with
    | '-' :: 'h' :: _ => some .help
    | '-' :: 'V' :: _ => some .version
    | _ => none

/-- The request that the remaining arguments make; `plain` ones are files whatever they look
like. -/
def requestFrom (t : Trace) (plain : Bool) : List String → Request
  | [] => .trace t
  | arg :: rest =>
    let next (t? : Option Trace) (plain : Bool) : Request :=
      match t? with
      | some t => requestFrom t plain rest
      | none => .invalid
    if plain || arg = "-" || arg.toList.head? ≠ some '-' then next (t.withInput arg) plain
    else if arg = "--" then next (some t) true
    else match immediate? arg, Flag.all.find? (·.text == arg) with
      | some request, _ => request
      | none, some f => next (t.withFlag f) plain
      | none, none => .invalid

def request (args : List String) : Request := requestFrom {} false args

end ScrapeConfig.CommandLine
