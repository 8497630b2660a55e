import ScrapeConfig.CommandLine.Outcome

/-!
# The command

Reads the input that the arguments name, and writes what `Request.outcome` says.
-/

open ScrapeConfig

namespace ScrapeConfig.CommandLine

/-- All bytes up to the end of a stream. -/
partial def readAll (stream : IO.FS.Stream) (read : ByteArray) : IO ByteArray := do
  let bytes ← stream.read 65536
  if bytes.isEmpty then return read
  readAll stream (read ++ bytes)

def faultOf : IO.Error → FileFault
  | .noFileOrDirectory .. => .notFound
  | .inappropriateType .. => .isDirectory
  | e => .other (toString e)

def readContents (input : Option String) : IO Contents := do
  try
    match input with
    | some path => return .ok (← IO.FS.readBinFile path)
    | none => return .ok (← readAll (← IO.getStdin) .empty)
  catch e => return .error (faultOf e)

end ScrapeConfig.CommandLine

def main (args : List String) : IO UInt32 := do
  let request := CommandLine.request args
  let contents ← match request with
    | .trace t => CommandLine.readContents t.input
    | _ => pure (.error .notFound)
  let outcome := request.outcome fun _ => contents
  IO.print outcome.output
  IO.eprint outcome.errorOutput
  return outcome.exitCode.toUInt32
