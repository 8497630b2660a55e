import ScrapeConfig.Lexer.Basic

/-!
# Transcripts

A transcript has one line for every token, with its position in front, and a line for every fault at
its place. It is written to a sink that may run out of room: what fits of a line is written all the
same, and a token whose line did not fit makes the lexer stop.
-/

namespace ScrapeConfig

/-- Takes bytes for as long as there is room; without a limit it takes everything. -/
structure Sink where
  room : Option Nat := none
  /-- The bytes of each text that was written, the latest text first. -/
  chunks : List (List UInt8) := []

namespace Sink

/-- All bytes that were written, in order. -/
def written (s : Sink) : List UInt8 := s.chunks.reverse.flatten

/-- Writes what fits of a text and tells whether that was all. -/
def write (s : Sink) (text : String) : Bool × Sink :=
  let bytes := text.toUTF8.toList
  match s.room with
  | none => (true, ⟨none, bytes :: s.chunks⟩)
  | some room => (bytes.length ≤ room, ⟨some (room - bytes.length), bytes.take room :: s.chunks⟩)

theorem written_write (s : Sink) (text : String) :
    (s.write text).2.written = s.written ++ match s.room with
      | none => text.toUTF8.toList
      | some room => text.toUTF8.toList.take room := by
  unfold write written
  split <;> simp_all

end Sink

structure Transcript where
  sink : Sink := {}
  /-- Number of tokens that were written in full. -/
  count : Nat := 0
  /-- Some token was not. -/
  failed : Bool := false

namespace Transcript

def tokenLine (t : Token) : String := s!"{t.span.line}:{t.span.column}\t{t.display}\n"

def faultLine (e : ParseError) : String := s!"{e.line}:{e.column}\tERROR {e.problem.message}\n"

def writeToken (t : Transcript) (token : Token) : Option Unit × Transcript :=
  match t.sink.write (tokenLine token) with
  | (true, sink) => (none, { t with sink, count := t.count + 1 })
  | (false, sink) => (some (), { t with sink, failed := true })

def handler : Handler Transcript Unit where
  emit e span t := match Token.ofEmission e span with
    | .error e => (.error e, t)
    | .ok token =>
      let (stop, t) := t.writeToken token
      (.ok stop, t)
  fault e t := (e, { t with sink := (t.sink.write (faultLine e)).2 })

/-- What was written, unless some token was not written in full. -/
def text? (t : Transcript) : Option String :=
  if t.failed then none else String.fromUTF8? ⟨t.sink.written.toArray⟩

end Transcript

end ScrapeConfig
