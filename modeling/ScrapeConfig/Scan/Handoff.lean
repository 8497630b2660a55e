import ScrapeConfig.Scan.Scanner

/-!
# Handing frames over to another thread

A producer thread owns the scanner and hands its frames over one at a time, through a channel that
holds nothing: a frame leaves the producer in the moment in which the consumer takes it. In front of
every frame that it offers, the producer looks at a flag. A consumer that cancels raises the flag
and then gives up its end of the channel, so the producer stops at its next look at the flag, or
because nobody listens any more. A consumer that is let go of does the same, and then waits for the
producer to return.

The state below covers both sides, and a `Move` is one step of one of them or the handing over of a
frame, so a list of moves is an interleaving. `receive` is what a consumer sees that waits for the
producer.
-/

namespace ScrapeConfig

/-- What the producer is about to do. -/
inductive Producer where
  /-- Ask the scanner for a frame. -/
  | fetching
  /-- Look at the flag, with a frame in hand. -/
  | holding (f : Frame)
  /-- Hand a frame over. -/
  | sending (f : Frame)
  | returned
  deriving DecidableEq, Repr

/-- What the consumer is about to do. -/
inductive Consumer where
  /-- Nothing, until it is called. -/
  | idle
  /-- Take a frame, or learn that there are no more. -/
  | waiting
  /-- Give up its end of the channel, after it has raised the flag; `leaving` if it is let go of. -/
  | cancelling (leaving : Bool)
  /-- See the producer return. -/
  | joining
  | gone
  deriving DecidableEq, Repr

structure Handoff where
  scanner : Scanner
  producer : Producer := .fetching
  consumer : Consumer := .idle
  /-- The flag: the consumer has asked the producer to stop. -/
  cancelled : Bool := false
  /-- The consumer still has its end of the channel. -/
  listening : Bool := true
  /-- What the consumer was answered each time it asked for a frame, the latest answer first. -/
  answers : List (Option Frame) := []

namespace Handoff

/-- The answers to a consumer that asked for frames, in order. -/
def answered (h : Handoff) : List (Option Frame) := h.answers.reverse

/-- Frames that the consumer has taken, in order. -/
def received (h : Handoff) : List Frame := h.answered.filterMap id

inductive Move where
  | fetch
  | look
  | hangUp
  | transfer
  /-- The consumer asks for a frame. -/
  | ask
  /-- The consumer learns that the producer has returned. -/
  | notice
  /-- The consumer cancels: it raises the flag. -/
  | cancel
  /-- The consumer is let go of: it raises the flag as well. -/
  | drop
  /-- The consumer gives up its end of the channel. -/
  | close
  | join
  deriving DecidableEq, Repr

/-- The state after a move, if the move can be made. A consumer that has given up its end of the
channel is answered at once. -/
def move (h : Handoff) : Move → Option Handoff
  | .fetch => match h.producer with
    | .fetching => match h.scanner.next? with
      | none => some { h with producer := .returned }
      | some (f, s) => some { h with producer := .holding f, scanner := s }
    | _ => none
  | .look => match h.producer with
    | .holding f => some { h with producer := if h.cancelled then .returned else .sending f }
    | _ => none
  | .hangUp => match h.producer with
    | .sending _ => if h.listening then none else some { h with producer := .returned }
    | _ => none
  | .transfer => match h.producer, h.consumer with
    | .sending f, .waiting =>
      some { h with producer := .fetching, consumer := .idle, answers := some f :: h.answers }
    | _, _ => none
  | .ask => match h.consumer with
    | .idle =>
      if h.listening then some { h with consumer := .waiting }
      else some { h with answers := none :: h.answers }
    | _ => none
  | .notice => match h.producer, h.consumer with
    | .returned, .waiting => some { h with consumer := .idle, answers := none :: h.answers }
    | _, _ => none
  | .cancel => match h.consumer with
    | .idle => some { h with consumer := .cancelling false, cancelled := true }
    | _ => none
  | .drop => match h.consumer with
    | .idle => some { h with consumer := .cancelling true, cancelled := true }
    | _ => none
  | .close => match h.consumer with
    | .cancelling leaving =>
      some { h with consumer := if leaving then .joining else .idle, listening := false }
    | _ => none
  | .join => match h.producer, h.consumer with
    | .returned, .joining => some { h with consumer := .gone }
    | _, _ => none

/-- The state after a list of moves, if they can be made in this order. -/
def moves (h : Handoff) : List Move → Option Handoff
  | [] => some h
  | m :: ms => (h.move m).bind (·.moves ms)

/-- Makes those moves of a list that can be made when it is their turn. -/
def follow (h : Handoff) (ms : List Move) : Handoff :=
  ms.foldl (fun h m => (h.move m).getD h) h

def cancel (h : Handoff) : Handoff := h.follow [.cancel, .close]

/-- Asks for the next frame and waits for the answer; there is none after cancelling or after the
last frame. -/
def receive (h : Handoff) : Option Frame × Handoff :=
  match h.move .ask with
  | none => (none, h)
  | some h =>
    let h := h.follow [.fetch, .look, .transfer, .notice]
    (h.answers.head?.join, h)

/-- Receives frames until there are none, `count` at most. -/
def receiveUpTo : (count : Nat) → Handoff → List Frame × Handoff
  | 0, h => ([], h)
  | count + 1, h => match h.receive with
    | (none, h) => ([], h)
    | (some f, h) =>
      let (fs, h) := receiveUpTo count h
      (f :: fs, h)

/-- Receives every frame. -/
def drain (h : Handoff) : List Frame × Handoff :=
  receiveUpTo h.scanner.remaining h

end Handoff

def Scanner.spawn (s : Scanner) : Handoff :=
  { scanner := s }

end ScrapeConfig
