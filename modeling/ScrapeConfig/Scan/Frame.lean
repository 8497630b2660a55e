import ScrapeConfig.Text.Position

/-!
# Frames

A frame is a stretch of the input together with the pattern that won it. The last frame of an
input carries no pattern and no text; it only says where the input ends.
-/

namespace ScrapeConfig

structure Frame where
  pattern : Option Nat
  text : List Char
  position : Position
  deriving DecidableEq, Repr, Inhabited

namespace Frame

/-- The end of the input. -/
def finish (p : Position) : Frame := ⟨none, [], p⟩

def isEnd (f : Frame) : Bool := f.pattern.isNone

def span (f : Frame) : Span := .covering f.position f.text

end Frame

end ScrapeConfig
