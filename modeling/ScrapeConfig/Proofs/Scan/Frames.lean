import ScrapeConfig.Scan.Handoff

/-!
# The frames of a scanner

Results:
1. `Scanner.frames_of_next?`, `Scanner.frames_of_none`: the frames, one step at a time.
2. `Scanner.drain_spawn`: a consumer that waits for every frame of a producer gets the frames of the
   scanner that the producer owns.
-/

namespace ScrapeConfig

namespace Scanner

theorem frames_of_next? {s t : Scanner} {f : Frame} (h : s.next? = some (f, t)) :
    s.frames = f :: t.frames := by
  rw [frames]
  split
  · next h' => simp [h] at h'
  · next f' t' h' =>
    rw [h, Option.some.injEq, Prod.mk.injEq] at h'
    rw [h'.1, h'.2]

theorem frames_of_none {s : Scanner} (h : s.next? = none) : s.frames = [] := by
  rw [frames]
  split
  · rfl
  · next h' => simp [h] at h'

end Scanner

namespace Handoff

/-- A producer that is about to ask for a frame, and a consumer that waits to be called. -/
def ready (s : Scanner) (answers : List (Option Frame)) : Handoff :=
  { scanner := s, answers }

/-- A consumer that asks is answered by the next frame, or it learns that there is none. -/
theorem receive_ready (s : Scanner) (answers : List (Option Frame)) :
    (ready s answers).receive = match s.next? with
      | none => (none, { ready s (none :: answers) with producer := .returned })
      | some (f, t) => (some f, ready t (some f :: answers)) := by
  cases h : s.next? with
  | none => simp [receive, follow, move, ready, h]
  | some next =>
    obtain ⟨f, t⟩ := next
    simp [receive, follow, move, ready, h]

theorem receiveUpTo_ready {s : Scanner} {answers : List (Option Frame)} {count : Nat}
    (h : s.remaining ≤ count) : (receiveUpTo count (ready s answers)).1 = s.frames := by
  induction count generalizing s answers with
  | zero =>
    cases hn : s.next? with
    | none => rw [Scanner.frames_of_none hn, receiveUpTo]
    | some next =>
      have := Scanner.remaining_next? hn
      omega
  | succ count ih =>
    rw [receiveUpTo, receive_ready]
    cases hn : s.next? with
    | none => rw [Scanner.frames_of_none hn]
    | some next =>
      obtain ⟨f, t⟩ := next
      have := Scanner.remaining_next? hn
      rw [Scanner.frames_of_next? hn, ← ih (by omega)]

end Handoff

/-- Waiting for every frame gives what the scanner gives. -/
theorem Scanner.drain_spawn (s : Scanner) : s.spawn.drain.1 = s.frames :=
  Handoff.receiveUpTo_ready (Nat.le_refl s.remaining)

end ScrapeConfig
