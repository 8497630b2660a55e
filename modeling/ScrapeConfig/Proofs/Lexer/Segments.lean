import ScrapeConfig.Document.Load
import ScrapeConfig.Proofs.Lexer.Cut
import ScrapeConfig.Proofs.Scan.Munch

/-!
# The frames of a document

A document is cut into texts from left to right, one rule after the other, and nothing of it is
left out. These texts and their positions are the frames that a scanner gives, by itself or by way
of another thread.

Results:
1. `Segments`: a text and the frames that it is cut into; `Segments.unique` says that there is one
   way only, `Segments.flatMap_text` that nothing is left out.
2. `segments_of_munches`: maximal munch by the document patterns.
3. `Document.segments_frames`: the frames of a document.
-/

namespace ScrapeConfig

open Rule (Cuts)

/-- The text, which begins at a position, is cut into these frames, the end of it included. -/
inductive Segments : Position → List Char → List Frame → Prop
  | finish {p : Position} : Segments p [] [.finish p]
  | piece {p : Position} {i : Nat} {cs text rest : List Char} {fs : List Frame} :
      cs = text ++ rest → Cuts i text rest → Segments (p.past text) rest fs →
      Segments p cs (⟨some i, text, p⟩ :: fs)

theorem Segments.unique {p : Position} {cs : List Char} {fs fs' : List Frame}
    (h : Segments p cs fs) (h' : Segments p cs fs') : fs = fs' := by
  induction h generalizing fs' with
  | finish => cases h' with
    | finish => rfl
    | piece heq cut _ =>
      exact absurd (List.append_eq_nil_iff.mp heq.symm).1 (Rule.denotes_ne_nil cut.denotes)
  | piece heq cut _ ih => cases h' with
    | finish => exact absurd (List.append_eq_nil_iff.mp heq.symm).1 (Rule.denotes_ne_nil cut.denotes)
    | piece heq' cut' behind' =>
      obtain ⟨rfl, rfl, rfl⟩ := cut.unique cut' (heq.symm.trans heq')
      rw [ih behind']

namespace Segments

variable {p : Position} {cs : List Char} {fs : List Frame}

/-- The texts of the frames are all of the text. -/
theorem flatMap_text (h : Segments p cs fs) : fs.flatMap (·.text) = cs := by
  induction h with
  | finish => rfl
  | piece heq _ _ ih => rw [List.flatMap_cons, ih, heq]

/-- A frame with a pattern was cut off by the rule of this pattern. -/
theorem exists_cut (h : Segments p cs fs) {f : Frame} (hf : f ∈ fs) {i : Nat}
    (hi : f.pattern = some i) : ∃ rest, Cuts i f.text rest := by
  induction h with
  | finish =>
    obtain rfl := List.mem_singleton.mp hf
    exact nomatch hi
  | piece heq cut _ ih =>
    rcases List.mem_cons.mp hf with rfl | hf
    · obtain rfl := Option.some.inj hi
      exact ⟨_, cut⟩
    · exact ih hf

end Segments

variable {set : PatternSet}

/-- Maximal munch by the document patterns cuts a text up by their rules, by induction on the
frames. Nothing is dropped, since something can be cut off any text that is not empty. -/
theorem segments_of_munches (hset : Rule.documentPatterns = .ok set) {before rest : List Char}
    {fs : List Frame} (h : Munches set before rest fs) : Segments (.behind before) rest fs := by
  induction h with
  | finish => exact .finish
  | @frame before text rest m fs found length _ ih =>
    have positive := PatternSet.longestMatch_pos found
    have nonempty : text ≠ [] := List.length_pos_iff.mp (length ▸ positive)
    obtain ⟨pattern, n⟩ := m
    obtain rfl : text.length = n := length
    rw [← Position.past_behind] at ih
    exact .piece rfl ((Rule.longestMatch_iff hset _ nonempty).mp found) ih
  | @drop before rest c fs nothing _ _ =>
    obtain ⟨_, hset', _, sound⟩ := Rule.documentPatterns_eq_ok
    obtain rfl := Except.ok.inj (hset.symm.trans hset')
    obtain ⟨i, text, rest', heq, cut⟩ := Rule.exists_cut (List.cons_ne_nil c rest)
    have nonempty := Rule.denotes_ne_nil cut.denotes
    have found := (Rule.longestMatch_iff hset before.isEmpty nonempty).mpr cut
    have none := (PatternSet.longestMatch_eq_none_iff sound (List.cons_ne_nil c rest)).mpr nothing
    rw [← heq, none] at found
    exact nomatch found

/-- The frames of a document, by way of another thread or not. -/
theorem Document.segments_frames (hset : Rule.documentPatterns = .ok set) (threaded : Bool)
    (source : String) : Segments {} source.toList (frames set threaded source) := by
  obtain ⟨_, hset', _, sound⟩ := Rule.documentPatterns_eq_ok
  obtain rfl := Except.ok.inj (hset.symm.trans hset')
  have segments := segments_of_munches hset (munches_frames sound [] source.toList)
  cases threaded with
  | false => exact segments
  | true =>
    show Segments _ _ (Scanner.spawn _).drain.1
    rw [Scanner.drain_spawn]
    exact segments

end ScrapeConfig
