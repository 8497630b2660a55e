import ScrapeConfig.Proofs.Scan.Frames
import ScrapeConfig.Proofs.Scan.LongestMatch
import ScrapeConfig.Proofs.Text.Position

/-!
# Maximal munch

A scanner goes over its input from left to right. Where the race of its patterns finds a match, the
text of the match becomes a frame; where no pattern matches a text that is not empty, one character
is dropped.

Results:
1. `Munches`: the frames of what is left of an input, said without a scanner.
2. `munches_frames`, `Munches.eq_frames`: these are the frames of a scanner, wherever it stands in
   its input, and there is one way only.
3. `Munches.slice`, `Munches.pairwise`, `Munches.ends`: what the frames of an input look like.
4. `Scanner.next?_after`: what a scanner answers when it is asked again and again.
5. `Scanner.frames_munch`: all of this for a scanner at the start of its input.
-/

namespace ScrapeConfig

/-- `Munches set before rest frames`: the frames of `rest`, which is what is left of an input behind
`before`. -/
inductive Munches (set : PatternSet) : (before rest : List Char) → List Frame → Prop
  | finish {before : List Char} : Munches set before [] [.finish (.behind before)]
  | frame {before text rest : List Char} {m : Match} {fs : List Frame} :
      set.longestMatch before.isEmpty (text ++ rest) = some m → text.length = m.length →
      Munches set (before ++ text) rest fs →
      Munches set before (text ++ rest) (⟨some m.pattern, text, .behind before⟩ :: fs)
  | drop {before rest : List Char} {c : Char} {fs : List Frame} :
      (∀ p ∈ set.patterns, ∀ n, 0 < n → ¬ p.expr.Matches before.isEmpty (c :: rest) 0 n) →
      Munches set (before ++ [c]) rest fs → Munches set before (c :: rest) fs

variable {set : PatternSet} {before rest : List Char} {fs fs' : List Frame}

/-! ## Matches and the text in front -/

section

variable (hset : ∀ p ∈ set.patterns, p.Sound)

include hset

theorem PatternSet.longestMatch_le {fresh : Bool} (hrest : rest ≠ []) {m : Match}
    (h : set.longestMatch fresh rest = some m) : m.length ≤ rest.length := by
  have best := set.longestMatch_best hset fresh hrest
  rw [h] at best
  obtain ⟨⟨_, p, _, matched⟩, _⟩ := best
  exact matched.mono.2 (Nat.zero_le _)

/-- No match is found if and only if no pattern matches a text that is not empty. -/
theorem PatternSet.longestMatch_eq_none_iff {fresh : Bool} (hrest : rest ≠ []) :
    set.longestMatch fresh rest = none ↔
      ∀ p ∈ set.patterns, ∀ n, 0 < n → ¬ p.expr.Matches fresh rest 0 n := by
  have best := set.longestMatch_best hset fresh hrest
  constructor
  · intro h p hp n hn matched
    rw [h] at best
    obtain ⟨i, hi, rfl⟩ := List.getElem_of_mem hp
    exact best ⟨i, n⟩ ⟨hn, _, List.getElem?_eq_getElem hi, matched⟩
  · intro h
    have nothing : Match.Best (Pattern.Wins set.patterns fresh rest) none := by
      rintro m ⟨hm, p, hp, matched⟩
      exact h p (List.mem_of_getElem? hp) m.length hm matched
    exact best.unique nothing

end

/-! ## The frames of a scanner -/

/-- A scanner with `rest` left to scan, behind `before`. -/
def Scanner.behind (set : PatternSet) (before rest : List Char) : Scanner :=
  ⟨set, rest, .behind before, before.isEmpty, false⟩

namespace Scanner

theorem isEmpty_append (before : List Char) {text : List Char} (h : text ≠ []) :
    (before ++ text).isEmpty = false :=
  List.isEmpty_eq_false_iff.mpr (List.append_ne_nil_of_right_ne_nil before h)

theorem next?_behind_nil : (behind set before []).next? =
    some (.finish (.behind before), ⟨set, [], .behind before, before.isEmpty, true⟩) := rfl

theorem next?_behind_match {text : List Char} {m : Match}
    (h : set.longestMatch before.isEmpty (text ++ rest) = some m) (hl : text.length = m.length) :
    (behind set before (text ++ rest)).next? =
      some (⟨some m.pattern, text, .behind before⟩, behind set (before ++ text) rest) := by
  have positive := PatternSet.longestMatch_pos h
  have nonempty : text ≠ [] := List.length_pos_iff.mp (by omega)
  obtain ⟨c, text, rfl⟩ := List.exists_cons_of_ne_nil nonempty
  rw [behind, behind, isEmpty_append before nonempty, ← Position.past_behind, next?, if_neg nofun,
    List.cons_append]
  simp only [seek, ← List.cons_append, h, ← hl, List.take_left, List.drop_left]

theorem next?_behind_drop {c : Char} (h : set.longestMatch before.isEmpty (c :: rest) = none) :
    (behind set before (c :: rest)).next? = (behind set (before ++ [c]) rest).next? := by
  rw [behind, behind, isEmpty_append before (List.cons_ne_nil c []), ← Position.next_behind, next?,
    next?, if_neg nofun, if_neg nofun]
  simp only [seek, h]

theorem frames_congr {s t : Scanner} (h : s.next? = t.next?) : s.frames = t.frames := by
  cases hs : s.next? with
  | none => rw [frames_of_none hs, frames_of_none (h.symm.trans hs)]
  | some next => rw [frames_of_next? hs, frames_of_next? (h.symm.trans hs)]

end Scanner

section

variable (hset : ∀ p ∈ set.patterns, p.Sound)

include hset

/-- The frames of a scanner, by induction on how much is left: a frame and a dropped character both
leave less. -/
theorem munches_frames (before rest : List Char) :
    Munches set before rest (Scanner.behind set before rest).frames := by
  induction h : rest.length using Nat.strongRecOn generalizing before rest with
  | _ n ih =>
    subst h
    cases rest with
    | nil =>
      rw [Scanner.frames_of_next? Scanner.next?_behind_nil, Scanner.frames_of_none rfl]
      exact .finish
    | cons c rest =>
      cases found : set.longestMatch before.isEmpty (c :: rest) with
      | none =>
        rw [Scanner.frames_congr (Scanner.next?_behind_drop found)]
        refine .drop ?_ (ih rest.length (Nat.lt_succ_self _) _ _ rfl)
        exact (PatternSet.longestMatch_eq_none_iff hset (List.cons_ne_nil c rest)).mp found
      | some m =>
        have positive := PatternSet.longestMatch_pos found
        have within := PatternSet.longestMatch_le hset (List.cons_ne_nil c rest) found
        have split := List.take_append_drop m.length (c :: rest)
        have length : ((c :: rest).take m.length).length = m.length := by
          rw [List.length_take, Nat.min_eq_left within]
        rw [← split] at found ⊢
        rw [Scanner.frames_of_next? (Scanner.next?_behind_match found length)]
        refine .frame found length (ih _ ?_ _ _ rfl)
        rw [split, List.length_drop, List.length_cons] at *
        omega

/-- What is left of an input has one list of frames only, by induction on how it is cut up. -/
theorem Munches.eq_frames (h : Munches set before rest fs) :
    fs = (Scanner.behind set before rest).frames := by
  induction h with
  | finish => rw [Scanner.frames_of_next? Scanner.next?_behind_nil, Scanner.frames_of_none rfl]
  | frame found length _ ih =>
    rw [Scanner.frames_of_next? (Scanner.next?_behind_match found length), ← ih]
  | drop nothing _ ih =>
    have found := (PatternSet.longestMatch_eq_none_iff hset (List.cons_ne_nil _ _)).mpr nothing
    rw [Scanner.frames_congr (Scanner.next?_behind_drop found), ← ih]

end

/-! ## What frames look like -/

namespace Munches

/-- Every frame is a slice of the input, at the place that counting gives. -/
theorem slice (h : Munches set before rest fs) {f : Frame} (hf : f ∈ fs) :
    ∃ front back, before ++ rest = front ++ f.text ++ back ∧ f.position = .behind front ∧
      before <+: front := by
  induction h with
  | @finish before =>
    obtain rfl := List.mem_singleton.mp hf
    exact ⟨before, [], (List.append_nil (before ++ [])).symm, rfl, List.prefix_rfl⟩
  | @frame before text rest m fs found length _ ih =>
    rcases List.mem_cons.mp hf with rfl | hf
    · exact ⟨before, rest, (List.append_assoc ..).symm, rfl, List.prefix_rfl⟩
    · obtain ⟨front, back, split, place, behind⟩ := ih hf
      rw [List.append_assoc] at split
      exact ⟨front, back, split, place, (List.prefix_append before text).trans behind⟩
  | @drop before rest c fs nothing _ ih =>
    obtain ⟨front, back, split, place, behind⟩ := ih hf
    rw [List.append_assoc] at split
    exact ⟨front, back, split, place, (List.prefix_append before [c]).trans behind⟩

theorem byteLength_le (h : Munches set before rest fs) {f : Frame} (hf : f ∈ fs) :
    byteLength before ≤ f.position.offset := by
  obtain ⟨front, _, _, place, more, rfl⟩ := h.slice hf
  rw [place, Position.behind, byteLength_append]
  exact Nat.le_add_right _ _

/-- Frames do not overlap, and they come in the order of the input. -/
theorem pairwise (h : Munches set before rest fs) :
    fs.Pairwise fun f g => f.span.stop ≤ g.position.offset := by
  induction h with
  | finish => exact List.pairwise_singleton _ _
  | frame found length behind ih =>
    refine List.pairwise_cons.mpr ⟨fun g hg => ?_, ih⟩
    rw [Frame.span, Span.stop_covering]
    exact behind.byteLength_le hg
  | drop _ _ ih => exact ih

/-- The end of the input is the last frame, and no other frame is empty or without a pattern. -/
theorem ends (h : Munches set before rest fs) :
    ∃ init, fs = init ++ [.finish (.behind (before ++ rest))] ∧
      ∀ f ∈ init, f.pattern.isSome ∧ f.text ≠ [] := by
  induction h with
  | @finish before => exact ⟨[], by rw [List.append_nil]; rfl, nofun⟩
  | @frame before text rest m fs found length _ ih =>
    obtain ⟨init, rfl, frames⟩ := ih
    have positive := PatternSet.longestMatch_pos found
    have nonempty : text ≠ [] := List.length_pos_iff.mp (by omega)
    rw [List.append_assoc]
    exact ⟨_ :: init, rfl, List.forall_mem_cons.mpr ⟨⟨rfl, nonempty⟩, frames⟩⟩
  | drop _ _ ih =>
    obtain ⟨init, rfl, frames⟩ := ih
    rw [List.append_assoc]
    exact ⟨init, rfl, frames⟩

end Munches

/-! ## Asking again and again -/

namespace Scanner

/-- The scanner after it has been asked `k` times. -/
def after (s : Scanner) : (k : Nat) → Scanner
  | 0 => s
  | k + 1 => match s.next? with
    | none => s
    | some (_, t) => t.after k

/-- The answers of a scanner are its frames, and behind the last one there are none. -/
theorem next?_after (s : Scanner) (k : Nat) : ((s.after k).next?).map (·.1) = s.frames[k]? := by
  induction k generalizing s with
  | zero =>
    cases hs : s.next? with
    | none => rw [frames_of_none hs, after, hs]; rfl
    | some next => rw [frames_of_next? hs, after, hs]; rfl
  | succ k ih =>
    rw [after]
    cases hs : s.next? with
    | none => simp only [hs, frames_of_none hs]; rfl
    | some next => simp only [frames_of_next? hs, ih, List.getElem?_cons_succ]

/-- The frames of a scanner are the segmentation of its input by maximal munch: slices at the places
that counting gives, one behind the other, with the end of the input as the only frame without a
pattern at the end. A scanner that is asked again and again gives them in order and then nothing
more. -/
theorem frames_munch (hset : set.Compiled) (source : String) :
    (∀ fs, Munches set [] source.toList fs ↔ fs = (new set source).frames) ∧
      (∀ f ∈ (new set source).frames, ∃ front back,
        source.toList = front ++ f.text ++ back ∧ f.position = .behind front) ∧
      (new set source).frames.Pairwise (fun f g => f.span.stop ≤ g.position.offset) ∧
      (∃ init, (new set source).frames = init ++ [.finish (.behind source.toList)] ∧
        ∀ f ∈ init, f.pattern.isSome ∧ f.text ≠ []) ∧
      ∀ k, (((new set source).after k).next?).map (·.1) = (new set source).frames[k]? := by
  have munches := munches_frames hset.sound [] source.toList
  refine ⟨fun fs => ⟨fun h => h.eq_frames hset.sound, fun h => h ▸ munches⟩, fun f hf => ?_,
    munches.pairwise, munches.ends, next?_after _⟩
  obtain ⟨front, back, split, place, _⟩ := munches.slice hf
  exact ⟨front, back, split, place⟩

/-- The first pattern can match the empty text, which is no frame, and `^` holds only once. -/
theorem frames_munch_dropping :
    ∃ set, set.Compiled ∧ (new set "\naa\nxé").frames = [
      ⟨some 0, ['\n'], ⟨0, 1, 1⟩⟩, ⟨some 0, ['a', 'a'], ⟨1, 2, 1⟩⟩, ⟨some 1, ['é'], ⟨5, 3, 2⟩⟩,
      .finish ⟨7, 3, 3⟩] := by
  have compiled : ∃ p q, Pattern.compile "^\\n|a*" false = .ok p ∧
      Pattern.compile "é+$" false = .ok q ∧
      PatternSet.longestMatch ⟨[p, q]⟩ true ['\n', 'a', 'a', '\n', 'x', 'é'] = some ⟨0, 1⟩ ∧
      PatternSet.longestMatch ⟨[p, q]⟩ false ['a', 'a', '\n', 'x', 'é'] = some ⟨0, 2⟩ ∧
      PatternSet.longestMatch ⟨[p, q]⟩ false ['\n', 'x', 'é'] = none ∧
      PatternSet.longestMatch ⟨[p, q]⟩ false ['x', 'é'] = none ∧
      PatternSet.longestMatch ⟨[p, q]⟩ false ['é'] = some ⟨1, 1⟩ :=
    ⟨_, _, rfl, rfl, by decide +kernel⟩
  obtain ⟨p, q, hp, hq, first, second, dropped, dropped', last⟩ := compiled
  have hset : PatternSet.Compiled ⟨[p, q]⟩ :=
    List.forall_mem_cons.mpr ⟨⟨_, _, hp⟩, List.forall_mem_singleton.mpr ⟨_, _, hq⟩⟩
  have nothing := fun c rest =>
    (@PatternSet.longestMatch_eq_none_iff _ (c :: rest) hset.sound false nofun).mp
  have atEnd := @Munches.frame ⟨[p, q]⟩ ['\n', 'a', 'a', '\n', 'x'] ['é'] [] _ _ last rfl .finish
  have atLetter := @Munches.drop _ ['\n', 'a', 'a', '\n'] _ _ _ (nothing _ _ dropped') atEnd
  have atBreak := @Munches.drop _ ['\n', 'a', 'a'] _ _ _ (nothing _ _ dropped) atLetter
  have atLetters := @Munches.frame _ ['\n'] ['a', 'a'] _ _ _ second rfl atBreak
  have atStart := @Munches.frame _ [] ['\n'] _ _ _ first rfl atLetters
  exact ⟨⟨[p, q]⟩, hset, (((frames_munch hset "\naa\nxé").1 _).mp atStart).symm⟩

end Scanner

end ScrapeConfig
