import Mathlib.Logic.Relation
import ScrapeConfig.Proofs.Pattern.Meaning

/-!
# The texts of a pattern expression

An expression without anchors does not look at what stands around a match. It denotes a set of
texts, and it matches wherever one of these texts stands.

Results:
1. `Expr.Denotes`: the texts, by recursion on the expression.
2. `Expr.matches_iff_denotes`: a match from `i` to `j` is such a text between these positions.
3. `Expr.matches_zero_iff`: a match at the front of an input is such a text at its front.
-/

namespace ScrapeConfig

open Relation (ReflTransGen TransGen)

namespace Expr

/-- No anchor occurs in the expression. -/
def Plain (e : Expr) : Prop := e.All fun l => l ≠ .startAnchor ∧ l ≠ .endAnchor

instance : DecidablePred Plain := fun e =>
  decidableAll (fun l => l ≠ .startAnchor ∧ l ≠ .endAnchor) e

mutual

/-- `e.Denotes u`: the text `u` is one of those that the expression stands for. -/
def Denotes : Expr → List Char → Prop
  | .empty, u => u = []
  | .symbols rs, u => ∃ c, u = [c] ∧ CodeRange.covers rs c.toNat
  | .startAnchor, _ => False
  | .endAnchor, _ => False
  | .seq es, u => DenotesInTurn es u
  | .alt es, u => DenotesOneOf es u
  | .star a, u => ∃ xs : List (List Char), u = xs.flatten ∧ ∀ x ∈ xs, a.Denotes x
  | .plus a, u => ∃ xs : List (List Char), xs ≠ [] ∧ u = xs.flatten ∧ ∀ x ∈ xs, a.Denotes x
  | .opt a, u => u = [] ∨ a.Denotes u

/-- The text consists of texts of the expressions, one behind the other. -/
def DenotesInTurn : List Expr → List Char → Prop
  | [], u => u = []
  | e :: es, u => ∃ x y, u = x ++ y ∧ e.Denotes x ∧ DenotesInTurn es y

/-- The text is one of those of the expressions. -/
def DenotesOneOf : List Expr → List Char → Prop
  | [], _ => False
  | e :: es, u => e.Denotes u ∨ DenotesOneOf es u

end

/-- A text that `P` holds of stands in `w` from position `i` to position `j`. -/
def Stands (P : List Char → Prop) (w : List Char) (i j : Nat) : Prop :=
  ∃ u y, w.drop i = u ++ y ∧ j = i + u.length ∧ P u

variable {w : List Char} {P Q : List Char → Prop} {i j k : Nat}

theorem Stands.le (h : Stands P w i j) (hi : i ≤ w.length) : j ≤ w.length := by
  obtain ⟨u, y, hw, rfl, _⟩ := h
  have := congrArg List.length hw
  simp only [List.length_drop, List.length_append] at this
  omega

theorem stands_append :
    (∃ k, Stands P w i k ∧ Stands Q w k j) ↔
      Stands (fun u => ∃ x y, u = x ++ y ∧ P x ∧ Q y) w i j := by
  constructor
  · rintro ⟨_, ⟨x, rest, hw, rfl, hx⟩, y, z, hw', rfl, hy⟩
    obtain rfl : rest = y ++ z := by
      rw [← hw', ← List.drop_drop, hw, List.drop_left]
    exact ⟨x ++ y, z, by rw [hw, List.append_assoc], by rw [List.length_append, Nat.add_assoc],
      x, y, rfl, hx, hy⟩
  · rintro ⟨_, z, hw, rfl, x, y, rfl, hx, hy⟩
    rw [List.append_assoc] at hw
    refine ⟨_, ⟨x, y ++ z, hw, rfl, hx⟩, y, z, ?_, ?_, hy⟩
    · rw [← List.drop_drop, hw, List.drop_left]
    · rw [List.length_append, Nat.add_assoc]

theorem stands_flatten_of_transGen (h : TransGen (Stands P w) i j) :
    Stands (fun u => ∃ xs : List (List Char), xs ≠ [] ∧ u = xs.flatten ∧ ∀ x ∈ xs, P x) w i j := by
  induction h with
  | single h =>
    obtain ⟨u, y, hw, hj, hu⟩ := h
    exact ⟨u, y, hw, hj, [u], by simp, by simp, by simpa using hu⟩
  | tail _ h ih =>
    obtain ⟨u, z, hw, hj, x, y, rfl, ⟨xs, _, rfl, hxs⟩, hy⟩ := stands_append.mp ⟨_, ih, h⟩
    refine ⟨_, z, hw, hj, xs ++ [y], by simp, by simp, ?_⟩
    simpa [or_imp, forall_and] using ⟨hxs, hy⟩

/-- The first of several texts, and the place where the others stand. -/
theorem stands_flatten_cons {x : List Char} {xs : List (List Char)} {y : List Char}
    (hw : w.drop i = (x :: xs).flatten ++ y) (hx : P x) :
    Stands P w i (i + x.length) ∧ w.drop (i + x.length) = xs.flatten ++ y := by
  rw [List.flatten_cons, List.append_assoc] at hw
  refine ⟨⟨x, _, hw, rfl, hx⟩, ?_⟩
  rw [← List.drop_drop, hw, List.drop_left]

theorem reflTransGen_of_stands_flatten {xs : List (List Char)} {y : List Char}
    (hw : w.drop i = xs.flatten ++ y) (hxs : ∀ x ∈ xs, P x) :
    ReflTransGen (Stands P w) i (i + xs.flatten.length) := by
  induction xs generalizing i with
  | nil => exact .refl
  | cons x xs ih =>
    obtain ⟨hx, hxs⟩ := List.forall_mem_cons.mp hxs
    obtain ⟨stands, behind⟩ := stands_flatten_cons hw hx
    have rest := ih behind hxs
    rw [Nat.add_assoc, ← List.length_append] at rest
    exact .head stands rest

theorem transGen_of_stands_flatten {xs : List (List Char)} {y : List Char} (hne : xs ≠ [])
    (hw : w.drop i = xs.flatten ++ y) (hxs : ∀ x ∈ xs, P x) :
    TransGen (Stands P w) i (i + xs.flatten.length) := by
  obtain ⟨x, xs, rfl⟩ := List.exists_cons_of_ne_nil hne
  obtain ⟨hx, hxs⟩ := List.forall_mem_cons.mp hxs
  obtain ⟨stands, behind⟩ := stands_flatten_cons hw hx
  have rest := reflTransGen_of_stands_flatten behind hxs
  rw [Nat.add_assoc, ← List.length_append] at rest
  exact .head' stands rest

variable {fresh : Bool}

/-- The rounds of a repetition are texts that stand one behind the other. -/
theorem rounds_iff {e : Expr} (ih : ∀ {i j}, i ≤ w.length →
    (e.Matches fresh w i j ↔ Stands e.Denotes w i j)) (hi : i ≤ w.length) :
    TransGen (e.Matches fresh w) i j ↔ TransGen (Stands e.Denotes w) i j := by
  constructor
  · intro h
    induction h with
    | single h => exact .single ((ih hi).mp h)
    | tail hik h ih' =>
      have hk := (Matches.mono (e := .plus e) hik).2 hi
      exact .tail ih' ((ih hk).mp h)
  · intro h
    have inside : ∀ {k}, TransGen (Stands e.Denotes w) i k → k ≤ w.length := fun h => by
      induction h with
      | single h => exact h.le hi
      | tail _ h ih' => exact h.le ih'
    induction h with
    | single h => exact .single ((ih hi).mpr h)
    | tail hik h ih' => exact .tail ih' ((ih (inside hik)).mpr h)

theorem matches_iff_denotes {e : Expr} (he : e.Plain) (hi : i ≤ w.length) :
    e.Matches fresh w i j ↔ Stands e.Denotes w i j := by
  induction e using induction_cons generalizing i j with
  | empty | seqNil =>
    constructor
    · rintro rfl
      exact ⟨[], _, rfl, rfl, rfl⟩
    · rintro ⟨u, y, _, rfl, rfl⟩
      rfl
  | symbols rs =>
    constructor
    · rintro ⟨c, hc, hrs, rfl⟩
      obtain ⟨hlt, rfl⟩ := List.getElem?_eq_some_iff.mp hc
      exact ⟨[w[i]], _, List.drop_eq_getElem_cons hlt, rfl, _, rfl, hrs⟩
    · rintro ⟨_, y, hw, rfl, c, rfl, hrs⟩
      refine ⟨c, ?_, hrs, rfl⟩
      rw [← List.head?_drop, hw]
      rfl
  | startAnchor => exact (he.1 rfl).elim
  | endAnchor => exact (he.2 rfl).elim
  | seqCons a es iha ihs =>
    rw [show Stands (Denotes (.seq (a :: es))) w i j ↔ _ from stands_append.symm]
    refine exists_congr fun k => ?_
    rw [iha he.1 hi]
    exact and_congr_right fun ha => ihs he.2 (ha.le hi)
  | altNil => exact iff_of_false id fun ⟨_, _, _, _, nothing⟩ => nothing
  | altCons a es iha ihs =>
    constructor
    · rintro (h | h)
      · obtain ⟨u, y, hw, hj, hu⟩ := (iha he.1 hi).mp h
        exact ⟨u, y, hw, hj, .inl hu⟩
      · obtain ⟨u, y, hw, hj, hu⟩ := (ihs he.2 hi).mp h
        exact ⟨u, y, hw, hj, .inr hu⟩
    · rintro ⟨u, y, hw, hj, hu | hu⟩
      · exact .inl ((iha he.1 hi).mpr ⟨u, y, hw, hj, hu⟩)
      · exact .inr ((ihs he.2 hi).mpr ⟨u, y, hw, hj, hu⟩)
  | star a ih =>
    simp only [Matches, Relation.reflTransGen_iff_eq_or_transGen, rounds_iff (ih he) hi]
    constructor
    · rintro (rfl | h)
      · exact ⟨[], _, rfl, rfl, [], rfl, by simp⟩
      · obtain ⟨u, y, hw, hj, xs, _, hu, hxs⟩ := stands_flatten_of_transGen h
        exact ⟨u, y, hw, hj, xs, hu, hxs⟩
    · rintro ⟨_, y, hw, rfl, xs, rfl, hxs⟩
      exact Relation.reflTransGen_iff_eq_or_transGen.mp (reflTransGen_of_stands_flatten hw hxs)
  | plus a ih =>
    simp only [Matches, rounds_iff (ih he) hi]
    constructor
    · exact stands_flatten_of_transGen
    · rintro ⟨_, y, hw, rfl, xs, hne, rfl, hxs⟩
      exact transGen_of_stands_flatten hne hw hxs
  | opt a ih =>
    simp only [Matches, ih he hi]
    constructor
    · rintro (rfl | ⟨u, y, hw, hj, hu⟩)
      · exact ⟨[], _, rfl, rfl, .inl rfl⟩
      · exact ⟨u, y, hw, hj, .inr hu⟩
    · rintro ⟨u, y, hw, rfl, rfl | hu⟩
      · exact .inl rfl
      · exact .inr ⟨u, y, hw, rfl, hu⟩

/-- A match at the front of an input. -/
theorem matches_zero_iff {e : Expr} (he : e.Plain) :
    e.Matches fresh w 0 j ↔ ∃ u y, w = u ++ y ∧ j = u.length ∧ e.Denotes u := by
  rw [matches_iff_denotes he (Nat.zero_le _)]
  simp only [Stands, List.drop_zero, Nat.zero_add]

end Expr

end ScrapeConfig
