import ScrapeConfig.Proofs.Pattern.Derivation
import ScrapeConfig.Proofs.Pattern.EmptyInput
import ScrapeConfig.Proofs.Pattern.Recasing

/-!
# Patterns without regard to case

Folding is done class by class and before a class is negated, so all classes of a folded pattern
admit either case, and those that are not negated cover nothing else than the characters written and
the other case of the letters among them.

Results:
1. `Pattern.Tree.rel_admits`, `Pattern.Tree.rel_folds`: the classes of a folded expression.
2. `Pattern.Sound.accepts_nil_congr`: on the empty input, patterns of one shape do the same.
3. `Pattern.compile_folded`: a folded pattern finds the same in recased inputs, and without negated
   classes it accepts what its source accepts in some casing.
-/

namespace ScrapeConfig

open CodeRange (covers OtherCase)

/-! ## Folded classes -/

theorem CodeRange.OtherCase.exists_char {m n : Nat} (h : OtherCase m n) : ∃ c : Char, c.toNat = m := by
  have ascii : m < 128 := by
    rw [otherCase_iff] at h
    omega
  have valid : m.isValidChar := .inl (Nat.lt_trans ascii (by decide))
  exact ⟨Char.ofNatAux m valid, rfl⟩

theorem CodeRange.OtherCase.isAlpha {c : Char} {n : Nat} (h : OtherCase c.toNat n) : c.isAlpha := by
  rcases h with ⟨low, high, _⟩ | ⟨low, high, _⟩
  · exact Bool.or_eq_true_iff.mpr (.inl (decide_eq_true ⟨low, high⟩))
  · exact Bool.or_eq_true_iff.mpr
      (.inr (Bool.and_eq_true_iff.mpr ⟨decide_eq_true low, decide_eq_true high⟩))

namespace Expr

variable {rs rs' : List CodeRange}

theorem folds_of_covers (h : ∀ c, covers rs' c ↔ covers (CodeRange.foldCase rs) c) : Folds rs rs' := by
  intro d
  rw [h, CodeRange.covers_foldCase]
  constructor
  · rintro (covered | ⟨m, covered, other⟩)
    · exact ⟨d, .refl d, covered⟩
    · obtain ⟨c, rfl⟩ := other.exists_char
      exact ⟨c, .inr other.symm, covered⟩
  · rintro ⟨c, rfl | other, covered⟩
    · exact .inl covered
    · exact .inr ⟨_, covered, other.symm⟩

theorem folds_anySymbol :
    Folds [⟨0, 0x09⟩, ⟨0x0B, CodeRange.last⟩] [⟨0, 0x09⟩, ⟨0x0B, CodeRange.last⟩] := by
  refine folds_of_covers fun c => ?_
  simp only [CodeRange.covers_foldCase, CodeRange.covers_cons, CodeRange.not_covers_nil, or_false,
    CodeRange.otherCase_iff, CodeRange.last]
  constructor
  · exact .inl
  · rintro (covered | ⟨m, _, other⟩)
    · exact covered
    · omega

theorem folds_literal (c : Char) : Rel Folds (literal false c) (literal true c) := by
  refine .symbols (folds_of_covers fun n => ?_)
  rw [Bool.true_and]
  split
  · exact CodeRange.covers_normalize
  · next letter =>
    have caseless : ∀ m, covers [CodeRange.single c] m → ¬ OtherCase m n := by
      intro m covered other
      obtain ⟨r, hr, hm⟩ := CodeRange.covers_iff.mp covered
      rw [List.mem_singleton.mp hr] at hm
      obtain rfl : m = c.toNat := Nat.le_antisymm hm.2 hm.1
      exact letter other.isAlpha
    rw [CodeRange.covers_foldCase]
    refine ⟨.inl, ?_⟩
    rintro (covered | ⟨m, covered, other⟩)
    · exact covered
    · exact (caseless m covered other).elim

theorem folds_bracket (ranges : List CodeRange) :
    Rel Folds (bracket false false ranges) (bracket true false ranges) := by
  refine .symbols fun d => ?_
  have folds := @folds_of_covers ranges _ (fun _ => CodeRange.covers_normalize) d
  simpa only [CodeRange.covers_normalize, Bool.false_eq_true, if_false, if_true] using folds

theorem admits_complement {ranges : List CodeRange} (valid : ∀ r ∈ ranges, r.Valid) :
    Admits (CodeRange.complement (CodeRange.normalize (CodeRange.foldCase ranges)))
      (CodeRange.complement (CodeRange.normalize (CodeRange.foldCase ranges))) := by
  have normal := CodeRange.normal_normalize (CodeRange.valid_foldCase valid)
  have folds : Folds ranges (CodeRange.normalize (CodeRange.foldCase ranges)) :=
    folds_of_covers fun _ => CodeRange.covers_normalize
  intro c d same covered
  rw [CodeRange.covers_complement normal] at covered ⊢
  exact ⟨CodeRange.toNat_le_last d, fun other => covered.2 (folds.admits_self d c same.symm other)⟩

theorem admits_bracket (negated : Bool) {ranges : List CodeRange} (valid : ∀ r ∈ ranges, r.Valid) :
    Rel Admits (bracket true negated ranges) (bracket true negated ranges) := by
  cases negated with
  | false => exact (folds_bracket ranges).admits.2
  | true => exact .symbols (admits_complement valid)

end Expr

/-! ## The empty input -/

/-- Expressions of one shape are the same over the two anchors. -/
theorem Expr.Rel.overAnchors_eq {R : List CodeRange → List CodeRange → Prop} {e e' : Expr}
    (h : Rel R e e') : e.overAnchors = e'.overAnchors := by
  induction h with
  | empty | symbols | startAnchor | endAnchor | seqNil | altNil => rfl
  | seqCons _ _ iha ihs => exact congrArg₂ (fun a es => Expr.seq (a :: es)) iha (Expr.seq.inj ihs)
  | altCons _ _ iha ihs => exact congrArg₂ (fun a es => Expr.alt (a :: es)) iha (Expr.alt.inj ihs)
  | star _ ih => exact congrArg Expr.star ih
  | plus _ ih => exact congrArg Expr.plus ih
  | opt _ ih => exact congrArg Expr.opt ih

namespace Pattern

/-- Patterns with expressions of one shape do the same with the empty input. -/
theorem Sound.accepts_nil_congr {p p' : Pattern} {R : List CodeRange → List CodeRange → Prop}
    (hp : p.Sound) (hp' : p'.Sound) (h : Expr.Rel R p.expr p'.expr) {n : Nat} :
    p.Accepts [] n ↔ p'.Accepts [] n := by
  rw [hp.accepts_nil_iff, hp'.accepts_nil_iff]
  simp only [Expr.PassesInOrder, Expr.Passes, h.overAnchors_eq]

namespace Tree

mutual

/-- No class of the tree is negated. -/
def Affirmative : Tree → Prop
  | .bracket negated _ => negated = false
  | .seq ts => AllAffirmative ts
  | .alt ts => AllAffirmative ts
  | .repeated _ t => t.Affirmative
  | _ => True

def AllAffirmative : List Tree → Prop
  | [] => True
  | t :: ts => t.Affirmative ∧ AllAffirmative ts

end

theorem allAffirmative_iff {ts : List Tree} : AllAffirmative ts ↔ ∀ t ∈ ts, t.Affirmative := by
  induction ts with
  | nil => exact iff_of_true trivial (List.forall_mem_nil _)
  | cons t ts ih => rw [AllAffirmative, ih, List.forall_mem_cons]

section

variable {R : List CodeRange → List CodeRange → Prop} {fold fold' : Bool} {ts : List Tree}

theorem rel_repeated (how : Quantifier) {e e' : Expr} (h : Expr.Rel R e e') :
    Expr.Rel R (how.apply e) (how.apply e') := by
  cases how with
  | star => exact .star h
  | plus => exact .plus h
  | opt => exact .opt h

theorem rel_seq (h : ∀ t ∈ ts, Expr.Rel R (t.expr fold) (t.expr fold')) :
    Expr.Rel R ((seq ts).expr fold) ((seq ts).expr fold') := by
  induction ts with
  | nil => exact .seqNil
  | cons t ts ih =>
    obtain ⟨first, rest⟩ := List.forall_mem_cons.mp h
    exact .seqCons first (ih rest)

theorem rel_alt (h : ∀ t ∈ ts, Expr.Rel R (t.expr fold) (t.expr fold')) :
    Expr.Rel R ((alt ts).expr fold) ((alt ts).expr fold') := by
  induction ts with
  | nil => exact .altNil
  | cons t ts ih =>
    obtain ⟨first, rest⟩ := List.forall_mem_cons.mp h
    exact .altCons first (ih rest)

end

theorem rel_admits (t : Tree) : Expr.Rel Expr.Admits (t.expr true) (t.expr true) := by
  induction t with
  | empty => exact .empty
  | anySymbol => exact .symbols Expr.folds_anySymbol.admits
  | startAnchor => exact .startAnchor
  | endAnchor => exact .endAnchor
  | literal c => exact (Expr.folds_literal c).admits.2
  | bracket negated ranges =>
    refine Expr.admits_bracket negated fun r hr => ?_
    obtain ⟨r, _, rfl⟩ := List.mem_map.mp hr
    exact ⟨r.ascending, CodeRange.toNat_le_last r.hi⟩
  | seq ts ih => exact rel_seq ih
  | alt ts ih => exact rel_alt ih
  | repeated how t ih => exact rel_repeated how ih

theorem rel_folds {t : Tree} (h : t.Affirmative) :
    Expr.Rel Expr.Folds (t.expr false) (t.expr true) := by
  induction t with
  | empty => exact .empty
  | anySymbol => exact .symbols Expr.folds_anySymbol
  | startAnchor => exact .startAnchor
  | endAnchor => exact .endAnchor
  | literal c => exact Expr.folds_literal c
  | bracket negated ranges =>
    obtain rfl : negated = false := h
    exact Expr.folds_bracket _
  | seq ts ih => exact rel_seq fun t ht => ih t ht (allAffirmative_iff.mp h t ht)
  | alt ts ih => exact rel_alt fun t ht => ih t ht (allAffirmative_iff.mp h t ht)
  | repeated how t ih => exact rel_repeated how (ih h)

end Tree

/-! ## Folded patterns -/

variable {source : String} {p p' : Pattern}

/-- Inputs that differ in the case of letters only are one input for a folded pattern. -/
theorem accepts_recased (hp : p.Sound) (closed : Expr.Rel Expr.Admits p.expr p.expr)
    {u v : List Char} (recased : Recased u v) {n : Nat} : p.Accepts u n ↔ p.Accepts v n := by
  have length := recased.length_eq
  by_cases hu : u = []
  · subst hu
    obtain rfl : v = [] := List.length_eq_zero_iff.mp length.symm
    exact Iff.rfl
  · have hv : v ≠ [] := by
      rintro rfl
      exact hu (List.length_eq_zero_iff.mp length)
    rw [hp.accepts_iff hu, hp.accepts_iff hv]
    exact ⟨closed.transfer recased, closed.transfer recased.symm⟩

/-- What folded classes accept is what the given ones accept in some casing. -/
theorem accepts_folded (hp : p.Sound) (hp' : p'.Sound) (folds : Expr.Rel Expr.Folds p'.expr p.expr)
    (w : List Char) (n : Nat) :
    p.Accepts w n ↔ ∃ v, Recased (w.take n) v ∧ p'.Accepts (v ++ w.drop n) n := by
  by_cases hw : w = []
  · subst hw
    rw [← hp'.accepts_nil_congr hp folds]
    constructor
    · exact fun accepted => ⟨[], by simpa using Recased.refl [], by simpa using accepted⟩
    · rintro ⟨v, recased, accepted⟩
      obtain rfl : v = [] := by simpa using recased.length_eq.symm
      simpa using accepted
  · have nonempty {w' : List Char} (recased : Recased w w') : w' ≠ [] := by
      rintro rfl
      exact hw (List.length_eq_zero_iff.mp recased.length_eq)
    rw [hp.accepts_iff hw]
    constructor
    · intro matched
      obtain ⟨w', between, matched⟩ := folds.exists_recasing matched
      have behind : w'.drop n = w.drop n := by
        refine List.ext_getElem? fun k => ?_
        rw [List.getElem?_drop, List.getElem?_drop, between.outside _ (.inr (Nat.le_add_right n k))]
      refine ⟨w'.take n, List.forall₂_take n between.recased, ?_⟩
      rw [← behind, List.take_append_drop]
      exact (hp'.accepts_iff (nonempty between.recased)).mpr matched
    · rintro ⟨v, recased, accepted⟩
      have whole : Recased w (v ++ w.drop n) := by
        conv_lhs => rw [← List.take_append_drop n w]
        exact List.rel_append recased (Recased.refl _)
      rw [hp'.accepts_iff (nonempty whole)] at accepted
      exact folds.admits.1.transfer whole.symm accepted

/-- A folded pattern finds the same in inputs that differ in the case of ASCII letters only. If no
class of its source is negated, it accepts a beginning of an input if and only if the pattern of the
same source that is not folded accepts the beginning with its letters in some case. -/
theorem compile_folded (compiled : compile source true = .ok p) :
    (∀ u v, Recased u v → p.longestPrefix u = p.longestPrefix v) ∧
      ∀ t, Derives source.toList t → t.Affirmative → ∃ p', compile source false = .ok p' ∧
        ∀ w n, p.Accepts w n ↔ ∃ v, Recased (w.take n) v ∧ p'.Accepts (v ++ w.drop n) n := by
  have hp := sound_compile compiled
  obtain ⟨e, read, rfl⟩ := compile_eq_ok.mp compiled
  obtain ⟨nonempty, t, derives, rfl⟩ := derives_of_read read
  refine ⟨fun u v recased => ?_, fun t' derives' affirmative => ?_⟩
  · exact longestPrefix_congr recased.length_eq fun n => accepts_recased hp t.rel_admits recased
  · have same : t.expr true = t'.expr true :=
      Except.ok.inj (read.symm.trans (read_of_derives nonempty derives'))
    have plain := compile_eq_ok.mpr
      ⟨t'.expr false, read_of_derives nonempty derives', rfl⟩
    refine ⟨_, plain, accepts_folded hp (sound_compile plain) ?_⟩
    dsimp only
    rw [same]
    exact Tree.rel_folds affirmative

/-- The range cuts the alphabet, and its letters are accepted in either case. -/
theorem compile_folded_part :
    ∃ p p', compile "[k-q]x" true = .ok p ∧ compile "[k-q]x" false = .ok p' ∧
      p.longestPrefix ['M', 'x'] = p.longestPrefix ['m', 'X'] ∧
      ∀ w n, p.Accepts w n ↔ ∃ v, Recased (w.take n) v ∧ p'.Accepts (v ++ w.drop n) n := by
  have range : ClassBody true ['k', '-', 'q', ']'] [⟨'k', 'q', by decide⟩] :=
    .range (.plain (by decide)) (by decide) (.plain (by decide)) (by decide) _ .close
  have items : Concatenation "[k-q]x".toList [.bracket false [⟨'k', 'q', by decide⟩], .literal 'x'] :=
    .more (.more .none (.leaf (.bracket (by decide) range))) (.leaf (.literal (by decide)))
  obtain ⟨p, compiled⟩ : ∃ p, compile "[k-q]x" true = .ok p := ⟨_, rfl⟩
  obtain ⟨same, affirmative⟩ := compile_folded compiled
  obtain ⟨p', plain, accepts⟩ := affirmative _ ⟨_, .one items, rfl⟩ ⟨rfl, trivial, trivial⟩
  exact ⟨p, p', compiled, plain, same _ _ (by simp [Recased, SameLetter, OtherCase]), accepts⟩

end Pattern

end ScrapeConfig
