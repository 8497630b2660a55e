import Mathlib.Data.List.Forall2
import ScrapeConfig.Proofs.Pattern.Classes
import ScrapeConfig.Proofs.Pattern.Meaning

/-!
# Matching inputs with letters in the other case

Two expressions of the same shape are compared class by class (`Expr.Rel`).

Results:
1. `Expr.Matches.congr`: a match depends on the code points that it reads and on where the input ends.
2. `Expr.Rel.transfer`: a match stays one in a recased input if the classes admit either case.
3. `Expr.Rel.exists_recasing`: what the folded classes match is matched by the given ones in some
   recasing.
-/

namespace ScrapeConfig

open Relation (ReflTransGen TransGen)
open CodeRange (covers OtherCase)

/-! ## Letters -/

/-- The same character, but for the case of ASCII letters. -/
def SameLetter (c d : Char) : Prop := c = d ∨ OtherCase c.toNat d.toNat

theorem CodeRange.OtherCase.symm {m n : Nat} (h : OtherCase m n) : OtherCase n m := by
  rw [otherCase_iff] at h ⊢
  omega

/-- A letter has two cases only. -/
theorem CodeRange.OtherCase.unique {l m n : Nat} (h : OtherCase l m) (h' : OtherCase m n) : l = n := by
  rw [otherCase_iff] at h h'
  omega

namespace SameLetter

variable {c d e : Char}

theorem refl (c : Char) : SameLetter c c := .inl rfl

theorem symm (h : SameLetter c d) : SameLetter d c := by
  rcases h with rfl | h
  · exact refl c
  · exact .inr h.symm

theorem trans (h : SameLetter c d) (h' : SameLetter d e) : SameLetter c e := by
  rcases h with rfl | h
  · exact h'
  · rcases h' with rfl | h'
    · exact .inr h
    · exact .inl (Char.toNat_inj.mp (h.unique h'))

end SameLetter

/-- The same text, but for the case of ASCII letters. -/
def Recased : List Char → List Char → Prop := List.Forall₂ SameLetter

namespace Recased

variable {u v w : List Char}

theorem refl (w : List Char) : Recased w w := List.forall₂_same.mpr fun c _ => .refl c

theorem symm (h : Recased u v) : Recased v u := by
  induction h with
  | nil => exact .nil
  | cons same _ ih => exact .cons same.symm ih

theorem trans (h : Recased u v) (h' : Recased v w) : Recased u w := by
  induction h generalizing w with
  | nil => exact h'
  | cons same _ ih =>
    cases h' with
    | cons same' rest => exact .cons (same.trans same') (ih rest)

theorem length_eq (h : Recased u v) : u.length = v.length := List.Forall₂.length_eq h

theorem get (h : Recased u v) {i : Nat} {c : Char} (hc : u[i]? = some c) :
    ∃ d, v[i]? = some d ∧ SameLetter c d := by
  induction h generalizing i with
  | nil => cases hc
  | @cons a b u v same _ ih =>
    cases i with
    | zero =>
      obtain rfl := Option.some.inj hc
      exact ⟨b, rfl, same⟩
    | succ i => exact ih hc

theorem set {i : Nat} {c d : Char} (hc : w[i]? = some c) (same : SameLetter c d) :
    Recased w (w.set i d) := by
  induction w generalizing i with
  | nil => cases hc
  | cons a w ih =>
    cases i with
    | zero =>
      obtain rfl := Option.some.inj hc
      exact .cons same (refl w)
    | succ i => exact .cons (.refl a) (ih hc)

end Recased

/-- `w'` is `w` with letters recased between the positions `i` and `j`. -/
structure RecasedBetween (i j : Nat) (w w' : List Char) : Prop where
  recased : Recased w w'
  outside : ∀ k, k < i ∨ j ≤ k → w'[k]? = w[k]?

namespace RecasedBetween

variable {i k j : Nat} {u v w : List Char}

theorem refl (i j : Nat) (w : List Char) : RecasedBetween i j w w := ⟨.refl w, fun _ _ => rfl⟩

theorem trans (h : RecasedBetween i k u v) (h' : RecasedBetween k j v w) (hik : i ≤ k) (hkj : k ≤ j) :
    RecasedBetween i j u w := by
  refine ⟨h.recased.trans h'.recased, fun l hl => ?_⟩
  rw [h'.outside l (by omega), h.outside l (by omega)]

theorem set {c d : Char} (hc : w[i]? = some c) (same : SameLetter c d) :
    RecasedBetween i (i + 1) w (w.set i d) := by
  refine ⟨.set hc same, fun k hk => ?_⟩
  rw [List.getElem?_set_ne (by omega)]

end RecasedBetween

namespace Expr

/-! ## Locality -/

variable {fresh : Bool} {w w' : List Char} {i j : Nat}

/-- What two inputs of one length have in common between `i` and `j` matches in both. -/
theorem Matches.congr {e : Expr} (length : w.length = w'.length)
    (same : ∀ k, i ≤ k → k < j → w[k]? = w'[k]?) (h : e.Matches fresh w i j) :
    e.Matches fresh w' i j := by
  induction e using induction_cons generalizing i j with
  | empty | seqNil => exact h
  | symbols rs =>
    obtain ⟨c, hc, covered, rfl⟩ := h
    exact ⟨c, same i (Nat.le_refl i) (Nat.lt_succ_self i) ▸ hc, covered, rfl⟩
  | startAnchor => exact h
  | endAnchor => exact ⟨h.1.trans length, h.2⟩
  | seqCons a es iha ihs =>
    obtain ⟨k, ha, hs⟩ := h
    have hik := ha.mono.1
    have hkj := (show (seq es).Matches fresh w k j from hs).mono.1
    exact ⟨k, iha (fun l hl hlk => same l hl (by omega)) ha,
      ihs (fun l hl hlj => same l (by omega) hlj) hs⟩
  | altNil => exact h
  | altCons a es iha ihs => exact h.imp (iha same) (ihs same)
  | star a ih =>
    induction h with
    | refl => exact .refl
    | @tail k l hk hl ihk =>
      have hik := (show a.star.Matches fresh w i k from hk).mono.1
      have hkl := hl.mono.1
      exact .tail (ihk fun l hl hlk => same l hl (by omega))
        (ih (fun l hl hlj => same l (by omega) hlj) hl)
  | plus a ih =>
    induction h with
    | single h => exact .single (ih same h)
    | @tail k l hk hl ihk =>
      have hik := (show a.plus.Matches fresh w i k from hk).mono.1
      have hkl := hl.mono.1
      exact .tail (ihk fun l hl hlk => same l hl (by omega))
        (ih (fun l hl hlj => same l (by omega) hlj) hl)
  | opt a ih => exact h.imp id (ih same)

/-- A match in front of position `k` does not see what is recased behind it. -/
theorem Matches.recase {e : Expr} {k : Nat} (h : e.Matches fresh w i k)
    (behind : RecasedBetween k j w w') : e.Matches fresh w' i k :=
  h.congr behind.recased.length_eq fun l _ hl => (behind.outside l (.inl hl)).symm

/-! ## Expressions of one shape -/

/-- The expressions have the same shape, and `R` relates their classes. -/
inductive Rel (R : List CodeRange → List CodeRange → Prop) : Expr → Expr → Prop
  | empty : Rel R .empty .empty
  | symbols {rs rs' : List CodeRange} : R rs rs' → Rel R (.symbols rs) (.symbols rs')
  | startAnchor : Rel R .startAnchor .startAnchor
  | endAnchor : Rel R .endAnchor .endAnchor
  | seqNil : Rel R (.seq []) (.seq [])
  | seqCons {a a' : Expr} {es es' : List Expr} :
      Rel R a a' → Rel R (.seq es) (.seq es') → Rel R (.seq (a :: es)) (.seq (a' :: es'))
  | altNil : Rel R (.alt []) (.alt [])
  | altCons {a a' : Expr} {es es' : List Expr} :
      Rel R a a' → Rel R (.alt es) (.alt es') → Rel R (.alt (a :: es)) (.alt (a' :: es'))
  | star {a a' : Expr} : Rel R a a' → Rel R (.star a) (.star a')
  | plus {a a' : Expr} : Rel R a a' → Rel R (.plus a) (.plus a')
  | opt {a a' : Expr} : Rel R a a' → Rel R (.opt a) (.opt a')

/-- The second class covers either case of what the first one covers. -/
def Admits (rs rs' : List CodeRange) : Prop :=
  ∀ c d : Char, SameLetter c d → covers rs c.toNat → covers rs' d.toNat

/-- The second class covers either case of what the first one covers, and nothing else. -/
def Folds (rs rs' : List CodeRange) : Prop :=
  ∀ d : Char, covers rs' d.toNat ↔ ∃ c, SameLetter d c ∧ covers rs c.toNat

theorem Folds.admits {rs rs' : List CodeRange} (h : Folds rs rs') : Admits rs rs' :=
  fun c d same covered => (h d).mpr ⟨c, same.symm, covered⟩

theorem Folds.admits_self {rs rs' : List CodeRange} (h : Folds rs rs') : Admits rs' rs' := by
  intro c d same covered
  obtain ⟨e, same', covered⟩ := (h c).mp covered
  exact (h d).mpr ⟨e, same.symm.trans same', covered⟩

namespace Rel

variable {e e' : Expr}

theorem admits (h : Rel Folds e e') : Rel Admits e e' ∧ Rel Admits e' e' := by
  induction h with
  | empty => exact ⟨.empty, .empty⟩
  | symbols folds => exact ⟨.symbols folds.admits, .symbols folds.admits_self⟩
  | startAnchor => exact ⟨.startAnchor, .startAnchor⟩
  | endAnchor => exact ⟨.endAnchor, .endAnchor⟩
  | seqNil => exact ⟨.seqNil, .seqNil⟩
  | seqCons _ _ iha ihs => exact ⟨.seqCons iha.1 ihs.1, .seqCons iha.2 ihs.2⟩
  | altNil => exact ⟨.altNil, .altNil⟩
  | altCons _ _ iha ihs => exact ⟨.altCons iha.1 ihs.1, .altCons iha.2 ihs.2⟩
  | star _ ih => exact ⟨.star ih.1, .star ih.2⟩
  | plus _ ih => exact ⟨.plus ih.1, .plus ih.2⟩
  | opt _ ih => exact ⟨.opt ih.1, .opt ih.2⟩

theorem transfer (h : Rel Admits e e') (recased : Recased w w') (matched : e.Matches fresh w i j) :
    e'.Matches fresh w' i j := by
  induction h generalizing i j with
  | empty | seqNil | altNil => exact matched
  | symbols admits =>
    obtain ⟨c, hc, covered, rfl⟩ := matched
    obtain ⟨d, hd, same⟩ := recased.get hc
    exact ⟨d, hd, admits c d same covered, rfl⟩
  | startAnchor => exact matched
  | endAnchor => exact ⟨matched.1.trans recased.length_eq, matched.2⟩
  | seqCons _ _ iha ihs =>
    obtain ⟨k, ha, hs⟩ := matched
    exact ⟨k, iha ha, ihs hs⟩
  | altCons _ _ iha ihs => exact matched.imp iha ihs
  | star _ ih => exact ReflTransGen.mono (fun _ _ => ih) _ _ matched
  | plus _ ih => exact TransGen.mono (fun _ _ => ih) _ _ matched
  | opt _ ih => exact matched.imp id ih

/-- What the given expression matches between `i` and `j` in some recasing. -/
def Recasable (fresh : Bool) (w : List Char) (e : Expr) (i j : Nat) : Prop :=
  ∃ w', RecasedBetween i j w w' ∧ e.Matches fresh w' i j

/-- Two matches one after the other, of which the second one is recased last. -/
theorem Recasable.append {a b b' : Expr} {k : Nat} (related : Rel Folds b b')
    (ha : Recasable fresh w a i k)
    (hb : ∀ {w}, b'.Matches fresh w k j → Recasable fresh w b k j) (hik : i ≤ k)
    (matched : b'.Matches fresh w k j) :
    ∃ w', RecasedBetween i j w w' ∧ a.Matches fresh w' i k ∧ b.Matches fresh w' k j := by
  obtain ⟨w₁, first, ha⟩ := ha
  have matched := related.admits.2.transfer first.recased matched
  obtain ⟨w₂, second, hb⟩ := hb matched
  exact ⟨w₂, first.trans second hik matched.mono.1, ha.recase second, hb⟩

/-- What folded classes match is matched by the given ones in some recasing. -/
theorem exists_recasing (h : Rel Folds e e') (matched : e'.Matches fresh w i j) :
    Recasable fresh w e i j := by
  induction h generalizing w i j with
  | empty | seqNil | altNil => exact ⟨w, .refl i j w, matched⟩
  | symbols folds =>
    obtain ⟨d, hd, covered, rfl⟩ := matched
    obtain ⟨c, same, covered⟩ := (folds d).mp covered
    refine ⟨w.set i c, .set hd same, c, ?_, covered, rfl⟩
    rw [List.getElem?_set_self (List.getElem?_eq_some_iff.mp hd).1]
  | startAnchor => exact ⟨w, .refl i j w, matched⟩
  | endAnchor => exact ⟨w, .refl i j w, matched⟩
  | seqCons _ related iha ihs =>
    obtain ⟨k, ha, hs⟩ := matched
    obtain ⟨w', between, ha, hs⟩ := (iha ha).append related ihs ha.mono.1 hs
    exact ⟨w', between, k, ha, hs⟩
  | altCons _ _ iha ihs =>
    rcases matched with ha | hs
    · obtain ⟨w', between, ha⟩ := iha ha
      exact ⟨w', between, .inl ha⟩
    · obtain ⟨w', between, hs⟩ := ihs hs
      exact ⟨w', between, .inr hs⟩
  | @star a a' related ih =>
    induction matched with
    | refl => exact ⟨w, .refl i i w, .refl⟩
    | @tail k l before last ihk =>
      have hik := (show a'.star.Matches fresh w i k from before).mono.1
      obtain ⟨w', between, first, second⟩ := ihk.append related ih hik last
      exact ⟨w', between, .tail first second⟩
  | @plus a a' related ih =>
    induction matched with
    | single only =>
      obtain ⟨w', between, only⟩ := ih only
      exact ⟨w', between, .single only⟩
    | @tail k l before last ihk =>
      have hik := (show a'.plus.Matches fresh w i k from before).mono.1
      obtain ⟨w', between, first, second⟩ := ihk.append related ih hik last
      exact ⟨w', between, .tail first second⟩
  | opt _ ih =>
    rcases matched with rfl | matched
    · exact ⟨w, .refl i i w, .inl rfl⟩
    · obtain ⟨w', between, matched⟩ := ih matched
      exact ⟨w', between, .inr matched⟩

end Rel

end Expr

end ScrapeConfig
