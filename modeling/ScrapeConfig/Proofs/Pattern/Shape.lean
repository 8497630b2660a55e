import ScrapeConfig.Pattern.Expr

/-!
# The shape of pattern expressions

An expression is built up from leaves, which have no expressions in them. What is asked of all leaves
(`Expr.All`) and what is done to every one of them (`Expr.mapLeaves`) does not depend on how they are
put together.

Results:
1. `Expr.induction_cons`: induction that takes the items of a sequence one by one.
2. `Expr.allOf_iff`: what is asked of all leaves is asked of those of every item.
3. `Expr.mapLeaves_eq_self`: leaves that are put in place of themselves.
-/

namespace ScrapeConfig.Expr

/-- Induction that takes the items of a sequence and the branches of an alternation one by one. -/
@[elab_as_elim]
theorem induction_cons {motive : Expr → Prop} (empty : motive .empty)
    (symbols : ∀ rs, motive (.symbols rs)) (startAnchor : motive .startAnchor)
    (endAnchor : motive .endAnchor) (seqNil : motive (.seq []))
    (seqCons : ∀ a es, motive a → motive (.seq es) → motive (.seq (a :: es)))
    (altNil : motive (.alt []))
    (altCons : ∀ a es, motive a → motive (.alt es) → motive (.alt (a :: es)))
    (star : ∀ a, motive a → motive (.star a)) (plus : ∀ a, motive a → motive (.plus a))
    (opt : ∀ a, motive a → motive (.opt a)) (e : Expr) : motive e := by
  induction e with
  | empty => exact empty
  | symbols rs => exact symbols rs
  | startAnchor => exact startAnchor
  | endAnchor => exact endAnchor
  | seq es ih =>
    induction es with
    | nil => exact seqNil
    | cons a es rest =>
      obtain ⟨iha, ih⟩ := List.forall_mem_cons.mp ih
      exact seqCons a es iha (rest ih)
  | alt es ih =>
    induction es with
    | nil => exact altNil
    | cons a es rest =>
      obtain ⟨iha, ih⟩ := List.forall_mem_cons.mp ih
      exact altCons a es iha (rest ih)
  | star a ih => exact star a ih
  | plus a ih => exact plus a ih
  | opt a ih => exact opt a ih

/-! ## What is asked of all leaves -/

mutual

/-- `P` holds of all leaves. -/
def All (P : Expr → Prop) : Expr → Prop
  | .seq es => AllOf P es
  | .alt es => AllOf P es
  | .star a => a.All P
  | .plus a => a.All P
  | .opt a => a.All P
  | leaf => P leaf

def AllOf (P : Expr → Prop) : List Expr → Prop
  | [] => True
  | e :: es => e.All P ∧ AllOf P es

end

variable {P Q : Expr → Prop}

theorem allOf_iff {es : List Expr} : AllOf P es ↔ ∀ e ∈ es, e.All P := by
  induction es with
  | nil => exact iff_of_true trivial (List.forall_mem_nil _)
  | cons e es ih => rw [AllOf, ih, List.forall_mem_cons]

mutual

instance decidableAll (P : Expr → Prop) [DecidablePred P] : (e : Expr) → Decidable (e.All P)
  | .seq es => decidableAllOf P es
  | .alt es => decidableAllOf P es
  | .star a => decidableAll P a
  | .plus a => decidableAll P a
  | .opt a => decidableAll P a
  | .empty => inferInstanceAs (Decidable (P .empty))
  | .symbols rs => inferInstanceAs (Decidable (P (.symbols rs)))
  | .startAnchor => inferInstanceAs (Decidable (P .startAnchor))
  | .endAnchor => inferInstanceAs (Decidable (P .endAnchor))

instance decidableAllOf (P : Expr → Prop) [DecidablePred P] :
    (es : List Expr) → Decidable (AllOf P es)
  | [] => inferInstanceAs (Decidable True)
  | e :: es => @instDecidableAnd _ _ (decidableAll P e) (decidableAllOf P es)

end

theorem All.imp {e : Expr} (h : e.All P) (hPQ : ∀ l, P l → Q l) : e.All Q := by
  induction e using induction_cons with
  | empty | symbols | startAnchor | endAnchor => exact hPQ _ h
  | seqNil | altNil => trivial
  | seqCons a es iha ihs | altCons a es iha ihs => exact ⟨iha h.1, ihs h.2⟩
  | star a ih | plus a ih | opt a ih => exact ih h

theorem all_sequence {es : List Expr} (h : ∀ e ∈ es, e.All P) (empty : P .empty) :
    (sequence es).All P := by
  match es with
  | [] => exact empty
  | [e] => exact h e List.mem_cons_self
  | _ :: _ :: _ => exact allOf_iff.mpr h

theorem all_choice {es : List Expr} (h : ∀ e ∈ es, e.All P) : (choice es).All P := by
  match es with
  | [] => trivial
  | [e] => exact h e List.mem_cons_self
  | _ :: _ :: _ => exact allOf_iff.mpr h

/-! ## What is done to every leaf -/

mutual

/-- The expression with other leaves in place of its own. -/
def mapLeaves (f : Expr → Expr) : Expr → Expr
  | .seq es => .seq (mapAll f es)
  | .alt es => .alt (mapAll f es)
  | .star a => .star (a.mapLeaves f)
  | .plus a => .plus (a.mapLeaves f)
  | .opt a => .opt (a.mapLeaves f)
  | leaf => f leaf

def mapAll (f : Expr → Expr) : List Expr → List Expr
  | [] => []
  | e :: es => e.mapLeaves f :: mapAll f es

end

theorem mapLeaves_eq_self {f : Expr → Expr} {e : Expr} (h : e.All fun l => f l = l) :
    e.mapLeaves f = e := by
  induction e using induction_cons with
  | empty | symbols | startAnchor | endAnchor => exact h
  | seqNil | altNil => rfl
  | seqCons a es iha ihs =>
    have rest : mapAll f es = es := seq.inj (ihs h.2)
    rw [Expr.mapLeaves, mapAll, iha h.1, rest]
  | altCons a es iha ihs =>
    have rest : mapAll f es = es := alt.inj (ihs h.2)
    rw [Expr.mapLeaves, mapAll, iha h.1, rest]
  | star a ih | plus a ih | opt a ih => rw [Expr.mapLeaves, ih h]

end ScrapeConfig.Expr
