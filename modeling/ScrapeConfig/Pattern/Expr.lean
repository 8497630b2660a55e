import ScrapeConfig.Pattern.CodeRange

/-!
# Pattern expressions

The tree that a pattern source stands for. A class holds exactly the code points that it matches,
so case folding and negation are already done when the tree is built.
-/

namespace ScrapeConfig

inductive Expr where
  | empty
  | symbols (ranges : List CodeRange)
  | startAnchor
  | endAnchor
  | seq (items : List Expr)
  | alt (branches : List Expr)
  | star (body : Expr)
  | plus (body : Expr)
  | opt (body : Expr)
  deriving Repr, Inhabited

namespace Expr

/-- Induction with a hypothesis for every item of a sequence and every branch of an alternation. -/
@[elab_as_elim, induction_eliminator]
theorem induction {motive : Expr → Prop} (empty : motive .empty)
    (symbols : ∀ rs, motive (.symbols rs)) (startAnchor : motive .startAnchor)
    (endAnchor : motive .endAnchor)
    (seq : ∀ es, (∀ e ∈ es, motive e) → motive (.seq es))
    (alt : ∀ es, (∀ e ∈ es, motive e) → motive (.alt es))
    (star : ∀ a, motive a → motive (.star a)) (plus : ∀ a, motive a → motive (.plus a))
    (opt : ∀ a, motive a → motive (.opt a)) (e : Expr) : motive e :=
  e.rec (motive_2 := fun es => ∀ e ∈ es, motive e) empty symbols startAnchor endAnchor seq alt star
    plus opt (List.forall_mem_nil _) fun _ _ first rest => List.forall_mem_cons.mpr ⟨first, rest⟩

/-! ## Equality -/

mutual

/-- Whether two expressions are the same. -/
def same : Expr → Expr → Bool
  | .empty, .empty => true
  | .symbols rs, .symbols rs' => rs = rs'
  | .startAnchor, .startAnchor => true
  | .endAnchor, .endAnchor => true
  | .seq as, .seq bs => sameList as bs
  | .alt as, .alt bs => sameList as bs
  | .star a, .star b => a.same b
  | .plus a, .plus b => a.same b
  | .opt a, .opt b => a.same b
  | _, _ => false

def sameList : List Expr → List Expr → Bool
  | [], [] => true
  | a :: as, b :: bs => a.same b && sameList as bs
  | _, _ => false

end

theorem sameList_iff {as bs : List Expr} (h : ∀ a ∈ as, ∀ b, a.same b ↔ a = b) :
    sameList as bs ↔ as = bs := by
  induction as generalizing bs with
  | nil => cases bs <;> simp [sameList]
  | cons a as ih =>
    obtain ⟨first, rest⟩ := List.forall_mem_cons.mp h
    cases bs <;> simp [sameList, first, ih rest]

theorem same_iff (a b : Expr) : a.same b ↔ a = b := by
  induction a generalizing b with
  | seq as ih | alt as ih => cases b <;> simp [same, sameList_iff ih]
  | star a ih | plus a ih | opt a ih => cases b <;> simp [same, ih]
  | _ => cases b <;> simp [same]

instance : DecidableEq Expr := fun a b => decidable_of_iff _ (same_iff a b)

/-! ## Expressions that are written -/

/-- One item after the other; no item at all matches the empty text. -/
def sequence : List Expr → Expr
  | [] => .empty
  | [e] => e
  | es => .seq es

/-- Any one of the branches. -/
def choice : List Expr → Expr
  | [e] => e
  | es => .alt es

/-- Any code point but a line feed. -/
def anySymbol : Expr := .symbols [⟨0, 0x09⟩, ⟨0x0B, CodeRange.last⟩]

/-- A single character, of either case when letters are folded. -/
def literal (fold : Bool) (c : Char) : Expr :=
  let range := [CodeRange.single c]
  .symbols (if fold && c.isAlpha then CodeRange.normalize (CodeRange.foldCase range) else range)

/-- A bracket class, from the ranges as they were written. -/
def bracket (fold negated : Bool) (ranges : List CodeRange) : Expr :=
  let normal := CodeRange.normalize (if fold then CodeRange.foldCase ranges else ranges)
  .symbols (if negated then CodeRange.complement normal else normal)

end Expr

end ScrapeConfig
