import ScrapeConfig.Pattern.Reader

/-!
# The grammar of pattern sources

    alternation   := concatenation ('|' concatenation)*
    concatenation := (atom ('*' | '+' | '?')*)*
    atom          := '(' alternation ')' | class | '.' | '^' | '$' | escape | any other character
    escape        := '\' and one of n t r 0 or what is no ASCII letter or digit
    class         := '[' '^'? item+ ']'

Outside of classes the other characters are those without a meaning of their own, among them `]` and
`-`. A class is read from the left: a `]` in its first place is an item, and a `-` behind the first
character of an item makes a range unless a `]` follows it.

A source derives a syntax tree (`Pattern.Tree`), which does not depend on whether letters are folded;
`Tree.expr` is the expression that it stands for.
-/

namespace ScrapeConfig.Pattern

/-! ## Syntax trees -/

/-- The characters from `lo` to `hi`, both included; the ends are in ascending order. -/
structure CharRange where
  lo : Char
  hi : Char
  ascending : lo ≤ hi

namespace CharRange

def single (c : Char) : CharRange := ⟨c, c, Char.le_refl c⟩

/-- The code points of the range. -/
def codes (r : CharRange) : CodeRange := ⟨r.lo.toNat, r.hi.toNat⟩

end CharRange

/-- A pattern as it is written: letters are not yet folded and classes are not yet normal. -/
inductive Tree where
  | empty
  | anySymbol
  | startAnchor
  | endAnchor
  | literal (c : Char)
  | bracket (negated : Bool) (ranges : List CharRange)
  | seq (items : List Tree)
  | alt (branches : List Tree)
  | repeated (how : Quantifier) (body : Tree)

namespace Tree

/-- Induction with a hypothesis for every item of a sequence and every branch of an alternation. -/
@[elab_as_elim, induction_eliminator]
theorem induction {motive : Tree → Prop} (empty : motive .empty) (anySymbol : motive .anySymbol)
    (startAnchor : motive .startAnchor) (endAnchor : motive .endAnchor)
    (literal : ∀ c, motive (.literal c))
    (bracket : ∀ negated ranges, motive (.bracket negated ranges))
    (seq : ∀ ts, (∀ t ∈ ts, motive t) → motive (.seq ts))
    (alt : ∀ ts, (∀ t ∈ ts, motive t) → motive (.alt ts))
    (repeated : ∀ how t, motive t → motive (.repeated how t)) (t : Tree) : motive t :=
  t.rec (motive_2 := fun ts => ∀ t ∈ ts, motive t) empty anySymbol startAnchor endAnchor literal
    bracket seq alt repeated (List.forall_mem_nil _)
    fun _ _ first rest => List.forall_mem_cons.mpr ⟨first, rest⟩

def sequence : List Tree → Tree
  | [] => .empty
  | [t] => t
  | ts => .seq ts

def choice : List Tree → Tree
  | [t] => t
  | ts => .alt ts

mutual

/-- The expression that a tree stands for; `fold` makes ASCII letters match either case. -/
def expr (fold : Bool) : Tree → Expr
  | .empty => .empty
  | .anySymbol => .anySymbol
  | .startAnchor => .startAnchor
  | .endAnchor => .endAnchor
  | .literal c => .literal fold c
  | .bracket negated ranges => .bracket fold negated (ranges.map CharRange.codes)
  | .seq ts => .seq (exprs fold ts)
  | .alt ts => .alt (exprs fold ts)
  | .repeated how t => how.apply (t.expr fold)

def exprs (fold : Bool) : List Tree → List Expr
  | [] => []
  | t :: ts => t.expr fold :: exprs fold ts

end

theorem exprs_eq_map (fold : Bool) (ts : List Tree) : exprs fold ts = ts.map (expr fold) := by
  induction ts with
  | nil => rfl
  | cons t ts ih => exact congrArg _ ih

theorem expr_sequence (fold : Bool) (ts : List Tree) :
    (sequence ts).expr fold = .sequence (ts.map (expr fold)) := by
  rw [← exprs_eq_map]
  match ts with
  | [] => rfl
  | [_] => rfl
  | _ :: _ :: _ => rfl

theorem expr_choice (fold : Bool) (ts : List Tree) :
    (choice ts).expr fold = .choice (ts.map (expr fold)) := by
  rw [← exprs_eq_map]
  match ts with
  | [] => rfl
  | [_] => rfl
  | _ :: _ :: _ => rfl

end Tree

/-! ## Characters and classes -/

/-- `Escapes c d`: a backslash and `c` stand for `d`. -/
inductive Escapes : Char → Char → Prop
  | lineFeed : Escapes 'n' '\n'
  | tab : Escapes 't' '\t'
  | carriageReturn : Escapes 'r' '\r'
  | nul : Escapes '0' '\x00'
  | itself {c : Char} : c.isAlphanum = false → Escapes c c

/-- A character as it is written in a class. -/
inductive ClassChar : List Char → Char → Prop
  | plain {c : Char} : c ≠ '\\' → ClassChar [c] c
  | escape {c d : Char} : Escapes c d → ClassChar ['\\', c] d

/-- With this text behind its first character an item of a class is a range. -/
def OpensRange (rest : List Char) : Prop := ∃ c behind, rest = '-' :: c :: behind ∧ c ≠ ']'

/-- The items of a class together with the bracket that closes it. In the first place of a class, no
bracket closes it. -/
inductive ClassBody : (first : Bool) → List Char → List CharRange → Prop
  | close : ClassBody false [']'] []
  | single {first : Bool} {u rest : List Char} {c : Char} {ranges : List CharRange} :
      ClassChar u c → (first = false → u ≠ [']']) → ¬ OpensRange rest →
      ClassBody false rest ranges → ClassBody first (u ++ rest) (.single c :: ranges)
  | range {first : Bool} {u v rest : List Char} {lo hi : Char} {ranges : List CharRange} :
      ClassChar u lo → (first = false → u ≠ [']']) → ClassChar v hi → v ≠ [']'] →
      ∀ ascending : lo ≤ hi, ClassBody false rest ranges →
      ClassBody first (u ++ '-' :: (v ++ rest)) (⟨lo, hi, ascending⟩ :: ranges)

/-! ## Alternations -/

/-- The characters that do not stand for themselves outside of classes. -/
def metacharacters : List Char := ['(', ')', '[', '|', '*', '+', '?', '.', '^', '$', '\\']

/-- An atom without parts that are atoms. -/
inductive Leaf : List Char → Tree → Prop
  | anySymbol : Leaf ['.'] .anySymbol
  | startAnchor : Leaf ['^'] .startAnchor
  | endAnchor : Leaf ['$'] .endAnchor
  | escape {c d : Char} : Escapes c d → Leaf ['\\', c] (.literal d)
  | literal {c : Char} : c ∉ metacharacters → Leaf [c] (.literal c)
  | bracket {u : List Char} {ranges : List CharRange} :
      u.head? ≠ some '^' → ClassBody true u ranges → Leaf ('[' :: u) (.bracket false ranges)
  | negated {u : List Char} {ranges : List CharRange} :
      ClassBody true u ranges → Leaf ('[' :: '^' :: u) (.bracket true ranges)

mutual

/-- The branches of an alternation. -/
inductive Alternation : List Char → List Tree → Prop
  | one {u : List Char} {ts : List Tree} : Concatenation u ts → Alternation u [.sequence ts]
  | more {u v : List Char} {bs ts : List Tree} : Alternation u bs → Concatenation v ts →
      Alternation (u ++ '|' :: v) (bs ++ [.sequence ts])

/-- The items of a concatenation. -/
inductive Concatenation : List Char → List Tree → Prop
  | none : Concatenation [] []
  | more {u v : List Char} {ts : List Tree} {t : Tree} : Concatenation u ts → Item v t →
      Concatenation (u ++ v) (ts ++ [t])

/-- An atom and its quantifiers. -/
inductive Item : List Char → Tree → Prop
  | leaf {u : List Char} {t : Tree} : Leaf u t → Item u t
  | group {u : List Char} {bs : List Tree} : Alternation u bs →
      Item ('(' :: (u ++ [')'])) (.choice bs)
  | repeated {u : List Char} {t : Tree} (how : Quantifier) : Item u t →
      Item (u ++ [how.symbol]) (.repeated how t)

end

/-- The source as a whole is an alternation with the tree `t`. -/
def Derives (source : List Char) (t : Tree) : Prop := ∃ bs, Alternation source bs ∧ t = .choice bs

end ScrapeConfig.Pattern
