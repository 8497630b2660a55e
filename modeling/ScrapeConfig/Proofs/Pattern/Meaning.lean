import Mathlib.Logic.Relation
import ScrapeConfig.Pattern.Machine
import ScrapeConfig.Proofs.Pattern.Shape

/-!
# What pattern expressions match

An expression denotes a relation between positions of an input: those between which it matches.
The relation is said by recursion on the expression and does not mention machines.

`^` holds at position 0 if nothing stands before the input, and `$` holds at its end.

Results:
1. `Expr.Matches.mono`: a match never goes backwards, and it ends within the input.
2. `Expr.residual_edge`, `Expr.path_of_matches`: the two halves of the layout of expressions as
   machines. Every state of a fragment stands for a residual expression, namely what is still to be
   matched from there, and edges respect residuals.
3. `Expr.path_machine`: the machine of an expression leads from its start to its accepting state
   exactly between the positions that the expression matches.
-/

namespace ScrapeConfig

open Relation (ReflTransGen TransGen)

mutual

/-- `e.Matches fresh w i j`: in the input `w` the expression matches the code points from position
`i` to position `j`. `fresh` says that nothing stands before `w`. -/
def Expr.Matches (fresh : Bool) (w : List Char) : Expr → Nat → Nat → Prop
  | .empty, i, j => i = j
  | .symbols rs, i, j => ∃ c, w[i]? = some c ∧ CodeRange.covers rs c.toNat ∧ j = i + 1
  | .startAnchor, i, j => fresh ∧ i = 0 ∧ j = 0
  | .endAnchor, i, j => i = w.length ∧ j = i
  | .seq es, i, j => Expr.MatchesInTurn fresh w es i j
  | .alt es, i, j => Expr.MatchesOneOf fresh w es i j
  | .star a, i, j => ReflTransGen (a.Matches fresh w) i j
  | .plus a, i, j => TransGen (a.Matches fresh w) i j
  | .opt a, i, j => i = j ∨ a.Matches fresh w i j

/-- The expressions match one behind the other. -/
def Expr.MatchesInTurn (fresh : Bool) (w : List Char) : List Expr → Nat → Nat → Prop
  | [], i, j => i = j
  | e :: es, i, j => ∃ k, e.Matches fresh w i k ∧ Expr.MatchesInTurn fresh w es k j

/-- One of the expressions matches. -/
def Expr.MatchesOneOf (fresh : Bool) (w : List Char) : List Expr → Nat → Nat → Prop
  | [], _, _ => False
  | e :: es, i, j => e.Matches fresh w i j ∨ Expr.MatchesOneOf fresh w es i j

end

/-- What taking an edge with this label does to the position. -/
def Label.Takes (fresh : Bool) (w : List Char) : Label → Nat → Nat → Prop
  | .silent, i, j => i = j
  | .symbol r, i, j => ∃ c, w[i]? = some c ∧ r.contains c.toNat ∧ j = i + 1
  | .startOfInput, i, j => fresh ∧ i = 0 ∧ j = 0
  | .endOfInput, i, j => i = w.length ∧ j = i

/-- One step of a machine with these edges, from a state and a position to the next ones. -/
def Edge.Step (fresh : Bool) (w : List Char) (edges : List Edge) (s t : Nat × Nat) : Prop :=
  ∃ l, ⟨s.1, l, t.1⟩ ∈ edges ∧ l.Takes fresh w s.2 t.2

/-- Any number of steps. -/
def Edge.Path (fresh : Bool) (w : List Char) (edges : List Edge) : Nat × Nat → Nat × Nat → Prop :=
  ReflTransGen (Edge.Step fresh w edges)

variable {fresh : Bool} {w : List Char}

namespace Expr

theorem Matches.mono {e : Expr} {i j : Nat} (h : e.Matches fresh w i j) :
    i ≤ j ∧ (i ≤ w.length → j ≤ w.length) := by
  induction e using induction_cons generalizing i j with
  | empty | seqNil =>
    obtain rfl : i = j := h
    omega
  | symbols rs =>
    obtain ⟨c, hc, _, rfl⟩ := h
    have := (List.getElem?_eq_some_iff.mp hc).1
    omega
  | startAnchor => obtain ⟨_, rfl, rfl⟩ := h; omega
  | endAnchor => obtain ⟨rfl, rfl⟩ := h; omega
  | seqCons a es iha ihs =>
    obtain ⟨k, ha, hs⟩ := h
    have := iha ha
    have := ihs hs
    omega
  | altNil => exact h.elim
  | altCons a es iha ihs => exact h.elim iha ihs
  | star a ih =>
    induction h with
    | refl => omega
    | tail _ h ih' =>
      have := ih h
      omega
  | plus a ih =>
    induction h with
    | single h => exact ih h
    | tail _ h ih' =>
      have := ih h
      omega
  | opt a ih =>
    rcases h with rfl | h
    · omega
    · exact ih h

theorem matchesInTurn_singleton {e : Expr} {i j : Nat} :
    MatchesInTurn fresh w [e] i j ↔ e.Matches fresh w i j := by
  simp [MatchesInTurn]

/-! ## Fragments -/

theorem fragment_seq_singleton (e : Expr) (n : Nat) : (seq [e]).fragment n = e.fragment n := rfl

theorem fragment_seq_cons {e : Expr} {es : List Expr} (hne : es ≠ []) (n : Nat) :
    (seq (e :: es)).fragment n =
      (e.fragment n).append ((seq es).fragment (e.fragment n).next) := by
  obtain ⟨_, _, rfl⟩ := List.exists_cons_of_ne_nil hne
  rfl

theorem start_seq_cons (e : Expr) (es : List Expr) (n : Nat) :
    ((seq (e :: es)).fragment n).start = (e.fragment n).start := by
  cases es <;> rfl

/-- The numbers of a fragment's states: they lie from `n` to below `next`. -/
structure FragmentBounds (f : Fragment) (n : Nat) : Prop where
  start_ge : n ≤ f.start
  start_lt : f.start < f.next
  accept_ge : n ≤ f.accept
  accept_lt : f.accept < f.next
  edges : ∀ e ∈ f.edges, n ≤ e.source ∧ e.source < f.next ∧ n ≤ e.target ∧ e.target < f.next

theorem FragmentBounds.append {f g : Fragment} {n : Nat} (hf : FragmentBounds f n)
    (hg : FragmentBounds g f.next) : FragmentBounds (f.append g) n := by
  have ⟨f1, f2, f3, f4, f5⟩ := hf
  have ⟨g1, g2, g3, g4, g5⟩ := hg
  constructor <;> simp only [Fragment.append, List.forall_mem_cons, List.forall_mem_append] <;>
    try omega
  refine ⟨by omega, fun e he => ?_, fun e he => ?_⟩
  · have := f5 e he; omega
  · have := g5 e he; omega

theorem seq_bounds {es : List Expr} (h : ∀ e ∈ es, ∀ n, FragmentBounds (e.fragment n) n) (n : Nat) :
    FragmentBounds ((seq es).fragment n) n := by
  induction es generalizing n with
  | nil => constructor <;> simp [fragment, inSeries]
  | cons e es ih =>
    obtain ⟨first, rest⟩ := List.forall_mem_cons.mp h
    by_cases only : es = []
    · subst only
      exact first n
    · rw [fragment_seq_cons only]
      exact (first n).append (ih rest _)

theorem le_next_inParallel {es : List Expr} (h : ∀ e ∈ es, ∀ n, FragmentBounds (e.fragment n) n)
    (s t n : Nat) : n ≤ (inParallel s t es n).next := by
  induction es generalizing n with
  | nil => exact Nat.le_refl n
  | cons e es ih =>
    obtain ⟨first, rest⟩ := List.forall_mem_cons.mp h
    have start_ge := (first n).start_ge
    have start_lt := (first n).start_lt
    have behind := ih rest (e.fragment n).next
    show n ≤ (inParallel s t es (e.fragment n).next).next
    omega

theorem inParallel_bounds {es : List Expr} (h : ∀ e ∈ es, ∀ n, FragmentBounds (e.fragment n) n)
    {m s t n : Nat} (hs : m ≤ s ∧ s < n) (ht : m ≤ t ∧ t < n) :
    FragmentBounds (inParallel s t es n) m := by
  induction es generalizing n with
  | nil => exact ⟨hs.1, hs.2, ht.1, ht.2, List.forall_mem_nil _⟩
  | cons e es ih =>
    obtain ⟨first, rest⟩ := List.forall_mem_cons.mp h
    have ⟨f1, f2, f3, f4, f5⟩ := first n
    have ⟨_, _, _, _, g5⟩ := @ih rest (e.fragment n).next (by omega) (by omega)
    have behind := le_next_inParallel rest s t (e.fragment n).next
    constructor <;> simp only [inParallel, List.forall_mem_cons, List.forall_mem_append] <;>
      try omega
    refine ⟨by omega, by omega, fun x hx => ?_, fun x hx => ?_⟩
    · have := f5 x hx; omega
    · have := g5 x hx; omega

theorem fragment_bounds (e : Expr) (n : Nat) : FragmentBounds (e.fragment n) n := by
  induction e generalizing n with
  | empty | symbols | startAnchor | endAnchor => constructor <;> simp [fragment]
  | seq es ih => exact seq_bounds ih n
  | alt es ih => exact inParallel_bounds ih (by omega) (by omega)
  | star a ih =>
    have ⟨a1, a2, a3, a4, a5⟩ := ih (n + 2)
    constructor <;> simp only [fragment, List.forall_mem_cons, List.forall_mem_append] <;> try omega
    refine ⟨⟨by omega, by omega, by omega, by omega, by simp⟩, fun e he => ?_⟩
    have := a5 e he; omega
  | plus a ih | opt a ih =>
    have ⟨a1, a2, a3, a4, a5⟩ := ih (n + 2)
    constructor <;> simp only [fragment, List.forall_mem_cons, List.forall_mem_append] <;> try omega
    refine ⟨⟨by omega, by omega, by omega, by simp⟩, fun e he => ?_⟩
    have := a5 e he; omega

/-! ## Layout: states as residual expressions -/

mutual

/-- What is still to be matched from state `p` of the fragment laid out from `n` on. -/
def residual : Expr → (n p : Nat) → Expr
  | .seq es, n, p => .seq (residualInSeries es n p)
  | .alt es, n, p =>
    if p = n then .alt es
    else if p = n + 1 then .empty
    else residualInParallel es (n + 2) p
  | .star a, n, p =>
    if p = n then .star a
    else if p = n + 1 then .empty
    else .seq [a.residual (n + 2) p, .star a]
  | .plus a, n, p =>
    if p = n then .plus a
    else if p = n + 1 then .empty
    else .seq [a.residual (n + 2) p, .star a]
  | .opt a, n, p =>
    if p = n then .opt a
    else if p = n + 1 then .empty
    else a.residual (n + 2) p
  | e, n, p => if p = n then e else .empty

def residualInSeries : List Expr → (n p : Nat) → List Expr
  | [], _, _ => []
  | e :: es, n, p =>
    if p < (e.fragment n).next then e.residual n p :: es
    else residualInSeries es (e.fragment n).next p

def residualInParallel : List Expr → (n p : Nat) → Expr
  | [], _, _ => .empty
  | e :: es, n, p =>
    if p < (e.fragment n).next then e.residual n p
    else residualInParallel es (e.fragment n).next p

end

/-! ### Residuals of the parts of an expression -/

section

variable {a e : Expr} {es : List Expr} {n p i j : Nat}

theorem residual_seq_left (h : p < (e.fragment n).next) :
    (seq (e :: es)).residual n p = .seq (e.residual n p :: es) := congrArg seq (if_pos h)

theorem residual_seq_right (h : (e.fragment n).next ≤ p) :
    (seq (e :: es)).residual n p = (seq es).residual (e.fragment n).next p :=
  congrArg seq (if_neg (Nat.not_lt.mpr h))

theorem residualInParallel_left (h : p < (e.fragment n).next) :
    residualInParallel (e :: es) n p = e.residual n p := if_pos h

theorem residualInParallel_right (h : (e.fragment n).next ≤ p) :
    residualInParallel (e :: es) n p = residualInParallel es (e.fragment n).next p :=
  if_neg (Nat.not_lt.mpr h)

theorem residual_alt (h : n + 2 ≤ p) : (alt es).residual n p = residualInParallel es (n + 2) p :=
  (if_neg (by omega)).trans (if_neg (by omega))

theorem residual_star (h : n + 2 ≤ p) :
    a.star.residual n p = .seq [a.residual (n + 2) p, a.star] :=
  (if_neg (by omega)).trans (if_neg (by omega))

theorem residual_plus (h : n + 2 ≤ p) :
    a.plus.residual n p = .seq [a.residual (n + 2) p, a.star] :=
  (if_neg (by omega)).trans (if_neg (by omega))

theorem residual_opt (h : n + 2 ≤ p) : a.opt.residual n p = a.residual (n + 2) p :=
  (if_neg (by omega)).trans (if_neg (by omega))

end

theorem residual_start (e : Expr) (n i j : Nat) :
    (e.residual n (e.fragment n).start).Matches fresh w i j ↔ e.Matches fresh w i j := by
  induction e using induction_cons generalizing n i j with
  | seqNil => exact Iff.rfl
  | seqCons e es ih _ =>
    rw [start_seq_cons, residual_seq_left (e.fragment_bounds n).start_lt]
    exact exists_congr fun k => and_congr_left' (ih n i k)
  | _ => simp only [fragment, inParallel, residual, if_true]

theorem residual_accept (e : Expr) (n i j : Nat) :
    (e.residual n (e.fragment n).accept).Matches fresh w i j ↔ i = j := by
  induction e using induction_cons generalizing n i j with
  | seqNil => exact Iff.rfl
  | seqCons e es ih rest =>
    by_cases only : es = []
    · subst only
      rw [fragment_seq_singleton, residual_seq_left (e.fragment_bounds n).accept_lt]
      exact matchesInTurn_singleton.trans (ih n i j)
    · have behind := (seq es).fragment_bounds (e.fragment n).next
      rw [fragment_seq_cons only, Fragment.append, residual_seq_right behind.accept_ge]
      exact rest _ i j
  | _ => simp [fragment, inParallel, residual, Matches]

section

variable {a : Expr} {es : List Expr} {n i j : Nat}

theorem residual_accept_cons :
    MatchesInTurn fresh w (a.residual n (a.fragment n).accept :: es) i j ↔
      MatchesInTurn fresh w es i j := by
  simp [MatchesInTurn, residual_accept]

theorem residual_start_star :
    (seq [a.residual n (a.fragment n).start, a.star]).Matches fresh w i j ↔
      ∃ k, a.Matches fresh w i k ∧ a.star.Matches fresh w k j := by
  simp [Matches, MatchesInTurn, residual_start]

theorem residual_accept_star :
    (seq [a.residual n (a.fragment n).accept, a.star]).Matches fresh w i j ↔
      a.star.Matches fresh w i j :=
  residual_accept_cons.trans matchesInTurn_singleton

end

/-! ### Edges -/

/-- Edges respect residuals: whoever takes an edge and then matches the residual of its target has
matched the residual of its source. -/
def Respects (fresh : Bool) (w : List Char) (e : Expr) : Prop :=
  ∀ {n i k j : Nat} {x : Edge}, x ∈ (e.fragment n).edges → x.label.Takes fresh w i k →
    (e.residual n x.target).Matches fresh w k j → (e.residual n x.source).Matches fresh w i j

section

variable {a : Expr} {es : List Expr}

theorem Respects.before (ha : a.Respects fresh w) {n i k j : Nat} {x : Edge}
    (hx : x ∈ (a.fragment n).edges) (ht : x.label.Takes fresh w i k)
    (h : MatchesInTurn fresh w (a.residual n x.target :: es) k j) :
    MatchesInTurn fresh w (a.residual n x.source :: es) i j := by
  obtain ⟨m, h₁, h₂⟩ := h
  exact ⟨m, ha hx ht h₁, h₂⟩

theorem respects_symbols (rs : List CodeRange) : (symbols rs).Respects fresh w := by
  intro n i k j x hx ht h
  simp only [fragment, List.mem_map] at hx
  obtain ⟨r, hr, rfl⟩ := hx
  obtain ⟨c, hc, hrc, rfl⟩ := ht
  simp only [residual, Nat.succ_ne_self, if_false, Matches, if_true] at h ⊢
  exact ⟨c, hc, List.any_eq_true.mpr ⟨r, hr, hrc⟩, h.symm⟩

/-- By induction on the items: an edge belongs to the first of them, or to the others, or leads from
the first to the others. -/
theorem respects_seq (h : ∀ e ∈ es, e.Respects fresh w) : (seq es).Respects fresh w := by
  induction es with
  | nil => exact fun hx => absurd hx List.not_mem_nil
  | cons e es ih =>
    obtain ⟨he, hes⟩ := List.forall_mem_cons.mp h
    intro n i k j x hx takes matched
    have bounds := e.fragment_bounds n
    have inFirst (hx : x ∈ (e.fragment n).edges) :
        ((seq (e :: es)).residual n x.source).Matches fresh w i j := by
      obtain ⟨_, source, _, target⟩ := bounds.edges x hx
      rw [residual_seq_left target] at matched
      rw [residual_seq_left source]
      exact he.before hx takes matched
    by_cases only : es = []
    · subst only
      exact inFirst hx
    · have behind := (seq es).fragment_bounds (e.fragment n).next
      rw [fragment_seq_cons only, Fragment.append, List.mem_cons, List.mem_append] at hx
      rcases hx with rfl | hx | hx
      · obtain rfl : i = k := takes
        rw [residual_seq_right behind.start_ge, residual_start] at matched
        rw [residual_seq_left bounds.accept_lt]
        exact residual_accept_cons.mpr matched
      · exact inFirst hx
      · obtain ⟨source, _, target, _⟩ := behind.edges x hx
        rw [residual_seq_right target] at matched
        rw [residual_seq_right source]
        exact ih hes hx takes matched

/-- The branches between `s` and `t`, where `r` says what is still to be matched. By induction on the
branches. -/
theorem respects_inParallel {r : Nat → Expr} {s t n : Nat} (h : ∀ e ∈ es, e.Respects fresh w)
    (hs : ∀ {i j}, MatchesOneOf fresh w es i j → (r s).Matches fresh w i j)
    (ht : ∀ {i j}, (r t).Matches fresh w i j ↔ i = j)
    (inside : ∀ p, n ≤ p → r p = residualInParallel es n p) {i k j : Nat} {x : Edge}
    (hx : x ∈ (inParallel s t es n).edges) (takes : x.label.Takes fresh w i k)
    (matched : (r x.target).Matches fresh w k j) : (r x.source).Matches fresh w i j := by
  induction es generalizing n with
  | nil => exact absurd hx List.not_mem_nil
  | cons e es ih =>
    obtain ⟨he, hes⟩ := List.forall_mem_cons.mp h
    have bounds := e.fragment_bounds n
    have first {p : Nat} (above : n ≤ p) (below : p < (e.fragment n).next) : r p = e.residual n p := by
      rw [inside p above, residualInParallel_left below]
    simp only [inParallel, List.mem_cons, List.mem_append] at hx
    rcases hx with rfl | rfl | hx | hx
    · -- Into the first branch.
      obtain rfl : i = k := takes
      rw [first bounds.start_ge bounds.start_lt, residual_start] at matched
      exact hs (.inl matched)
    · -- Out of it.
      obtain rfl : i = k := takes
      rw [first bounds.accept_ge bounds.accept_lt, residual_accept]
      exact ht.mp matched
    · obtain ⟨source, source', target, target'⟩ := bounds.edges x hx
      rw [first target target'] at matched
      rw [first source source']
      exact he hx takes matched
    · have start_ge := bounds.start_ge
      have start_lt := bounds.start_lt
      refine ih hes (fun others => hs (.inr others)) (fun p above => ?_) hx
      rw [inside p (by omega), residualInParallel_right above]

theorem respects_alt (h : ∀ e ∈ es, e.Respects fresh w) : (alt es).Respects fresh w := by
  intro n i k j x hx takes matched
  have first : (alt es).residual n n = alt es := if_pos rfl
  have last : (alt es).residual n (n + 1) = .empty := (if_neg n.succ_ne_self).trans (if_pos rfl)
  refine respects_inParallel h (r := (alt es).residual n) ?_ ?_ (fun p => residual_alt) hx takes matched
  · intro i j oneOf
    rw [first]
    exact oneOf
  · intro i j
    rw [last]
    exact Iff.rfl

theorem Respects.star (ha : a.Respects fresh w) : a.star.Respects fresh w := by
  intro n i k j x hx ht h
  have bounds := a.fragment_bounds (n + 2)
  have first : a.star.residual n n = a.star := if_pos rfl
  have last : a.star.residual n (n + 1) = .empty := (if_neg n.succ_ne_self).trans (if_pos rfl)
  simp only [fragment, List.mem_cons, List.mem_append, List.not_mem_nil, or_false] at hx
  rcases hx with (rfl | rfl | rfl | rfl) | hx
  · -- Into the body.
    obtain rfl : i = k := ht
    rw [residual_star bounds.start_ge] at h
    obtain ⟨m, h₁, h₂⟩ := residual_start_star.mp h
    rw [first]
    exact .head h₁ h₂
  · -- Out of the body.
    obtain rfl : i = k := ht
    rw [last] at h
    rw [residual_star bounds.accept_ge]
    obtain rfl : i = j := h
    exact residual_accept_star.mpr .refl
  · -- Past the body.
    obtain rfl : i = k := ht
    rw [last] at h
    rw [first]
    obtain rfl : i = j := h
    exact .refl
  · -- From the end of the body back to its start.
    obtain rfl : i = k := ht
    rw [residual_star bounds.start_ge] at h
    obtain ⟨m, h₁, h₂⟩ := residual_start_star.mp h
    rw [residual_star bounds.accept_ge]
    exact residual_accept_star.mpr (.head h₁ h₂)
  · obtain ⟨source, _, target, _⟩ := bounds.edges x hx
    rw [residual_star target] at h
    rw [residual_star source]
    exact ha.before hx ht h

theorem Respects.plus (ha : a.Respects fresh w) : a.plus.Respects fresh w := by
  intro n i k j x hx ht h
  have bounds := a.fragment_bounds (n + 2)
  have first : a.plus.residual n n = a.plus := if_pos rfl
  have last : a.plus.residual n (n + 1) = .empty := (if_neg n.succ_ne_self).trans (if_pos rfl)
  simp only [fragment, List.mem_cons, List.mem_append, List.not_mem_nil, or_false] at hx
  -- As for a star, but there is no edge past the body.
  rcases hx with (rfl | rfl | rfl) | hx
  · obtain rfl : i = k := ht
    rw [residual_plus bounds.start_ge] at h
    obtain ⟨m, h₁, h₂⟩ := residual_start_star.mp h
    rw [first]
    exact .head' h₁ h₂
  · obtain rfl : i = k := ht
    rw [last] at h
    rw [residual_plus bounds.accept_ge]
    obtain rfl : i = j := h
    exact residual_accept_star.mpr .refl
  · obtain rfl : i = k := ht
    rw [residual_plus bounds.start_ge] at h
    obtain ⟨m, h₁, h₂⟩ := residual_start_star.mp h
    rw [residual_plus bounds.accept_ge]
    exact residual_accept_star.mpr (.head h₁ h₂)
  · obtain ⟨source, _, target, _⟩ := bounds.edges x hx
    rw [residual_plus target] at h
    rw [residual_plus source]
    exact ha.before hx ht h

theorem Respects.opt (ha : a.Respects fresh w) : a.opt.Respects fresh w := by
  intro n i k j x hx ht h
  have bounds := a.fragment_bounds (n + 2)
  have first : a.opt.residual n n = a.opt := if_pos rfl
  have last : a.opt.residual n (n + 1) = .empty := (if_neg n.succ_ne_self).trans (if_pos rfl)
  simp only [fragment, List.mem_cons, List.mem_append, List.not_mem_nil, or_false] at hx
  -- As for a star, but there is no edge back to the start of the body.
  rcases hx with (rfl | rfl | rfl) | hx
  · obtain rfl : i = k := ht
    rw [residual_opt bounds.start_ge, residual_start] at h
    rw [first]
    exact .inr h
  · obtain rfl : i = k := ht
    rw [last] at h
    rw [residual_opt bounds.accept_ge, residual_accept]
    exact h
  · obtain rfl : i = k := ht
    rw [last] at h
    rw [first]
    exact .inl h
  · obtain ⟨source, _, target, _⟩ := bounds.edges x hx
    rw [residual_opt target] at h
    rw [residual_opt source]
    exact ha hx ht h

end

theorem residual_edge (e : Expr) : e.Respects fresh w := by
  induction e with
  | empty => exact fun hx => absurd hx List.not_mem_nil
  | symbols rs => exact respects_symbols rs
  | startAnchor | endAnchor =>
    intro n i k j x hx ht h
    simp only [fragment, List.mem_singleton] at hx
    subst hx
    simp only [residual, Nat.succ_ne_self, if_false, Matches, if_true] at h ⊢
    exact h ▸ ht
  | seq es h => exact respects_seq h
  | alt es h => exact respects_alt h
  | star a ha => exact ha.star
  | plus a ha => exact ha.plus
  | opt a ha => exact ha.opt

theorem residual_path (e : Expr) (n : Nat) {s t : Nat × Nat} {j : Nat}
    (hp : Edge.Path fresh w (e.fragment n).edges s t)
    (h : (e.residual n t.1).Matches fresh w t.2 j) : (e.residual n s.1).Matches fresh w s.2 j := by
  induction hp using ReflTransGen.head_induction_on with
  | refl => exact h
  | head hst _ ih =>
    obtain ⟨l, hl, ht⟩ := hst
    exact residual_edge e hl ht ih

theorem path_of_silent {edges : List Edge} {p q i : Nat} (h : ⟨p, .silent, q⟩ ∈ edges) :
    Edge.Path fresh w edges (p, i) (q, i) :=
  .single ⟨.silent, h, rfl⟩

/-- Repetition walks back from the end of the body to its start. -/
theorem path_of_transGen {R : Nat → Nat → Prop} {edges : List Edge} {p q i j : Nat}
    (again : ⟨q, .silent, p⟩ ∈ edges) (body : ∀ i j, R i j → Edge.Path fresh w edges (p, i) (q, j))
    (h : TransGen R i j) : Edge.Path fresh w edges (p, i) (q, j) := by
  induction h with
  | single h => exact body _ _ h
  | tail _ h ih => exact ih.trans ((path_of_silent again).trans (body _ _ h))

/-- Whatever the expression matches, its fragment can be walked through, also as a part of a larger
machine. -/
def Walkable (fresh : Bool) (w : List Char) (e : Expr) : Prop :=
  ∀ (n : Nat) {edges : List Edge}, (∀ x ∈ (e.fragment n).edges, x ∈ edges) → ∀ {i j : Nat},
    e.Matches fresh w i j →
      Edge.Path fresh w edges ((e.fragment n).start, i) ((e.fragment n).accept, j)

theorem walkable_seq {es : List Expr} (h : ∀ e ∈ es, e.Walkable fresh w) :
    (seq es).Walkable fresh w := by
  induction es with
  | nil =>
    intro n edges _ i j matched
    obtain rfl : i = j := matched
    exact .refl
  | cons e es ih =>
    obtain ⟨first, rest⟩ := List.forall_mem_cons.mp h
    rintro n edges hsub i j ⟨k, matched, others⟩
    by_cases only : es = []
    · subst only
      obtain rfl : k = j := others
      exact first n hsub matched
    · rw [fragment_seq_cons only] at hsub ⊢
      simp only [Fragment.append, List.forall_mem_cons, List.forall_mem_append] at hsub ⊢
      obtain ⟨bridge, inFirst, inRest⟩ := hsub
      exact (first n inFirst matched).trans ((path_of_silent bridge).trans (ih rest _ inRest others))

theorem path_inParallel {es : List Expr} (h : ∀ e ∈ es, e.Walkable fresh w) {s t n : Nat}
    {edges : List Edge} (hsub : ∀ x ∈ (inParallel s t es n).edges, x ∈ edges) {i j : Nat}
    (matched : MatchesOneOf fresh w es i j) : Edge.Path fresh w edges (s, i) (t, j) := by
  induction es generalizing n with
  | nil => exact matched.elim
  | cons e es ih =>
    obtain ⟨first, rest⟩ := List.forall_mem_cons.mp h
    simp only [inParallel, List.forall_mem_cons, List.forall_mem_append] at hsub
    obtain ⟨enter, leave, inFirst, inRest⟩ := hsub
    rcases matched with matched | others
    · exact (path_of_silent enter).trans ((first n inFirst matched).trans (path_of_silent leave))
    · exact ih rest inRest others

theorem walkable_alt {es : List Expr} (h : ∀ e ∈ es, e.Walkable fresh w) :
    (alt es).Walkable fresh w := by
  intro n edges hsub i j matched
  have through := path_inParallel h hsub matched
  cases es <;> exact through

theorem path_of_matches (e : Expr) : e.Walkable fresh w := by
  induction e with
  | seq es ih => exact walkable_seq ih
  | alt es ih => exact walkable_alt ih
  | empty =>
    intro n edges _ i j h
    obtain rfl : i = j := h
    exact .refl
  | symbols rs =>
    intro n edges hsub i j h
    obtain ⟨c, hc, hrs, rfl⟩ := h
    obtain ⟨r, hr, hrc⟩ := List.any_eq_true.mp hrs
    exact .single ⟨.symbol r, hsub _ (List.mem_map_of_mem hr), c, hc, hrc, rfl⟩
  | startAnchor =>
    intro n edges hsub i j h
    exact .single ⟨.startOfInput, hsub _ List.mem_cons_self, h⟩
  | endAnchor =>
    intro n edges hsub i j h
    exact .single ⟨.endOfInput, hsub _ List.mem_cons_self, h⟩
  | star a ih =>
    intro n edges hsub i j h
    simp only [fragment, List.forall_mem_cons, List.forall_mem_append] at hsub
    obtain ⟨⟨enter, leave, skip, again, _⟩, ina⟩ := hsub
    rcases Relation.reflTransGen_iff_eq_or_transGen.mp h with rfl | h
    · exact path_of_silent skip
    · have through := path_of_transGen again (fun i j => ih (n + 2) ina) h
      exact (path_of_silent enter).trans (through.trans (path_of_silent leave))
  | plus a ih =>
    intro n edges hsub i j h
    simp only [fragment, List.forall_mem_cons, List.forall_mem_append] at hsub
    obtain ⟨⟨enter, leave, again, _⟩, ina⟩ := hsub
    have through := path_of_transGen again (fun i j => ih (n + 2) ina) h
    exact (path_of_silent enter).trans (through.trans (path_of_silent leave))
  | opt a ih =>
    intro n edges hsub i j h
    simp only [fragment, List.forall_mem_cons, List.forall_mem_append] at hsub
    obtain ⟨⟨enter, leave, skip, _⟩, ina⟩ := hsub
    rcases h with rfl | h
    · exact path_of_silent skip
    · exact (path_of_silent enter).trans ((ih _ ina h).trans (path_of_silent leave))

/-- The machine of an expression leads from its start to its accepting state between those
positions that the expression matches. -/
theorem path_machine (e : Expr) {i j : Nat} :
    Edge.Path fresh w e.machine.edges (e.machine.start, i) (e.machine.accept, j) ↔
      e.Matches fresh w i j := by
  constructor
  · intro h
    exact (residual_start ..).mp (residual_path e 0 h ((residual_accept ..).mpr rfl))
  · exact path_of_matches e 0 fun _ h => h

end Expr

end ScrapeConfig
