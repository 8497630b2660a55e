import ScrapeConfig.Proofs.Pattern.Acceptance
import ScrapeConfig.Proofs.Pattern.Language

/-!
# Patterns on the empty input

At the only position of the empty input both anchors hold, so an expression matches there if there is a
way through it on which nothing is read, whatever anchors it passes. An automaton passes the anchors in
two rounds, first every `^` and behind them every `$`. It does not find a way on which `^` stands behind
`$`.

Results:
1. `Expr.Passes`: the anchors on the ways through an expression on which nothing is read.
   `Expr.matches_nil_iff`: there is such a way if and only if the empty input is matched.
2. `Expr.fragment_overAnchors`: the machine of an expression passes these anchors like symbols that are
   read. `Expr.passesInOrder_iff`: so the two rounds are the ways with every `^` in front of every `$`.
3. `Pattern.longestPrefix_nil`: what a pattern finds in the empty input.
-/

namespace ScrapeConfig

open Relation (ReflTransGen TransGen)
open StateSet (Linked)

/-- The character that an anchor is written as. -/
def Label.anchor? : Label → Option Char
  | .startOfInput => some '^'
  | .endOfInput => some '$'
  | .silent | .symbol _ => none

namespace Expr

/-! ## The anchors on a way -/

/-- What stands for a leaf over the two anchors: an anchor is read as a symbol, and no other symbol
is. -/
def leafOverAnchors : Expr → Expr
  | .symbols _ => .symbols []
  | .startAnchor => .symbols [.single '^']
  | .endAnchor => .symbols [.single '$']
  | e => e

/-- The expression over the two anchors: these are read as symbols, and no other symbol is. -/
def overAnchors (e : Expr) : Expr := e.mapLeaves leafOverAnchors

/-- There is a way through the expression on which nothing is read and these anchors are passed, one
behind the other. -/
def Passes (e : Expr) (anchors : List Char) : Prop := e.overAnchors.Denotes anchors

/-- There is such a way with every `^` in front of every `$`. -/
def PassesInOrder (e : Expr) : Prop :=
  ∃ m n, e.Passes (List.replicate m '^' ++ List.replicate n '$')

theorem Matches.eq_zero {e : Expr} {fresh : Bool} {j : Nat} (h : e.Matches fresh [] 0 j) : j = 0 :=
  Nat.le_zero.mp (h.mono.2 (Nat.le_refl 0))

/-- The empty input is matched if there is a way on which nothing is read, by induction on the
expression. -/
theorem matches_nil_iff (e : Expr) : e.Matches true [] 0 0 ↔ ∃ u, e.Passes u := by
  induction e using induction_cons with
  | empty | seqNil => exact iff_of_true rfl ⟨[], rfl⟩
  | symbols rs => exact iff_of_false nofun fun ⟨_, _, _, covered⟩ => Bool.false_ne_true covered
  | startAnchor => exact iff_of_true ⟨rfl, rfl, rfl⟩ ⟨_, '^', rfl, rfl⟩
  | endAnchor => exact iff_of_true ⟨rfl, rfl⟩ ⟨_, '$', rfl, rfl⟩
  | seqCons a es iha ihs =>
    constructor
    · rintro ⟨k, ha, hs⟩
      obtain rfl := ha.eq_zero
      obtain ⟨u, hu⟩ := iha.mp ha
      obtain ⟨v, hv⟩ := ihs.mp hs
      exact ⟨u ++ v, u, v, rfl, hu, hv⟩
    · rintro ⟨_, u, v, _, hu, hv⟩
      exact ⟨0, iha.mpr ⟨u, hu⟩, ihs.mpr ⟨v, hv⟩⟩
  | altNil => exact iff_of_false id fun ⟨_, nothing⟩ => nothing
  | altCons a es iha ihs => exact (or_congr iha ihs).trans exists_or.symm
  | star a _ => exact iff_of_true .refl ⟨[], [], rfl, List.forall_mem_nil _⟩
  | plus a ih =>
    constructor
    · intro rounds
      -- A round ends where it began, so the first one is a way by itself.
      obtain ⟨k, first, _⟩ := TransGen.head'_iff.mp rounds
      obtain rfl := first.eq_zero
      obtain ⟨u, hu⟩ := ih.mp first
      exact ⟨u, [u], List.cons_ne_nil _ _, (List.append_nil u).symm, List.forall_mem_singleton.mpr hu⟩
    · rintro ⟨_, xs, nonempty, _, passed⟩
      obtain ⟨u, hu⟩ := List.exists_mem_of_ne_nil xs nonempty
      exact .single (ih.mpr ⟨u, passed u hu⟩)
  | opt a _ => exact iff_of_true (.inl rfl) ⟨[], .inl rfl⟩

end Expr

/-! ## Machines over the anchors -/

/-- The edge as one over the anchors, unless it reads a symbol. -/
def Edge.overAnchors? (x : Edge) : Option Edge :=
  match x.label with
  | .silent => some x
  | l => l.anchor?.map fun c => ⟨x.source, .symbol (.single c), x.target⟩

namespace Expr

/-- The fragment is one over the anchors in place of the other. -/
def OverAnchors (f' f : Fragment) : Prop :=
  f' = { f with edges := f.edges.filterMap Edge.overAnchors? }

theorem overAnchors_inSeries {es : List Expr}
    (h : ∀ e ∈ es, ∀ n, OverAnchors (e.overAnchors.fragment n) (e.fragment n)) (n : Nat) :
    OverAnchors (inSeries (mapAll leafOverAnchors es) n) (inSeries es n) := by
  induction es generalizing n with
  | nil => rfl
  | cons e es ih =>
    obtain ⟨first, rest⟩ := List.forall_mem_cons.mp h
    cases es with
    | nil => exact first n
    | cons e' es =>
      have head := first n
      have tail := ih rest (e.fragment n).next
      simp only [OverAnchors, overAnchors, mapAll] at head tail
      simp [OverAnchors, mapAll, inSeries, Fragment.append, head, tail, Edge.overAnchors?]

theorem overAnchors_inParallel {es : List Expr}
    (h : ∀ e ∈ es, ∀ n, OverAnchors (e.overAnchors.fragment n) (e.fragment n)) (s t n : Nat) :
    OverAnchors (inParallel s t (mapAll leafOverAnchors es) n) (inParallel s t es n) := by
  induction es generalizing n with
  | nil => rfl
  | cons e es ih =>
    obtain ⟨first, rest⟩ := List.forall_mem_cons.mp h
    have head := first n
    have tail := ih rest (e.fragment n).next
    simp only [OverAnchors, overAnchors] at head tail
    simp [OverAnchors, mapAll, inParallel, head, tail, Edge.overAnchors?]

theorem fragment_overAnchors (e : Expr) (n : Nat) :
    OverAnchors (e.overAnchors.fragment n) (e.fragment n) := by
  induction e generalizing n with
  | empty | startAnchor | endAnchor => rfl
  | symbols rs =>
    have dropped : (fragment (.symbols rs) n).edges.filterMap Edge.overAnchors? = [] := by
      simp [fragment, List.filterMap_map, Edge.overAnchors?, Label.anchor?]
    rw [OverAnchors, dropped]
    rfl
  | seq es ih => exact overAnchors_inSeries ih n
  | alt es ih => exact overAnchors_inParallel ih n (n + 1) (n + 2)
  | star a ih | plus a ih | opt a ih =>
    have body := ih (n + 2)
    simp only [OverAnchors, overAnchors] at body
    simp [OverAnchors, overAnchors, mapLeaves, fragment, body, Edge.overAnchors?]

theorem plain_overAnchors (e : Expr) : e.overAnchors.Plain := by
  induction e using induction_cons with
  | empty | symbols | startAnchor | endAnchor => exact ⟨nofun, nofun⟩
  | seqNil | altNil => trivial
  | seqCons a es iha ihs | altCons a es iha ihs => exact ⟨iha, ihs⟩
  | star a ih | plus a ih | opt a ih => exact ih

variable {e : Expr} {w : List Char}

theorem machine_overAnchors (e : Expr) :
    e.overAnchors.machine = { e.machine with
      edges := e.machine.edges.filterMap Edge.overAnchors? } := by
  rw [machine, fragment_overAnchors]
  rfl

theorem contains_single {c d : Char} : (CodeRange.single c).contains d.toNat ↔ d = c := by
  rw [CodeRange.contains, Bool.and_eq_true, decide_eq_true_iff, decide_eq_true_iff, ← Char.toNat_inj]
  exact ⟨fun h => Nat.le_antisymm h.2 h.1, fun h => ⟨h.ge, h.le⟩⟩

/-- The machine over the anchors takes the silent edges, and those of an anchor by reading it. -/
theorem step_overAnchors {p q i j : Nat} :
    Edge.Step true w e.overAnchors.machine.edges (p, i) (q, j) ↔
      (⟨p, .silent, q⟩ ∈ e.machine.edges ∧ i = j) ∨
        ∃ l c, ⟨p, l, q⟩ ∈ e.machine.edges ∧ l.anchor? = some c ∧ w[i]? = some c ∧ j = i + 1 := by
  rw [machine_overAnchors]
  constructor
  · rintro ⟨l', mem, takes⟩
    obtain ⟨⟨p', l, q'⟩, hx, becomes⟩ := List.mem_filterMap.mp mem
    cases l with
    | silent =>
      cases becomes
      exact .inl ⟨hx, takes⟩
    | symbol r => cases becomes
    | startOfInput | endOfInput =>
      cases becomes
      obtain ⟨c, hc, read, hj⟩ := takes
      obtain rfl := contains_single.mp read
      exact .inr ⟨_, _, hx, rfl, hc, hj⟩
  · rintro (⟨hx, rfl⟩ | ⟨l, c, hx, anchor, hc, rfl⟩)
    · exact ⟨.silent, List.mem_filterMap.mpr ⟨_, hx, rfl⟩, rfl⟩
    · refine ⟨.symbol (.single c), List.mem_filterMap.mpr ⟨_, hx, ?_⟩, c, hc,
        contains_single.mpr rfl, rfl⟩
      cases l <;> cases anchor <;> rfl

/-- The anchors passed are a way through the machine. -/
theorem passes_iff_path :
    e.Passes w ↔ Edge.Path true w e.overAnchors.machine.edges (e.machine.start, 0)
      (e.machine.accept, w.length) := by
  have path := @path_machine true w e.overAnchors 0 w.length
  rw [matches_zero_iff e.plain_overAnchors] at path
  rw [machine_overAnchors] at path ⊢
  refine Iff.trans ?_ path.symm
  constructor
  · exact fun passed => ⟨w, [], (List.append_nil w).symm, rfl, passed⟩
  · rintro ⟨u, y, rfl, length, passed⟩
    obtain rfl : y = [] := by simpa using length
    rwa [List.append_nil]

/-! ## Rounds -/

theorem linked_anchor_iff (he : e.Valid) {label : Label} {p q : Nat} :
    Linked (e.machine.anchor label).links p q ↔
      ⟨p, .silent, q⟩ ∈ e.machine.edges ∨ ⟨p, label, q⟩ ∈ e.machine.edges := by
  have hm := sound_machine he
  rw [(Machine.sound_anchor hm label).linked, Machine.linked_silent hm]
  exact or_congr_right Machine.mem_edgesWith

/-- A round passes the same anchor again and again. -/
theorem path_of_round (he : e.Valid) {label : Label} {c : Char} (written : label.anchor? = some c)
    {p q : Nat} (round : ReflTransGen (Linked (e.machine.anchor label).links) p q) :
    ∃ k, ∀ front behind, Edge.Path true (front ++ (List.replicate k c ++ behind))
      e.overAnchors.machine.edges (p, front.length) (q, front.length + k) := by
  induction round with
  | refl => exact ⟨0, fun _ _ => .refl⟩
  | @tail q' q _ link ih =>
    obtain ⟨k, path⟩ := ih
    rcases (linked_anchor_iff he).mp link with silent | passed
    · exact ⟨k, fun front behind => (path front behind).tail
        (step_overAnchors.mpr (.inl ⟨silent, rfl⟩))⟩
    · refine ⟨k + 1, fun front behind => ?_⟩
      rw [List.replicate_succ', List.append_assoc]
      refine (path front ([c] ++ behind)).tail
        (step_overAnchors.mpr (.inr ⟨label, c, passed, written, ?_, rfl⟩))
      rw [List.getElem?_append_right (Nat.le_add_right _ _), Nat.add_sub_cancel_left,
        List.getElem?_append_right (List.length_replicate ▸ Nat.le_refl k), List.length_replicate,
        Nat.sub_self]
      rfl

theorem anchor_cases {l : Label} {c : Char} {m n i : Nat} (written : l.anchor? = some c)
    (here : (List.replicate m '^' ++ List.replicate n '$')[i]? = some c) :
    i < m ∧ l = .startOfInput ∨ m ≤ i ∧ l = .endOfInput := by
  rw [List.getElem?_append, List.length_replicate, List.getElem?_replicate,
    List.getElem?_replicate] at here
  cases l with
  | silent | symbol => cases written
  | startOfInput =>
    cases written
    split at here
    · next before => exact .inl ⟨before, rfl⟩
    · split at here <;> cases here
  | endOfInput =>
    cases written
    split at here
    · cases here
    · next behind => exact .inr ⟨Nat.le_of_not_lt behind, rfl⟩

/-- A way on which every `^` stands in front of every `$` consists of two rounds. In front of the first
`$` it is still in the first one. By induction on the way. -/
theorem rounds_of_path (he : e.Valid) {m n p : Nat} {s : Nat × Nat}
    (path : Edge.Path true (List.replicate m '^' ++ List.replicate n '$')
      e.overAnchors.machine.edges (p, 0) s) :
    ∃ q, ReflTransGen (Linked (e.machine.anchor .startOfInput).links) p q ∧
      ReflTransGen (Linked (e.machine.anchor .endOfInput).links) q s.1 ∧ (s.2 ≤ m → q = s.1) := by
  induction path with
  | refl => exact ⟨p, .refl, .refl, fun _ => rfl⟩
  | @tail s t _ step ih =>
    obtain ⟨r, i⟩ := s
    obtain ⟨r', j⟩ := t
    obtain ⟨q, first, second, early⟩ := ih
    dsimp only at second early ⊢
    rcases step_overAnchors.mp step with ⟨silent, rfl⟩ | ⟨l, c, edge, written, hc, rfl⟩
    · -- Where no `$` has been passed, a silent edge still belongs to the first round.
      by_cases inFirst : i ≤ m
      · obtain rfl := early inFirst
        exact ⟨r', first.tail ((linked_anchor_iff he).mpr (.inl silent)), .refl, fun _ => rfl⟩
      · exact ⟨q, first, second.tail ((linked_anchor_iff he).mpr (.inl silent)),
          fun h => absurd h inFirst⟩
    · rcases anchor_cases written hc with ⟨before, rfl⟩ | ⟨behind, rfl⟩
      · obtain rfl := early before.le
        exact ⟨r', first.tail ((linked_anchor_iff he).mpr (.inr edge)), .refl, fun _ => rfl⟩
      · exact ⟨q, first, second.tail ((linked_anchor_iff he).mpr (.inr edge)),
          fun h => absurd h (Nat.not_le.mpr (Nat.lt_succ_of_le behind))⟩

/-- The two rounds of an automaton are the ways with every `^` in front of every `$`. -/
theorem passesInOrder_iff (he : e.Valid) :
    e.PassesInOrder ↔ ∃ q,
      ReflTransGen (Linked (e.machine.anchor .startOfInput).links) e.machine.start q ∧
      ReflTransGen (Linked (e.machine.anchor .endOfInput).links) q e.machine.accept := by
  constructor
  · rintro ⟨m, n, passed⟩
    obtain ⟨q, first, second, _⟩ := rounds_of_path he (passes_iff_path.mp passed)
    exact ⟨q, first, second⟩
  · rintro ⟨q, first, second⟩
    obtain ⟨m, starts⟩ := path_of_round he rfl first
    obtain ⟨n, ends⟩ := path_of_round he rfl second
    refine ⟨m, n, passes_iff_path.mpr ?_⟩
    have starts := starts [] (List.replicate n '$')
    have ends := ends (List.replicate m '^') []
    rw [List.nil_append, List.length_nil, Nat.zero_add] at starts
    rw [List.append_nil, List.length_replicate] at ends
    rw [List.length_append, List.length_replicate, List.length_replicate]
    exact starts.trans ends

end Expr

namespace Pattern

variable {source : String} {fold : Bool} {p : Pattern}

theorem Sound.accepts_nil_iff (h : p.Sound) {n : Nat} :
    p.Accepts [] n ↔ n = 0 ∧ p.expr.PassesInOrder :=
  h.accepts_nil.trans (and_congr_right fun _ => (Expr.passesInOrder_iff h.valid).symm)

theorem Sound.longestPrefix_nil_eq_some_iff (h : p.Sound) :
    p.longestPrefix [] = some 0 ↔ p.expr.PassesInOrder := by
  rw [(p.longestPrefix_longest []).isGreatest]
  constructor
  · rintro ⟨⟨_, accepted⟩, _⟩
    exact (h.accepts_nil_iff.mp accepted).2
  · intro passed
    exact ⟨⟨Nat.le_refl 0, h.accepts_nil_iff.mpr ⟨rfl, passed⟩⟩, fun _ shorter => shorter.1⟩

theorem Sound.longestPrefix_nil_eq_none_iff (h : p.Sound) :
    p.longestPrefix [] = none ↔ ¬ p.expr.PassesInOrder := by
  rw [(p.longestPrefix_longest []).eq_none_iff]
  constructor
  · intro nothing passed
    exact nothing 0 (Nat.le_refl 0) (h.accepts_nil_iff.mpr ⟨rfl, passed⟩)
  · intro missed _ _ accepted
    exact missed (h.accepts_nil_iff.mp accepted).2

/-- In the empty input a pattern finds the empty match if its expression can be passed without reading on
a way with every `^` in front of every `$`, and otherwise it finds nothing. So it finds what matches there
unless all ways have a `^` behind a `$`. -/
theorem longestPrefix_nil (compiled : compile source fold = .ok p) :
    ∃ e, read source.toList fold = .ok e ∧
      (p.longestPrefix [] = some 0 ↔ e.PassesInOrder) ∧
      (p.longestPrefix [] = none ↔ ¬ e.PassesInOrder) ∧
      (e.Matches true [] 0 0 ↔ ∃ u, e.Passes u) ∧
      ((p.longestPrefix [] = some 0 ↔ e.Matches true [] 0 0) ↔
        ((∃ u, e.Passes u) → e.PassesInOrder)) := by
  have sound := sound_compile compiled
  obtain ⟨e, hread, rfl⟩ := compile_eq_ok.mp compiled
  have found := sound.longestPrefix_nil_eq_some_iff
  have matched := e.matches_nil_iff
  have inOrder : e.PassesInOrder → ∃ u, e.Passes u := fun ⟨_, _, passed⟩ => ⟨_, passed⟩
  refine ⟨e, hread, found, sound.longestPrefix_nil_eq_none_iff, matched, ?_⟩
  rw [found, matched]
  exact ⟨fun agree => agree.mpr, fun reorder => ⟨inOrder, reorder⟩⟩

/-- The empty input is matched, but only by a `^` behind a `$`. -/
theorem longestPrefix_nil_reversed :
    ∃ p e, compile "$^" false = .ok p ∧ read "$^".toList false = .ok e ∧
      e.Matches true [] 0 0 ∧ ¬ e.PassesInOrder ∧ p.longestPrefix [] = none := by
  have compiled : ∃ p, compile "$^" false = .ok p ∧ p.longestPrefix [] = none :=
    ⟨_, rfl, by decide +kernel⟩
  obtain ⟨p, hp, nothing⟩ := compiled
  obtain ⟨e, hread, _, missed, _⟩ := longestPrefix_nil hp
  have read : read "$^".toList false = .ok (.seq [.endAnchor, .startAnchor]) := rfl
  obtain rfl := Except.ok.inj (read.symm.trans hread)
  have matched : (Expr.seq [.endAnchor, .startAnchor]).Matches true [] 0 0 :=
    ⟨0, ⟨rfl, rfl⟩, 0, ⟨rfl, rfl, rfl⟩, rfl⟩
  exact ⟨p, _, hp, hread, matched, missed.mp nothing, nothing⟩

end Pattern

end ScrapeConfig
