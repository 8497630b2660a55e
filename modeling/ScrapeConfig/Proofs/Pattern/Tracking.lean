import ScrapeConfig.Pattern.Basic
import ScrapeConfig.Proofs.Pattern.Meaning
import ScrapeConfig.Proofs.Pattern.Subset

/-!
# Automata track their machines

While the automaton of an expression reads an input, its state stands for the set of machine states
that can be reached in the meantime (`Expr.Tracks`). The anchors are taken between symbols, so the
set behind the last symbol lacks what `$` leads to; asking for acceptance at the end makes up for it.

Three lemmas say all that users of an automaton need: how tracking begins (`Expr.tracks_opening`),
that reading a symbol keeps it (`Expr.Tracks.next`), and that acceptance means a match
(`Expr.Tracks.accepts_iff`).
-/

namespace ScrapeConfig

open Relation (ReflTransGen)
open StateSet (Linked)

/-! ## The tables of a machine -/

namespace Machine

/-- All edges lie between states of the machine, and all ranges are valid. -/
structure Sound (m : Machine) : Prop where
  start_lt : m.start < m.size
  source_lt : ∀ e ∈ m.edges, e.source < m.size
  target_lt : ∀ e ∈ m.edges, e.target < m.size
  valid : ∀ e ∈ m.edges, ∀ r, e.label = .symbol r → r.Valid

/-- For every state below `n` what `entry` finds on the edges that leave it. -/
def table {α : Type} (entry : Edge → Option α) (n : Nat) (edges : List Edge) : Array (List α) :=
  edges.foldr (fun e t => match entry e with
    | some x => t.modify e.source (x :: ·)
    | none => t) (Array.replicate n [])

theorem size_table {α : Type} (entry : Edge → Option α) (n : Nat) (edges : List Edge) :
    (table entry n edges).size = n := by
  induction edges with
  | nil => simp [table]
  | cons e edges ih =>
    simp only [table, List.foldr_cons] at ih ⊢
    split <;> simpa using ih

theorem mem_table {α : Type} {entry : Edge → Option α} {n : Nat} {edges : List Edge}
    (hs : ∀ e ∈ edges, e.source < n) {p : Nat} {x : α} :
    x ∈ (table entry n edges)[p]?.getD [] ↔ ∃ e ∈ edges, e.source = p ∧ entry e = some x := by
  induction edges with
  | nil =>
    simp only [table, List.foldr_nil, List.not_mem_nil, false_and, exists_false, iff_false]
    rw [Array.getElem?_replicate]
    split <;> simp
  | cons e edges ih =>
    rw [List.forall_mem_cons] at hs
    have ih := ih hs.2
    have hsize := size_table entry n edges
    simp only [List.mem_cons, exists_eq_or_imp, ← ih]
    have unfold_table : table entry n (e :: edges) = match entry e with
      | some x => (table entry n edges).modify e.source (x :: ·)
      | none => table entry n edges := rfl
    rw [unfold_table]
    cases he : entry e with
    | none => simp
    | some y =>
      dsimp only
      rw [Array.getElem?_modify]
      split
      · next heq =>
        subst heq
        rw [Array.getElem?_eq_getElem (by omega)]
        simp [eq_comm]
      · next hne => simp [hne]

variable {m : Machine}

theorem linked_links (hm : m.Sound) {free : Label → Bool} {p q : Nat} :
    Linked (m.links free) p q ↔ ∃ l, free l ∧ ⟨p, l, q⟩ ∈ m.edges := by
  have same : m.links free =
      table (fun e => if free e.label then some e.target else none) m.size m.edges := by
    unfold links table
    congr 1
    funext e t
    split <;> simp_all
  rw [Linked, same, mem_table hm.source_lt]
  constructor
  · rintro ⟨⟨p', l, q'⟩, he, rfl, h⟩
    simp only [Option.ite_none_right_eq_some, Option.some.injEq] at h
    exact ⟨l, h.1, h.2 ▸ he⟩
  · rintro ⟨l, hl, he⟩
    exact ⟨_, he, rfl, by simp [hl]⟩

theorem mem_symbols (hm : m.Sound) {p q : Nat} {r : CodeRange} :
    (r, q) ∈ m.symbols[p]?.getD [] ↔ ⟨p, .symbol r, q⟩ ∈ m.edges := by
  have same : m.symbols = table (fun e => match e.label with
      | .symbol r => some (r, e.target)
      | .silent => none
      | .startOfInput => none
      | .endOfInput => none) m.size m.edges := by
    unfold symbols table
    congr 1
    funext e t
    obtain ⟨p, l, q⟩ := e
    cases l <;> rfl
  rw [same, mem_table hm.source_lt]
  constructor
  · rintro ⟨⟨p', l, q'⟩, he, rfl, h⟩
    cases l <;> simp at h
    exact h.1 ▸ h.2 ▸ he
  · intro he
    exact ⟨_, he, rfl, rfl⟩

theorem mem_edgesWith {label : Label} {p q : Nat} :
    (p, q) ∈ m.edgesWith label ↔ ⟨p, label, q⟩ ∈ m.edges := by
  rw [edgesWith, List.mem_filterMap]
  constructor
  · rintro ⟨⟨p', l, q'⟩, he, h⟩
    simp only [Option.ite_none_right_eq_some, Option.some.injEq, Prod.mk.injEq] at h
    obtain ⟨rfl, rfl, rfl⟩ := h
    exact he
  · intro he
    exact ⟨_, he, by simp⟩

/-- What the subset construction is told of a machine. -/
def source (m : Machine) : Subset.Source := ⟨m.accept, m.symbols, m.links (· == .silent)⟩

theorem sound_source (hm : m.Sound) : Subset.Source.Sound m.source m.size where
  valid p r q h := hm.valid _ ((mem_symbols hm).mp h) r rfl
  target_lt p r q h := hm.target_lt _ ((mem_symbols hm).mp h)
  silent_lt p q h := by
    obtain ⟨l, _, he⟩ := (linked_links hm).mp h
    exact hm.target_lt _ he

theorem linked_silent (hm : m.Sound) {p q : Nat} :
    Linked m.source.silent p q ↔ ⟨p, .silent, q⟩ ∈ m.edges := by
  simp [source, linked_links hm]

theorem sound_anchor (hm : m.Sound) (label : Label) :
    Subset.Anchor.Sound (m.anchor label) m.source m.size where
  edge_lt p q h := hm.target_lt _ (mem_edgesWith.mp h)
  linked p q := by
    rw [linked_silent hm]
    simp only [anchor, linked_links hm, mem_edgesWith, Bool.or_eq_true, beq_iff_eq]
    constructor
    · rintro ⟨l, rfl | rfl, he⟩
      · exact .inl he
      · exact .inr he
    · rintro (he | he)
      · exact ⟨_, .inl rfl, he⟩
      · exact ⟨_, .inr rfl, he⟩

/-- The states of the determinized machine describe numbered sets, the first of which holds what the
start leads to. -/
theorem determinize_describes (hm : m.Sound) :
    ∃ final, Subset.Explored m.source m.size (m.anchor .startOfInput) (m.anchor .endOfInput)
      #[.closure m.source.silent [m.start]] m.determinize.states final := by
  have settled : Subset.Settled m.source m.size (.closure m.source.silent [m.start]) := by
    have hs := sound_source hm
    constructor
    · intro q hq
      obtain ⟨p, hp, hpq⟩ := StateSet.contains_closure.mp hq
      rw [List.mem_singleton] at hp
      exact Subset.lt_of_reflTransGen hs.silent_lt hpq (hp ▸ hm.start_lt)
    · intro p q hp hpq
      obtain ⟨p', hp', h⟩ := StateSet.contains_closure.mp hp
      exact StateSet.contains_closure.mpr ⟨p', hp', h.tail hpq⟩
  exact Subset.explore_describes (sound_source hm) (sound_anchor hm _) (sound_anchor hm _)
    ⟨by simp, by simpa using settled⟩ (by simp [twoTo]) (by simp) (by simp [Subset.DescribesAll])

section

variable {final : Array StateSet}
  (hx : Subset.Explored m.source m.size (m.anchor .startOfInput) (m.anchor .endOfInput)
    #[.closure m.source.silent [m.start]] m.determinize.states final)
include hx

/-- The opening state stands for what passing `^` makes of the first set. -/
theorem get_opening : final[m.determinize.opening]? =
    some (Subset.passed (m.anchor .startOfInput) (.closure m.source.silent [m.start])) := by
  have first : final[Automaton.start]? = some (.closure m.source.silent [m.start]) :=
    hx.keeps.get rfl
  obtain ⟨st, hst, hd⟩ := hx.describes _ _ first
  have onStart := hd.onStart
  simp only [Automaton.opening, Automaton.onStart?, hst, Option.bind_eq_bind, Option.bind_some]
  cases ho : st.onStart with
  | none =>
    rw [ho] at onStart
    rw [show Subset.passed _ _ = _ from onStart]
    exact first
  | some i =>
    rw [ho] at onStart
    exact onStart

theorem isAccepting_eq {st : Nat} {s : StateSet} (hs : final[st]? = some s) :
    m.determinize.isAccepting st = s.contains m.accept := by
  obtain ⟨state, hstate, hd⟩ := hx.describes st s hs
  simp [Automaton.isAccepting, hstate, hd.accepting, source]

/-- At the end of an input a state accepts if passing `$` leads to the accepting state. -/
theorem accepts_atEnd (hm : m.Sound) {st : Nat} {s : StateSet} (hs : final[st]? = some s) :
    m.determinize.accepts st true ↔
      (Subset.passed (m.anchor .endOfInput) s).contains m.accept := by
  have settled := hx.numbering.all _ (Array.mem_of_getElem? hs)
  have grows : s.contains m.accept →
      (Subset.passed (m.anchor .endOfInput) s).contains m.accept := fun h =>
    (Subset.contains_passed (sound_anchor hm .endOfInput) settled).mpr ⟨_, h, .refl⟩
  obtain ⟨state, hstate, hd⟩ := hx.describes st s hs
  have onEnd := hd.onEnd
  simp only [Automaton.accepts, Bool.true_and, Bool.or_eq_true, isAccepting_eq hx hs,
    Automaton.onEnd?, hstate, Option.bind_eq_bind, Option.bind_some]
  cases ho : state.onEnd with
  | none =>
    rw [ho] at onEnd
    have same : Subset.passed (m.anchor .endOfInput) s = s := onEnd
    simp [same]
  | some i =>
    rw [ho] at onEnd
    dsimp only
    rw [isAccepting_eq hx onEnd]
    exact or_iff_right_of_imp grows

end

/-- What the start leads to without reading, `^` being passed. -/
theorem contains_passed_first (hm : m.Sound) {q : Nat} :
    (Subset.passed (m.anchor .startOfInput) (.closure m.source.silent [m.start])).contains q ↔
      ReflTransGen (Linked (m.anchor .startOfInput).links) m.start q := by
  obtain ⟨final, hx⟩ := determinize_describes hm
  have anchor := sound_anchor hm .startOfInput
  have first : final[Automaton.start]? = some (.closure m.source.silent [m.start]) :=
    hx.keeps.get rfl
  have settled := hx.numbering.all _ (Array.mem_of_getElem? first)
  rw [Subset.contains_passed anchor settled]
  constructor
  · rintro ⟨p, hp, hpq⟩
    obtain ⟨p', hp', h⟩ := StateSet.contains_closure.mp hp
    rw [List.mem_singleton] at hp'
    subst hp'
    exact (ReflTransGen.mono (fun p q h => (anchor.linked p q).mpr (.inl h)) _ _ h).trans hpq
  · intro h
    exact ⟨_, StateSet.contains_closure.mpr ⟨_, List.mem_cons_self, .refl⟩, h⟩

/-- In an empty input the start anchors are passed first and the end anchors after them. -/
theorem accepts_opening_atEnd (hm : m.Sound) :
    m.determinize.accepts m.determinize.opening true ↔
      ∃ p, ReflTransGen (Linked (m.anchor .startOfInput).links) m.start p ∧
        ReflTransGen (Linked (m.anchor .endOfInput).links) p m.accept := by
  obtain ⟨final, hx⟩ := determinize_describes hm
  have opening := get_opening hx
  have settled := hx.numbering.all _ (Array.mem_of_getElem? opening)
  rw [accepts_atEnd hx hm opening, Subset.contains_passed (sound_anchor hm _) settled]
  simp only [contains_passed_first hm]

end Machine

namespace Expr

/-- The symbols that are read on an edge of the fragment are valid. -/
def ReadsValid (f : Fragment) : Prop := ∀ x ∈ f.edges, ∀ r, x.label = .symbol r → r.Valid

theorem readsValid_inSeries {es : List Expr} (h : ∀ e ∈ es, ∀ n, ReadsValid (e.fragment n)) (n : Nat) :
    ReadsValid (inSeries es n) := by
  induction es generalizing n with
  | nil => exact List.forall_mem_nil _
  | cons e es ih =>
    obtain ⟨first, rest⟩ := List.forall_mem_cons.mp h
    cases es with
    | nil => exact first n
    | cons e' es =>
      simp only [ReadsValid, inSeries, Fragment.append, List.forall_mem_cons, List.forall_mem_append]
      exact ⟨by simp, first n, ih rest _⟩

theorem readsValid_inParallel {es : List Expr} (h : ∀ e ∈ es, ∀ n, ReadsValid (e.fragment n))
    (s t n : Nat) : ReadsValid (inParallel s t es n) := by
  induction es generalizing n with
  | nil => exact List.forall_mem_nil _
  | cons e es ih =>
    obtain ⟨first, rest⟩ := List.forall_mem_cons.mp h
    simp only [ReadsValid, inParallel, List.forall_mem_cons, List.forall_mem_append]
    exact ⟨by simp, by simp, first n, ih rest _⟩

theorem fragment_valid {e : Expr} (h : e.Valid) (n : Nat) : ReadsValid (e.fragment n) := by
  induction e generalizing n with
  | empty | startAnchor | endAnchor => simp [ReadsValid, fragment]
  | symbols rs =>
    intro x hx r hr
    obtain ⟨r', hr', rfl⟩ := List.mem_map.mp hx
    simp only [Label.symbol.injEq] at hr
    exact hr ▸ h r' hr'
  | seq es ih => exact readsValid_inSeries (fun e he => ih e he (allOf_iff.mp h e he)) n
  | alt es ih => exact readsValid_inParallel (fun e he => ih e he (allOf_iff.mp h e he)) _ _ _
  | star a ih | plus a ih | opt a ih =>
    simp only [ReadsValid, fragment, List.forall_mem_append]
    exact ⟨by simp, ih h _⟩

end Expr

theorem Expr.sound_machine {e : Expr} (h : e.Valid) : e.machine.Sound where
  start_lt := (e.fragment_bounds 0).start_lt
  source_lt x hx := ((e.fragment_bounds 0).edges x hx).2.1
  target_lt x hx := ((e.fragment_bounds 0).edges x hx).2.2.2
  valid := fragment_valid h 0

/-! ## Reaching states -/

variable {fresh : Bool} {w : List Char}

namespace Edge

variable {edges : List Edge}

/-- An edge leads from `p` to `q` that can be taken at position `k` without reading. -/
def Free (fresh : Bool) (w : List Char) (edges : List Edge) (k p q : Nat) : Prop :=
  ∃ l, ⟨p, l, q⟩ ∈ edges ∧ l.Takes fresh w k k

/-- An edge leads from `p` to `q` that reads the code point behind position `k`. -/
def Reading (w : List Char) (edges : List Edge) (k p q : Nat) : Prop :=
  ∃ c r, w[k]? = some c ∧ ⟨p, .symbol r, q⟩ ∈ edges ∧ r.contains c.toNat

theorem step_iff {p q i j : Nat} :
    Step fresh w edges (p, i) (q, j) ↔
      (i = j ∧ Free fresh w edges i p q) ∨ (j = i + 1 ∧ Reading w edges i p q) := by
  constructor
  · rintro ⟨l, hl, ht⟩
    cases l with
    | silent =>
      obtain rfl : i = j := ht
      exact .inl ⟨rfl, .silent, hl, rfl⟩
    | symbol r =>
      obtain ⟨c, hc, hr, hj⟩ := ht
      exact .inr ⟨hj, c, r, hc, hl, hr⟩
    | startOfInput =>
      obtain ⟨hf, hi, hj⟩ := ht
      exact .inl ⟨hi.trans hj.symm, .startOfInput, hl, hf, hi, hi⟩
    | endOfInput =>
      obtain ⟨hi, hj⟩ := ht
      exact .inl ⟨hj.symm, .endOfInput, hl, hi, rfl⟩
  · rintro (⟨rfl, l, hl, ht⟩ | ⟨rfl, c, r, hc, hl, hr⟩)
    · exact ⟨l, hl, ht⟩
    · exact ⟨.symbol r, hl, c, hc, hr, rfl⟩

theorem free_iff {k p q : Nat} :
    Free fresh w edges k p q ↔ ⟨p, .silent, q⟩ ∈ edges ∨
      ((fresh ∧ k = 0) ∧ ⟨p, .startOfInput, q⟩ ∈ edges) ∨
      (k = w.length ∧ ⟨p, .endOfInput, q⟩ ∈ edges) := by
  constructor
  · rintro ⟨l, hl, ht⟩
    cases l with
    | silent => exact .inl hl
    | symbol r =>
      obtain ⟨_, _, _, h⟩ := ht
      omega
    | startOfInput => exact .inr (.inl ⟨⟨ht.1, ht.2.1⟩, hl⟩)
    | endOfInput => exact .inr (.inr ⟨ht.1, hl⟩)
  · rintro (hl | ⟨⟨hf, hk⟩, hl⟩ | ⟨hk, hl⟩)
    · exact ⟨.silent, hl, rfl⟩
    · exact ⟨.startOfInput, hl, hf, hk, hk⟩
    · exact ⟨.endOfInput, hl, hk, rfl⟩

theorem path_of_free {k p q : Nat} (h : ReflTransGen (Free fresh w edges k) p q) :
    Path fresh w edges (p, k) (q, k) := by
  induction h with
  | refl => exact .refl
  | tail _ h ih => exact ih.tail (step_iff.mpr (.inl ⟨rfl, h⟩))

/-- A path ends either where it began or behind a last symbol, and takes free edges from there. -/
theorem path_cases {s t : Nat × Nat} (h : Path fresh w edges s t) :
    (t.2 = s.2 ∧ ReflTransGen (Free fresh w edges s.2) s.1 t.1) ∨
      ∃ k p p', t.2 = k + 1 ∧ Path fresh w edges s (p, k) ∧ Reading w edges k p p' ∧
        ReflTransGen (Free fresh w edges (k + 1)) p' t.1 := by
  induction h with
  | refl => exact .inl ⟨rfl, .refl⟩
  | @tail x y hx hxy ih =>
    obtain ⟨p, i⟩ := x
    obtain ⟨q, j⟩ := y
    rcases step_iff.mp hxy with ⟨rfl, hfree⟩ | ⟨rfl, hread⟩
    · rcases ih with ⟨heq, hpath⟩ | ⟨k, p₁, p₂, heq, hpath, hread, htail⟩
      · dsimp only at heq hpath ⊢
        subst heq
        exact .inl ⟨rfl, hpath.tail hfree⟩
      · dsimp only at heq htail ⊢
        subst heq
        exact .inr ⟨k, p₁, p₂, rfl, hpath, hread, htail.tail hfree⟩
    · exact .inr ⟨i, p, q, rfl, hx, hread, .refl⟩

end Edge

namespace Expr

/-- The machine of `e` can be in state `q` at position `k`. -/
def Reaches (fresh : Bool) (w : List Char) (e : Expr) (k q : Nat) : Prop :=
  Edge.Path fresh w e.machine.edges (e.machine.start, 0) (q, k)

/-- The machine of `e` can be in state `q` at position `k` without having passed an anchor behind
the last symbol read. -/
def Arrives (fresh : Bool) (w : List Char) (e : Expr) : (k q : Nat) → Prop
  | 0, q => e.Reaches fresh w 0 q
  | k + 1, q => ∃ p p', e.Reaches fresh w k p ∧ Edge.Reading w e.machine.edges k p p' ∧
      ReflTransGen (Linked e.machine.source.silent) p' q

variable {e : Expr}

theorem reaches_zero {q : Nat} :
    e.Reaches fresh w 0 q ↔
      ReflTransGen (Edge.Free fresh w e.machine.edges 0) e.machine.start q := by
  constructor
  · intro h
    rcases Edge.path_cases h with ⟨_, h⟩ | ⟨k, _, _, h, _⟩
    · exact h
    · simp at h
  · exact Edge.path_of_free

theorem reaches_succ {k q : Nat} :
    e.Reaches fresh w (k + 1) q ↔ ∃ p p', e.Reaches fresh w k p ∧
      Edge.Reading w e.machine.edges k p p' ∧
      ReflTransGen (Edge.Free fresh w e.machine.edges (k + 1)) p' q := by
  constructor
  · intro h
    rcases Edge.path_cases h with ⟨h, _⟩ | ⟨k', p, p', heq, hp, hr, ht⟩
    · simp at h
    · obtain rfl : k = k' := by simpa using heq
      exact ⟨p, p', hp, hr, ht⟩
  · rintro ⟨p, p', hp, hr, ht⟩
    exact (hp.tail (Edge.step_iff.mpr (.inr ⟨rfl, hr⟩))).trans (Edge.path_of_free ht)

/-- Before the end the machine passes no anchor behind a symbol. -/
theorem arrives_iff_reaches (he : e.Valid) {k q : Nat} (hk : k < w.length) :
    e.Arrives fresh w k q ↔ e.Reaches fresh w k q := by
  cases k with
  | zero => exact Iff.rfl
  | succ k =>
    have free : Edge.Free fresh w e.machine.edges (k + 1) = Linked e.machine.source.silent := by
      funext p q
      rw [Edge.free_iff, Machine.linked_silent (sound_machine he)]
      simp only [Nat.succ_ne_zero, and_false, false_and, false_or, eq_iff_iff, or_iff_left_iff_imp,
        and_imp]
      omega
    rw [reaches_succ, free]
    exact Iff.rfl

/-- At the end the machine passes as many anchors as it can. -/
theorem reaches_length (he : e.Valid) {k q : Nat} (hk : k = w.length) (hk0 : k ≠ 0) :
    e.Reaches fresh w k q ↔ ∃ p, e.Arrives fresh w k p ∧
      ReflTransGen (Linked (e.machine.anchor .endOfInput).links) p q := by
  have linked := (Machine.sound_anchor (sound_machine he) .endOfInput).linked
  have free : Edge.Free fresh w e.machine.edges k =
      Linked (e.machine.anchor .endOfInput).links := by
    funext p q
    rw [Edge.free_iff, eq_iff_iff, linked, Machine.linked_silent (sound_machine he)]
    simp only [Machine.anchor, Machine.mem_edgesWith, hk0, and_false, false_and, false_or]
    simp only [hk, true_and]
  have silent : ∀ p q, Linked e.machine.source.silent p q →
      Linked (e.machine.anchor .endOfInput).links p q := fun p q h => (linked p q).mpr (.inl h)
  obtain ⟨k, rfl⟩ := Nat.exists_eq_succ_of_ne_zero hk0
  rw [reaches_succ, free]
  constructor
  · rintro ⟨p, p', hp, hr, ht⟩
    exact ⟨p', ⟨p, p', hp, hr, .refl⟩, ht⟩
  · rintro ⟨p, ⟨p₁, p₂, hp, hr, hs⟩, ht⟩
    exact ⟨p₁, p₂, hp, hr, (ReflTransGen.mono silent _ _ hs).trans ht⟩

theorem matches_iff_reaches {k : Nat} :
    e.Matches fresh w 0 k ↔ e.Reaches fresh w k e.machine.accept :=
  path_machine e |>.symm

/-- Where nothing arrives, nothing further on is reached. -/
theorem not_reaches_of_not_arrives {k m q : Nat} (hkm : k ≤ m)
    (h : ∀ q, ¬ e.Arrives fresh w k q) : ¬ e.Reaches fresh w m q := by
  induction m, hkm using Nat.le_induction generalizing q with
  | base =>
    intro hq
    cases k with
    | zero => exact h q hq
    | succ k =>
      obtain ⟨p, p', hp, hr, _⟩ := reaches_succ.mp hq
      exact h p' ⟨p, p', hp, hr, .refl⟩
  | succ m _ ih =>
    intro hq
    obtain ⟨p, _, hp, _⟩ := reaches_succ.mp hq
    exact ih hp

/-! ## Tracking -/

/-- The lane `lane` of the automaton of `e` stands for what arrives at position `k`: its state for a
set of machine states, no state for none. -/
def Tracks (fresh : Bool) (w : List Char) (e : Expr) (k : Nat) (lane : Option Nat) : Prop :=
  ∃ final, Subset.Explored e.machine.source e.machine.size (e.machine.anchor .startOfInput)
      (e.machine.anchor .endOfInput) #[.closure e.machine.source.silent [e.machine.start]]
      e.machine.determinize.states final ∧
    match lane with
    | some st => ∃ s, final[st]? = some s ∧ ∀ q, s.contains q ↔ e.Arrives fresh w k q
    | none => ∀ q, ¬ e.Arrives fresh w k q

/-- The set of machine states in which tracking begins. -/
def opened (e : Expr) : StateSet := .closure e.machine.source.silent [e.machine.start]

/-- If something stands before the input, no anchor is passed in front of it. -/
theorem contains_opened (he : e.Valid) (hw : w ≠ []) {q : Nat} :
    e.opened.contains q ↔ e.Arrives false w 0 q := by
  have hlen : 0 ≠ w.length := by simpa [eq_comm] using hw
  have free : Edge.Free false w e.machine.edges 0 = Linked e.machine.source.silent := by
    funext p q
    rw [Edge.free_iff, Machine.linked_silent (sound_machine he)]
    simp [hlen]
  rw [Arrives, reaches_zero, free, opened, StateSet.contains_closure]
  simp

/-- If nothing stands before the input, `^` is passed in front of it. -/
theorem contains_passed_opened (he : e.Valid) (hw : w ≠ []) {q : Nat} :
    (Subset.passed (e.machine.anchor .startOfInput) e.opened).contains q ↔
      e.Arrives true w 0 q := by
  have hm := sound_machine he
  have hlen : 0 ≠ w.length := by simpa [eq_comm] using hw
  have linked := (Machine.sound_anchor hm .startOfInput).linked
  have free : Edge.Free true w e.machine.edges 0 =
      Linked (e.machine.anchor .startOfInput).links := by
    funext p q
    rw [Edge.free_iff, eq_iff_iff, linked, Machine.linked_silent hm]
    simp [hlen, Machine.anchor, Machine.mem_edgesWith]
  rw [Arrives, reaches_zero, free]
  exact Machine.contains_passed_first hm

/-- Tracking begins at the start of an input that is not empty. -/
theorem tracks_opening (he : e.Valid) (hw : w ≠ []) :
    e.Tracks fresh w 0
      (some (if fresh then e.machine.determinize.opening else Automaton.start)) := by
  obtain ⟨final, hx⟩ := Machine.determinize_describes (sound_machine he)
  refine ⟨final, hx, ?_⟩
  cases fresh with
  | false => exact ⟨_, hx.keeps.get rfl, fun q => contains_opened he hw⟩
  | true => exact ⟨_, Machine.get_opening hx, fun q => contains_passed_opened he hw⟩

/-- What a set of machine states reads is what arrives behind the symbol. -/
theorem reads_iff_arrives (he : e.Valid) {k : Nat} {c : Char} (hc : w[k]? = some c) {s : StateSet}
    (hs : ∀ q, s.contains q ↔ e.Arrives fresh w k q) {q : Nat} :
    (∃ p, Subset.Reads e.machine.source s c.toNat p ∧
      ReflTransGen (Linked e.machine.source.silent) p q) ↔ e.Arrives fresh w (k + 1) q := by
  have hm := sound_machine he
  have hk : k < w.length := (List.getElem?_eq_some_iff.mp hc).1
  constructor
  · rintro ⟨p', ⟨p, hp, r, hr, hrc⟩, ht⟩
    have reached := (arrives_iff_reaches he hk).mp ((hs p).mp hp)
    exact ⟨p, p', reached, ⟨c, r, hc, (Machine.mem_symbols hm).mp hr, hrc⟩, ht⟩
  · rintro ⟨p, p', hp, ⟨c', r, hc', hr, hrc⟩, ht⟩
    obtain rfl : c = c' := Option.some.inj (hc.symm.trans hc')
    have contained := (hs p).mpr ((arrives_iff_reaches he hk).mpr hp)
    exact ⟨p', ⟨p, contained, r, (Machine.mem_symbols hm).mpr hr, hrc⟩, ht⟩

theorem Tracks.next {k : Nat} {lane : Option Nat} (h : e.Tracks fresh w k lane) (he : e.Valid)
    {c : Char} (hc : w[k]? = some c) :
    e.Tracks fresh w (k + 1) (lane.bind fun st => e.machine.determinize.next? st c) := by
  have hk : k < w.length := (List.getElem?_eq_some_iff.mp hc).1
  obtain ⟨final, hx, h⟩ := h
  refine ⟨final, hx, ?_⟩
  cases lane with
  | none =>
    rintro q ⟨p, _, hp, _⟩
    exact h p ((arrives_iff_reaches he hk).mpr hp)
  | some st =>
    obtain ⟨s, hs, hall⟩ := h
    obtain ⟨state, hstate, hd⟩ := hx.describes st s hs
    simp only [Option.bind_some, Automaton.next?, hstate, Option.bind_eq_bind]
    cases hf : Transition.find? state.transitions c.toNat with
    | none =>
      -- If something arrived, some transition would read the symbol.
      intro q hq
      obtain ⟨p', hr, _⟩ := (reads_iff_arrives he hc hall).mpr hq
      obtain ⟨t, ht, htc⟩ := hd.complete c.toNat p' hr
      have := Transition.find?_of_mem hd.ordered ht htc
      simp [hf] at this
    | some t =>
      obtain ⟨ht, htc⟩ := Transition.mem_of_find? hf
      obtain ⟨u, hu, hl⟩ := hd.leads t ht c.toNat htc
      exact ⟨u, hu, fun q => (hl.contains q).trans (reads_iff_arrives he hc hall)⟩

theorem Tracks.not_matches {k m : Nat} (h : e.Tracks fresh w k none) (hkm : k ≤ m) :
    ¬ e.Matches fresh w 0 m := by
  obtain ⟨_, _, h⟩ := h
  exact fun hm => not_reaches_of_not_arrives hkm h (matches_iff_reaches.mp hm)

/-- At the end of the input, `$` is passed too. -/
theorem contains_passed_end (he : e.Valid) (hw : w ≠ []) {k : Nat} (hk : k = w.length)
    {s : StateSet} (settled : Subset.Settled e.machine.source e.machine.size s)
    (hs : ∀ q, s.contains q ↔ e.Arrives fresh w k q) {q : Nat} :
    (Subset.passed (e.machine.anchor .endOfInput) s).contains q ↔ e.Reaches fresh w k q := by
  have hk0 : k ≠ 0 := by
    rw [hk]
    simpa using hw
  have anchor := Machine.sound_anchor (sound_machine he) .endOfInput
  rw [Subset.contains_passed anchor settled, reaches_length he hk hk0]
  simp only [hs]

/-- A state accepts, with `$` holding just at the end, if and only if what was read is a match. -/
theorem Tracks.accepts_iff {k st : Nat} (h : e.Tracks fresh w k (some st)) (he : e.Valid)
    (hw : w ≠ []) (hk : k ≤ w.length) :
    e.machine.determinize.accepts st (k = w.length) ↔ e.Matches fresh w 0 k := by
  obtain ⟨final, hx, s, hs, hall⟩ := h
  rw [matches_iff_reaches]
  rcases Nat.lt_or_eq_of_le hk with hlt | heq
  · have : ¬ k = w.length := Nat.ne_of_lt hlt
    simp only [Automaton.accepts, this, decide_false, Bool.false_and, Bool.or_false,
      Machine.isAccepting_eq hx hs]
    rw [hall, arrives_iff_reaches he hlt]
  · have settled := hx.numbering.all _ (Array.mem_of_getElem? hs)
    rw [decide_eq_true heq, Machine.accepts_atEnd hx (sound_machine he) hs]
    exact contains_passed_end he hw heq settled hall

end Expr

end ScrapeConfig
