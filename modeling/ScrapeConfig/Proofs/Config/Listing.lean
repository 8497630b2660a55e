import Mathlib.Data.List.Basic
import Mathlib.Data.List.Lex

/-!
# Listings of a tree

A place in a tree is a path of numbers, each of which tells a child among its siblings. Places are in
tree order if their paths are in lexicographic order. A list of findings is the listing of a property of
places if it has exactly one entry for each place where something is found, in tree order.

Results:
1. `Lists`: listings. `Lists.append`, `Lists.under`, `Lists.map` build larger ones from smaller ones.
2. `sweep`: going over siblings with those in front of them at hand. `Lists.sweep` is the listing that
   results, and `Lists.flatMap` the case in which the siblings in front do not matter.
-/

namespace ScrapeConfig

variable {α β : Type}

/-- The elements of `xs` are what `P` finds at places, one for each place and in tree order. -/
def Lists (xs : List α) (P : List Nat → α → Prop) : Prop :=
  ∃ found : List (List Nat × α), found.map (·.2) = xs ∧ found.Pairwise (·.1 < ·.1) ∧
    ∀ p a, (p, a) ∈ found ↔ P p a

/-- A part of a tree, with its listing. -/
structure Part (α : Type) where
  entries : List α
  finds : List Nat → α → Prop
  lists : Lists entries finds

/-- Goes over `bs`. What is found at one of them may depend on those before it. -/
def sweep (f : (before : List β) → β → List α) (before : List β) : List β → List α
  | [] => []
  | b :: bs => f before b ++ sweep f (before ++ [b]) bs

namespace Lists

variable {xs ys : List α} {P Q : List Nat → α → Prop}

theorem congr (h : Lists xs P) (same : ∀ p a, P p a ↔ Q p a) : Lists xs Q := by
  obtain ⟨found, heq, order, mem⟩ := h
  exact ⟨found, heq, order, fun p a => (mem p a).trans (same p a)⟩

theorem nil (h : ∀ p a, ¬ P p a) : Lists [] P :=
  ⟨[], rfl, .nil, fun p a => iff_of_false List.not_mem_nil (h p a)⟩

/-- A single finding, at the root. -/
theorem singleton {a : α} (h : ∀ p b, P p b ↔ p = [] ∧ b = a) : Lists [a] P :=
  ⟨[([], a)], rfl, List.pairwise_singleton .., fun p b => by rw [h, List.mem_singleton, Prod.mk.injEq]⟩

theorem ite {c : Prop} [Decidable c] {a : α} (h : ∀ p b, P p b ↔ c ∧ p = [] ∧ b = a) :
    Lists (if c then [a] else []) P := by
  split
  · next hc => exact singleton fun p b => (h p b).trans (and_iff_right hc)
  · next hc => exact nil fun p b hb => hc ((h p b).mp hb).1

theorem ite_else {c : Prop} [Decidable c] {a : α} (h : ∀ p b, P p b ↔ ¬ c ∧ p = [] ∧ b = a) :
    Lists (if c then [] else [a]) P := by
  rw [← ite_not]
  exact ite h

theorem append (hx : Lists xs P) (hy : Lists ys Q) (order : ∀ p a q b, P p a → Q q b → p < q) :
    Lists (xs ++ ys) fun p a => P p a ∨ Q p a := by
  obtain ⟨found, rfl, orderx, memx⟩ := hx
  obtain ⟨found', rfl, ordery, memy⟩ := hy
  refine ⟨found ++ found', List.map_append, List.pairwise_append.mpr ⟨orderx, ordery, ?_⟩, ?_⟩
  · exact fun x hx y hy => order x.1 x.2 y.1 y.2 ((memx _ _).mp hx) ((memy _ _).mp hy)
  · exact fun p a => List.mem_append.trans (or_congr (memx p a) (memy p a))

/-- The tree becomes the child `i` of a larger one. -/
theorem under (h : Lists xs P) (i : Nat) : Lists xs fun p a => ∃ q, p = i :: q ∧ P q a := by
  obtain ⟨found, rfl, order, mem⟩ := h
  refine ⟨found.map (Prod.map (i :: ·) id), by rw [List.map_map]; rfl, List.pairwise_map.mpr ?_, ?_⟩
  · exact order.imp fun lt => List.cons_lt_cons_iff.mpr (.inr ⟨rfl, lt⟩)
  · intro p a
    constructor
    · rintro ha
      obtain ⟨⟨q, b⟩, hb, heq⟩ := List.mem_map.mp ha
      obtain ⟨rfl, rfl⟩ := Prod.mk.inj heq
      exact ⟨q, rfl, (mem q b).mp hb⟩
    · rintro ⟨q, rfl, ha⟩
      exact List.mem_map.mpr ⟨(q, a), (mem q a).mpr ha, rfl⟩

theorem map (h : Lists xs P) (f : α → β) : Lists (xs.map f) fun p b => ∃ a, P p a ∧ f a = b := by
  obtain ⟨found, rfl, order, mem⟩ := h
  refine ⟨found.map (Prod.map id f), by simp, List.pairwise_map.mpr order, fun p b => ?_⟩
  constructor
  · intro hb
    obtain ⟨⟨q, a⟩, ha, heq⟩ := List.mem_map.mp hb
    obtain ⟨rfl, rfl⟩ := Prod.mk.inj heq
    exact ⟨a, (mem q a).mp ha, rfl⟩
  · rintro ⟨a, ha, rfl⟩
    exact List.mem_map.mpr ⟨(p, a), (mem p a).mpr ha, rfl⟩

theorem eq_nil_iff (h : Lists xs P) : xs = [] ↔ ∀ p a, ¬ P p a := by
  obtain ⟨found, rfl, _, mem⟩ := h
  rw [List.map_eq_nil_iff, List.eq_nil_iff_forall_not_mem]
  exact ⟨fun none p a ha => none _ ((mem p a).mpr ha), fun none x hx => none _ _ ((mem x.1 x.2).mp hx)⟩

/-- The siblings that `bs` are among begin with `before`, which are done. -/
theorem sweep {f : List β → β → List α} {R : List β → β → List Nat → α → Prop}
    (h : ∀ before b, Lists (f before b) (R before b)) (before bs : List β) :
    Lists (ScrapeConfig.sweep f before bs) fun p a => ∃ i b q, p = i :: q ∧ before.length ≤ i ∧
      (before ++ bs)[i]? = some b ∧ R ((before ++ bs).take i) b q a := by
  induction bs generalizing before with
  | nil =>
    refine nil ?_
    rintro p a ⟨i, b, q, rfl, le, hb, _⟩
    rw [List.append_nil, List.getElem?_eq_none le] at hb
    cases hb
  | cons b bs ih =>
    have first : (before ++ b :: bs)[before.length]? = some b := by simp
    have front : (before ++ b :: bs).take before.length = before := by simp
    refine ((h before b).under before.length |>.append (ih (before ++ [b])) ?_).congr ?_
    · rintro p a q a' ⟨p', rfl, _⟩ ⟨i, _, q', rfl, le, _⟩
      rw [List.length_append, List.length_singleton] at le
      exact List.cons_lt_cons_iff.mpr (.inl le)
    · intro p a
      rw [List.append_assoc, List.singleton_append, List.length_append, List.length_singleton]
      constructor
      · rintro (⟨q, rfl, ha⟩ | ⟨i, b', q, rfl, le, hb, ha⟩)
        · exact ⟨_, b, q, rfl, Nat.le_refl _, first, front.symm ▸ ha⟩
        · exact ⟨i, b', q, rfl, Nat.le_of_succ_le le, hb, ha⟩
      · rintro ⟨i, b', q, rfl, le, hb, ha⟩
        rcases Nat.eq_or_lt_of_le le with rfl | lt
        · obtain rfl := Option.some.inj (first.symm.trans hb)
          exact .inl ⟨q, rfl, front ▸ ha⟩
        · exact .inr ⟨i, b', q, rfl, lt, hb, ha⟩

theorem sweep_nil {f : List β → β → List α} {R : List β → β → List Nat → α → Prop}
    (h : ∀ before b, Lists (f before b) (R before b)) (bs : List β) :
    Lists (ScrapeConfig.sweep f [] bs) fun p a =>
      ∃ i b q, p = i :: q ∧ bs[i]? = some b ∧ R (bs.take i) b q a := by
  simpa using sweep h [] bs

theorem flatMap {f : β → List α} {R : β → List Nat → α → Prop} (h : ∀ b, Lists (f b) (R b))
    (bs : List β) :
    Lists (bs.flatMap f) fun p a => ∃ i b q, p = i :: q ∧ bs[i]? = some b ∧ R b q a := by
  have unfolded (before : List β) : ScrapeConfig.sweep (fun _ => f) before bs = bs.flatMap f := by
    induction bs generalizing before with
    | nil => rfl
    | cons b bs ih => rw [ScrapeConfig.sweep, ih, List.flatMap_cons]
  exact unfolded [] ▸ sweep_nil (fun _ => h) bs

/-- Parts that are listed one after another are children of a larger tree. -/
theorem parts (ps : List (Part α)) : Lists (ps.flatMap Part.entries) fun p a =>
    ∃ i part q, p = i :: q ∧ ps[i]? = some part ∧ part.finds q a :=
  flatMap Part.lists ps

/-- One finding at each of the siblings that are selected. -/
theorem filter_map (select : β → Bool) (f : β → α) (bs : List β) :
    Lists ((bs.filter select).map f) fun p a =>
      ∃ i b, p = [i] ∧ bs[i]? = some b ∧ select b ∧ f b = a := by
  have unfolded : (bs.filter select).map f = bs.flatMap fun b => if select b then [f b] else [] := by
    induction bs with
    | nil => rfl
    | cons b bs ih =>
      rw [List.flatMap_cons, ← ih, List.filter_cons]
      split <;> rfl
  rw [unfolded]
  refine (flatMap (R := fun b p a => select b ∧ p = [] ∧ a = f b) (fun b => ite fun _ _ => Iff.rfl)
    bs).congr fun p a => ?_
  constructor
  · rintro ⟨i, b, q, rfl, hb, selected, rfl, rfl⟩
    exact ⟨i, b, rfl, hb, selected, rfl⟩
  · rintro ⟨i, b, rfl, hb, selected, rfl⟩
    exact ⟨i, b, [], rfl, hb, selected, rfl, rfl⟩

end Lists

end ScrapeConfig
