import Mathlib.Algebra.BigOperators.Intervals
import Mathlib.Algebra.Order.BigOperators.Group.Finset
import Mathlib.Logic.Relation
import ScrapeConfig.Pattern.Machine

/-!
# Closing sets of states under links

`StateSet.reach` is a depth-first search with a list of states still to be visited and a bound on
the number of its steps. The bound given by `StateSet.extend` is never reached: what is left of it
always exceeds the states to visit and the links of the states not yet visited
(`StateSet.reach_closes`), so the search ends with everything that can be reached
(`StateSet.contains_extend`, `StateSet.contains_closure`).
-/

namespace ScrapeConfig.StateSet

open Relation (ReflTransGen)

/-- A link leads from `p` to `q`. -/
def Linked (links : Array (List Nat)) (p q : Nat) : Prop := q ∈ links[p]?.getD []

/-- Number of links of the states that are not in `s`. -/
def openLinks (links : Array (List Nat)) (s : StateSet) : Nat :=
  ∑ i ∈ (Finset.range links.size).filter fun i => s.contains i = false, (links[i]?.getD []).length

theorem openLinks_insert (links : Array (List Nat)) {s : StateSet} {i : Nat}
    (h : s.contains i = false) :
    openLinks links (s.insert i) + (links[i]?.getD []).length = openLinks links s := by
  unfold openLinks
  by_cases hi : i < links.size
  · have split : (Finset.range links.size).filter (fun j => (s.insert i).contains j = false) =
        ((Finset.range links.size).filter fun j => s.contains j = false).erase i := by
      ext j
      simp only [contains_insert, Bool.or_eq_false_iff, decide_eq_false_iff_not, Finset.mem_filter,
        Finset.mem_erase, ne_eq]
      constructor
      · rintro ⟨hj, hs, hne⟩
        exact ⟨Ne.symm hne, hj, hs⟩
      · rintro ⟨hne, hj, hs⟩
        exact ⟨hj, hs, Ne.symm hne⟩
    rw [split]
    exact Finset.sum_erase_add _ _ (by simp [hi, h])
  · have same : (Finset.range links.size).filter (fun j => (s.insert i).contains j = false) =
        (Finset.range links.size).filter fun j => s.contains j = false := by
      refine Finset.filter_congr fun j hj => ?_
      have : i ≠ j := by
        rintro rfl
        exact hi (Finset.mem_range.mp hj)
      simp [this]
    rw [same, Array.getElem?_eq_none (by omega)]
    simp

theorem openLinks_le (links : Array (List Nat)) (s : StateSet) :
    openLinks links s ≤ links.foldl (fun n targets => n + targets.length) 0 := by
  have total : ∀ (l : List (List Nat)) (n : Nat), l.foldl (fun n targets => n + targets.length) n =
      n + ∑ i ∈ Finset.range l.length, (l[i]?.getD []).length := by
    intro l
    induction l with
    | nil => simp
    | cons x xs ih =>
      intro n
      rw [List.foldl_cons, ih, List.length_cons, Finset.sum_range_succ']
      simp only [List.getElem?_cons_succ, List.getElem?_cons_zero, Option.getD_some]
      omega
  rw [← Array.foldl_toList, total, Nat.zero_add]
  simp only [Array.length_toList, Array.getElem?_toList]
  exact Finset.sum_le_sum_of_subset (Finset.filter_subset _ _)

/-- What the search keeps: nothing is lost, and the links of every state that it adds are followed;
nothing is added that the states to visit do not lead to. -/
structure Closes (links : Array (List Nat)) (todo : List Nat) (s t : StateSet) : Prop where
  keeps : ∀ q, s.contains q → t.contains q
  visits : ∀ q ∈ todo, t.contains q
  follows : ∀ p q, t.contains p → Linked links p q → s.contains p ∨ t.contains q
  justified : ∀ q, t.contains q → s.contains q ∨ ∃ p ∈ todo, ReflTransGen (Linked links) p q

theorem reach_closes (links : Array (List Nat)) {fuel : Nat} {todo : List Nat} {s : StateSet}
    (h : todo.length + openLinks links s < fuel) : Closes links todo s (reach links fuel todo s) := by
  induction fuel generalizing todo s with
  | zero => omega
  | succ fuel ih =>
    cases todo with
    | nil =>
      simp only [reach]
      exact ⟨fun _ => id, by simp, fun _ _ hp _ => .inl hp, fun _ => .inl⟩
    | cons i todo =>
      simp only [List.length_cons] at h
      simp only [reach]
      by_cases hi : s.contains i
      · rw [if_pos hi]
        have ⟨keeps, visits, follows, justified⟩ := @ih todo s (by omega)
        refine ⟨keeps, ?_, follows, fun q hq => ?_⟩
        · rintro q (_ | ⟨_, hq⟩)
          · exact keeps i hi
          · exact visits q hq
        · rcases justified q hq with hs | ⟨p, hp, hpq⟩
          · exact .inl hs
          · exact .inr ⟨p, List.mem_cons_of_mem _ hp, hpq⟩
      · -- The links of a new state are closed for good, which pays for the states they add.
        have hi' : s.contains i = false := by simpa using hi
        rw [if_neg hi]
        have count := openLinks_insert links hi'
        have ⟨keeps, visits, follows, justified⟩ :=
          @ih (links[i]?.getD [] ++ todo) (s.insert i) (by
            rw [List.length_append]
            omega)
        refine ⟨fun q hq => keeps q (by simp [hq]), ?_, fun p q hp hpq => ?_, fun q hq => ?_⟩
        · rintro q (_ | ⟨_, hq⟩)
          · exact keeps i (by simp)
          · exact visits q (List.mem_append_right _ hq)
        · rcases follows p q hp hpq with hs | ht
          · simp only [contains_insert, Bool.or_eq_true, decide_eq_true_eq] at hs
            rcases hs with hs | rfl
            · exact .inl hs
            · exact .inr (visits q (List.mem_append_left _ hpq))
          · exact .inr ht
        · rcases justified q hq with hs | ⟨p, hp, hpq⟩
          · simp only [contains_insert, Bool.or_eq_true, decide_eq_true_eq] at hs
            rcases hs with hs | rfl
            · exact .inl hs
            · exact .inr ⟨i, List.mem_cons_self, .refl⟩
          · rcases List.mem_append.mp hp with hp | hp
            · exact .inr ⟨i, List.mem_cons_self, .head hp hpq⟩
            · exact .inr ⟨p, List.mem_cons_of_mem _ hp, hpq⟩

theorem extend_closes (links : Array (List Nat)) (states : List Nat) (s : StateSet) :
    Closes links states s (extend links states s) := by
  have := openLinks_le links s
  exact reach_closes links (by omega)

/-- Extending a set adds what can be reached from it and from the states given, provided that the
links that leave the set lead to those states. -/
theorem contains_extend {links : Array (List Nat)} {states : List Nat} {s : StateSet}
    (hs : ∀ p q, s.contains p → Linked links p q → s.contains q ∨ q ∈ states) {q : Nat} :
    (extend links states s).contains q ↔
      ∃ p, (s.contains p ∨ p ∈ states) ∧ ReflTransGen (Linked links) p q := by
  have ⟨keeps, visits, follows, justified⟩ := extend_closes links states s
  have closed : ∀ p q, (extend links states s).contains p → Linked links p q →
      (extend links states s).contains q := by
    intro p q hp hpq
    rcases follows p q hp hpq with h | h
    · exact (hs p q h hpq).elim (keeps q) (visits q)
    · exact h
  constructor
  · intro hq
    rcases justified q hq with h | ⟨p, hp, hpq⟩
    · exact ⟨q, .inl h, .refl⟩
    · exact ⟨p, .inr hp, hpq⟩
  · rintro ⟨p, hp, hpq⟩
    induction hpq with
    | refl => exact hp.elim (keeps p) (visits p)
    | tail _ h ih => exact closed _ _ ih h

theorem contains_closure {links : Array (List Nat)} {states : List Nat} {q : Nat} :
    (closure links states).contains q ↔ ∃ p ∈ states, ReflTransGen (Linked links) p q := by
  rw [closure, contains_extend (by simp)]
  simp

end ScrapeConfig.StateSet
