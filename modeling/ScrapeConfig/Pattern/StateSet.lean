/-!
# Sets of machine states

A set of natural numbers as the bits of one number, so that two sets are the same exactly when the
numbers are.
-/

namespace ScrapeConfig

structure StateSet where
  bits : Nat
  deriving DecidableEq, Repr, Inhabited

namespace StateSet

def empty : StateSet := ⟨0⟩

def contains (s : StateSet) (i : Nat) : Bool :=
  s.bits.testBit i

def insert (s : StateSet) (i : Nat) : StateSet :=
  ⟨s.bits ||| 1 <<< i⟩

/-- The members among the `2 ^ k` numbers from `first` on, given as the bits of `bits`. -/
def members : (k first bits : Nat) → List Nat
  | 0, first, bits => if bits = 0 then [] else [first]
  | k + 1, first, bits =>
    if bits = 0 then []
    else
      let half := 1 <<< k
      let high := bits >>> half
      members k first (bits ^^^ (high <<< half)) ++ members k (first + half) high

/-- The members in ascending order. -/
def toList (s : StateSet) : List Nat :=
  members (s.bits.log2.log2 + 1) 0 s.bits

@[simp] theorem contains_empty (i : Nat) : empty.contains i = false := by
  simp [empty, contains]

@[simp] theorem contains_insert (s : StateSet) (i j : Nat) :
    (s.insert i).contains j = (s.contains j || decide (i = j)) := by
  simp [contains, insert, Nat.testBit_or, Nat.one_shiftLeft, Nat.testBit_two_pow]

theorem mem_members {k first bits i : Nat} (h : bits < 1 <<< (1 <<< k)) :
    i ∈ members k first bits ↔ first ≤ i ∧ bits.testBit (i - first) := by
  induction k generalizing first bits with
  | zero =>
    have : bits = 0 ∨ bits = 1 := by simp at h; omega
    rcases this with rfl | rfl
    · simp [members]
    · simp [members, Nat.testBit_one_eq_true_iff_self_eq_zero]; omega
  | succ k ih =>
    rw [members]
    split
    · simp [*]
    · have hlow : bits ^^^ bits >>> (1 <<< k) <<< (1 <<< k) < 1 <<< (1 <<< k) := by
        rw [Nat.one_shiftLeft (1 <<< k)]
        refine Nat.lt_pow_two_of_testBit _ fun j hj => ?_
        simp [Nat.testBit_shiftLeft, hj]
      have hhigh : bits >>> (1 <<< k) < 1 <<< (1 <<< k) := by
        simp only [Nat.one_shiftLeft, Nat.shiftRight_eq_div_pow] at h ⊢
        refine Nat.div_lt_of_lt_mul ?_
        rwa [← Nat.pow_add, ← Nat.mul_two, ← Nat.pow_succ]
      rw [List.mem_append, ih hlow, ih hhigh]
      simp only [Nat.testBit_xor, Nat.testBit_shiftLeft, Nat.testBit_shiftRight]
      generalize 1 <<< k = half
      by_cases hi : first + half ≤ i
      · have h₁ : half ≤ i - first := by omega
        have h₂ : half + (i - (first + half)) = i - first := by omega
        have h₃ : half + (i - first - half) = i - first := by omega
        have h₄ : first ≤ i := by omega
        simp [h₁, h₂, h₃, h₄, hi]
      · by_cases h₁ : first ≤ i
        · have h₂ : ¬ half ≤ i - first := by omega
          simp [h₁, h₂, hi]
        · simp [h₁, hi]

theorem mem_toList {s : StateSet} {i : Nat} : i ∈ s.toList ↔ s.contains i := by
  rw [toList, mem_members]
  · simp [contains]
  · simp only [Nat.one_shiftLeft]
    exact Nat.lt_of_lt_of_le Nat.lt_log2_self
      (Nat.pow_le_pow_right (by decide) Nat.lt_log2_self)

end StateSet

end ScrapeConfig
