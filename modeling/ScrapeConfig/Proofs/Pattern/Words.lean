import ScrapeConfig.Proofs.Pattern.Classes

/-!
# Ranges in words of 32 bits

The bounds of ranges are kept in words of 32 bits, and the operations on lists of ranges are loops
that add to bounds and subtract from them. A list is brought into normal form by sorting its ranges
and then merging each of them into the last one so far, or putting it behind that one. Here these
loops stand with an arithmetic that has no result where no word can hold it. They always have one, and
it is what `normalize`, `complement` and `foldCase` give.

Results:
1. `CodeRange.Merged.absorb?_eq_some`, `CodeRange.Merged.foldlM_absorb?_eq_some`: one turn of merging,
   and all of them.
2. `CodeRange.normalize?_eq`, `CodeRange.complement?_eq`, `CodeRange.foldCase?_eq`: no sum is too large
   for a word, and no difference is below zero.
3. `CodeRange.operations_exact`: what the three operations give.
-/

namespace ScrapeConfig

namespace Word32

/-- The sum of two words, if a word can hold it. -/
def add? (a b : Nat) : Option Nat := if a + b < UInt32.size then some (a + b) else none

/-- The difference of two words, if it is not below zero. -/
def sub? (a b : Nat) : Option Nat := if b ≤ a then some (a - b) else none

variable {a b : Nat}

theorem add?_eq (h : a + b < UInt32.size) : add? a b = some (a + b) := if_pos h

theorem sub?_eq (h : b ≤ a) : sub? a b = some (a - b) := if_pos h

end Word32

namespace CodeRange

variable {r m : CodeRange} {rs : List CodeRange} {b c n : Nat}

/-! ## The loops -/

/-- The order of sorting: by the lower bounds, and by the upper ones where these are the same. -/
def precedes (r s : CodeRange) : Bool := r.lo < s.lo || r.lo == s.lo && r.hi ≤ s.hi

/-- Merges a range into the last one so far, which stands first, or puts it behind that one. -/
def absorb? (merged : List CodeRange) (r : CodeRange) : Option (List CodeRange) :=
  match merged with
  | [] => some [r]
  | m :: before => do
    let next ← Word32.add? m.hi 1
    return if r.lo ≤ next then ⟨m.lo, max m.hi r.hi⟩ :: before else r :: m :: before

def normalize? (rs : List CodeRange) : Option (List CodeRange) := do
  let merged ← (rs.mergeSort precedes).foldlM absorb? []
  return merged.reverse

def gaps? (next : Nat) : List CodeRange → Option (List CodeRange)
  | [] => some (if next ≤ last then [⟨next, last⟩] else [])
  | r :: rs => do
    let gap ← if next < r.lo then (Word32.sub? r.lo 1).map fun hi => [⟨next, hi⟩] else some []
    let behind ← gaps? (← Word32.add? r.hi 1) rs
    return gap ++ behind

def complement? (rs : List CodeRange) : Option (List CodeRange) := gaps? 0 rs

def recased? (letters others : Nat) (r : CodeRange) : Option (List CodeRange) := do
  let lo := max r.lo letters
  let hi := min r.hi (← Word32.add? letters 25)
  let shift (c : Nat) : Option Nat := do Word32.add? (← Word32.sub? c letters) others
  if lo ≤ hi then return [⟨← shift lo, ← shift hi⟩] else return []

def foldCase? (rs : List CodeRange) : Option (List CodeRange) := do
  let extra ← rs.mapM fun r => do
    return (← r.recased? 'a'.toNat 'A'.toNat) ++ (← r.recased? 'A'.toNat 'a'.toNat)
  return rs ++ extra.flatten

/-- There are words behind the highest code point. -/
theorem Valid.add?_hi (h : r.Valid) : Word32.add? r.hi 1 = some (r.hi + 1) :=
  Word32.add?_eq (Nat.lt_of_le_of_lt (Nat.succ_le_succ h.2) (by decide))

/-! ## Sorting -/

theorem precedes_iff {s : CodeRange} :
    precedes r s ↔ r.lo < s.lo ∨ r.lo = s.lo ∧ r.hi ≤ s.hi := by
  simp only [precedes, Bool.or_eq_true, Bool.and_eq_true, decide_eq_true_eq, beq_iff_eq]

theorem pairwise_mergeSort (rs : List CodeRange) :
    (rs.mergeSort precedes).Pairwise fun r s => r.lo ≤ s.lo := by
  have sorted : (rs.mergeSort precedes).Pairwise fun r s => precedes r s := by
    refine List.pairwise_mergeSort ?_ ?_ rs
    · intro r s t
      simp only [precedes_iff]
      omega
    · intro r s
      simp only [Bool.or_eq_true, precedes_iff]
      omega
  refine sorted.imp fun h => ?_
  have := precedes_iff.mp h
  omega

theorem covers_mergeSort : covers (rs.mergeSort precedes) c ↔ covers rs c := by
  simp only [covers_iff, List.mem_mergeSort]

theorem covers_reverse : covers rs.reverse c ↔ covers rs c := by
  simp only [covers_iff, List.mem_reverse]

/-! ## Merging -/

/-- The ranges merged so far, the last one first. None of them begins behind `b`. -/
structure Merged (b : Nat) (rs : List CodeRange) : Prop where
  apart : rs.Pairwise fun r s => s.hi + 1 < r.lo
  valid : ∀ r ∈ rs, r.Valid
  begun : ∀ r ∈ rs, r.lo ≤ b

namespace Merged

theorem normal_reverse (h : Merged b rs) : Normal rs.reverse :=
  ⟨List.pairwise_reverse.mpr h.apart, fun r hr => h.valid r (List.mem_reverse.mp hr)⟩

theorem mono {b' : Nat} (h : Merged b rs) (hb : b ≤ b') : Merged b' rs :=
  ⟨h.apart, h.valid, fun r hr => Nat.le_trans (h.begun r hr) hb⟩

/-- The last range may grow at its end, since nothing is behind it. -/
theorem widen (h : Merged b (m :: rs)) (hr : r.Valid) : Merged b (⟨m.lo, max m.hi r.hi⟩ :: rs) := by
  obtain ⟨valid, others⟩ := List.forall_mem_cons.mp h.valid
  have widened : Valid ⟨m.lo, max m.hi r.hi⟩ :=
    ⟨Nat.le_trans valid.1 (Nat.le_max_left ..), Nat.max_le.mpr ⟨valid.2, hr.2⟩⟩
  exact ⟨List.pairwise_cons.mpr (List.pairwise_cons.mp h.apart),
    List.forall_mem_cons.mpr ⟨widened, others⟩,
    List.forall_mem_cons.mpr (List.forall_mem_cons.mp h.begun)⟩

theorem push (h : Merged r.lo rs) (hr : r.Valid) (behind : ∀ x ∈ rs, x.hi + 1 < r.lo) :
    Merged r.lo (r :: rs) :=
  ⟨List.pairwise_cons.mpr ⟨behind, h.apart⟩, List.forall_mem_cons.mpr ⟨hr, h.valid⟩,
    List.forall_mem_cons.mpr ⟨Nat.le_refl _, h.begun⟩⟩

/-- What is behind the last range is behind all of them. -/
theorem hi_lt (h : Merged b (m :: rs)) (hr : m.hi + 1 < r.lo) : ∀ x ∈ m :: rs, x.hi + 1 < r.lo := by
  refine List.forall_mem_cons.mpr ⟨hr, fun x hx => ?_⟩
  have apart := (List.pairwise_cons.mp h.apart).1 x hx
  have nonempty := (h.valid m List.mem_cons_self).1
  omega

/-- One turn: the range covers the same whether it widens the last one or becomes the last one. -/
theorem absorb?_eq_some (h : Merged r.lo rs) (hr : r.Valid) :
    ∃ next, absorb? rs r = some next ∧ Merged r.lo next ∧
      ∀ c, covers next c ↔ covers rs c ∨ (r.lo ≤ c ∧ c ≤ r.hi) := by
  cases rs with
  | nil => exact ⟨[r], rfl, h.push hr nofun, fun c => covers_cons.trans or_comm⟩
  | cons m rs =>
    have valid := h.valid m List.mem_cons_self
    have begun := h.begun m List.mem_cons_self
    refine ⟨_, by rw [absorb?, valid.add?_hi]; rfl, ?_⟩
    split
    · next touches =>
      -- Nothing is left out between the two, so together they reach from the lower end to the upper one.
      refine ⟨h.widen hr, fun c => ?_⟩
      have := valid.1
      rw [covers_cons, covers_cons, or_right_comm]
      refine or_congr ?_ Iff.rfl
      dsimp only
      omega
    · next behind =>
      exact ⟨h.push hr (h.hi_lt (Nat.lt_of_not_le behind)), fun c => covers_cons.trans or_comm⟩

/-- All turns, by induction on the ranges to come, which are sorted by their lower bounds. -/
theorem foldlM_absorb?_eq_some {done : List CodeRange} (h : Merged b done) (valid : ∀ r ∈ rs, r.Valid)
    (sorted : rs.Pairwise fun r s => r.lo ≤ s.lo) (behind : ∀ r ∈ rs, b ≤ r.lo) :
    ∃ merged, rs.foldlM absorb? done = some merged ∧ Normal merged.reverse ∧
      ∀ c, covers merged c ↔ covers done c ∨ covers rs c := by
  induction rs generalizing b done with
  | nil => exact ⟨done, rfl, h.normal_reverse, fun c => by simp only [not_covers_nil, or_false]⟩
  | cons r rs ih =>
    obtain ⟨first, valid⟩ := List.forall_mem_cons.mp valid
    obtain ⟨lowest, sorted⟩ := List.pairwise_cons.mp sorted
    have begun := h.mono (List.forall_mem_cons.mp behind).1
    obtain ⟨next, turn, still, here⟩ := begun.absorb?_eq_some first
    obtain ⟨merged, turns, normal, covered⟩ := ih still valid sorted lowest
    refine ⟨merged, ?_, normal, fun c => ?_⟩
    · rw [List.foldlM_cons, turn]
      exact turns
    · rw [covered, here, covers_cons, or_assoc]

end Merged

/-- Sorting and merging gives a normal list that covers the same, and there is only one. -/
theorem normalize?_eq (h : ∀ r ∈ rs, r.Valid) : normalize? rs = some (normalize rs) := by
  have start : Merged 0 [] := ⟨.nil, nofun, nofun⟩
  have valid : ∀ r ∈ rs.mergeSort precedes, r.Valid := fun r hr => h r (List.mem_mergeSort.mp hr)
  obtain ⟨merged, turns, normal, covered⟩ :=
    start.foldlM_absorb?_eq_some valid (pairwise_mergeSort rs) fun _ _ => Nat.zero_le _
  have same : merged.reverse = normalize rs := by
    refine normal.ext (normal_normalize h) fun c => ?_
    rw [covers_reverse, covered, covers_mergeSort, covers_normalize, not_covers_nil, false_or]
  rw [normalize?, turns, ← same]
  rfl

/-! ## Gaps and letters -/

theorem gaps?_eq (h : ∀ r ∈ rs, r.Valid) : gaps? n rs = some (gaps n rs) := by
  induction rs generalizing n with
  | nil => rfl
  | cons r rs ih =>
    obtain ⟨first, h⟩ := List.forall_mem_cons.mp h
    rw [gaps?, gaps]
    split
    · next before =>
      rw [Word32.sub?_eq (Nat.zero_lt_of_lt before), first.add?_hi]
      simp only [ih h, Option.map_some, Option.bind_eq_bind, Option.bind_some]
      rfl
    · rw [first.add?_hi]
      simp only [ih h, Option.bind_eq_bind, Option.bind_some]
      rfl

theorem complement?_eq (h : ∀ r ∈ rs, r.Valid) : complement? rs = some (complement rs) := gaps?_eq h

/-- A bound is moved only if it is among the letters, so that the differences are not below zero. -/
theorem recased?_eq {letters others : Nat} (hl : letters + 25 < UInt32.size)
    (ho : others + 25 < UInt32.size) : r.recased? letters others = some (r.recased letters others) := by
  simp only [recased?, recased, Word32.add?_eq hl, Option.bind_eq_bind, Option.bind_some]
  split
  · rw [Word32.sub?_eq (by omega), Word32.sub?_eq (by omega)]
    simp only [Option.bind_some]
    rw [Word32.add?_eq (by omega), Word32.add?_eq (by omega)]
    rfl
  · rfl

theorem foldCase?_eq (rs : List CodeRange) : foldCase? rs = some (foldCase rs) := by
  have small : 'a'.toNat + 25 < UInt32.size := by decide
  have capital : 'A'.toNat + 25 < UInt32.size := by decide
  simp only [foldCase?, recased?_eq small capital, recased?_eq capital small, Option.bind_eq_bind,
    Option.bind_some, List.mapM_pure, foldCase, List.flatMap_def]
  rfl

/-! ## The operations -/

/-- For valid ranges, the normal form is sorted, without ranges that overlap or touch, and covers the
same. The complement of a normal list is normal and covers all other code points, so that it is turned
around once more to the list itself. Folding adds the other case of the ASCII letters that are covered.
Words of 32 bits are enough for all of it. -/
theorem operations_exact (h : ∀ r ∈ rs, r.Valid) :
    (normalize? rs = some (normalize rs) ∧ Normal (normalize rs) ∧
      ∀ c, covers (normalize rs) c ↔ covers rs c) ∧
    (Normal rs → complement? rs = some (complement rs) ∧ Normal (complement rs) ∧
      (∀ c, covers (complement rs) c ↔ c ≤ last ∧ ¬ covers rs c) ∧
      complement (complement rs) = rs) ∧
    foldCase? rs = some (foldCase rs) ∧ (∀ r ∈ foldCase rs, r.Valid) ∧
      ∀ c, covers (foldCase rs) c ↔ covers rs c ∨ ∃ letter, covers rs letter ∧ OtherCase letter c := by
  refine ⟨⟨normalize?_eq h, normal_normalize h, fun c => covers_normalize⟩, fun normal => ?_,
    foldCase?_eq rs, valid_foldCase h, fun c => covers_foldCase⟩
  exact ⟨complement?_eq h, normal_complement normal, fun c => covers_complement normal,
    complement_complement normal⟩

/-- Ranges that overlap, touch and repeat in any order, and cover everything. -/
def scattered : List CodeRange :=
  [⟨0x60, last⟩, ⟨0x20, 0x40⟩, ⟨0, 0x30⟩, ⟨0x20, 0x40⟩, ⟨0x41, 0x5F⟩]

/-- All code points but the capitals from `C` on. -/
def bothEnds : List CodeRange := [⟨0, 0x42⟩, ⟨0x5B, last⟩]

theorem operations_exact_ends :
    (∀ r ∈ scattered, r.Valid) ∧ (∀ r ∈ bothEnds, r.Valid) ∧ Normal bothEnds ∧
      normalize? scattered = some [⟨0, last⟩] ∧
      complement? bothEnds = some [⟨0x43, 0x5A⟩] ∧ complement (complement bothEnds) = bothEnds ∧
      foldCase? bothEnds = some [⟨0, 0x42⟩, ⟨0x5B, last⟩, ⟨0x61, 0x62⟩, ⟨0x41, 0x5A⟩] := by
  have everything : ∀ r ∈ scattered, r.Valid := by decide
  have ends : ∀ r ∈ bothEnds, r.Valid := by decide
  have normal : Normal bothEnds := ⟨by decide, ends⟩
  obtain ⟨⟨merged, _⟩, _⟩ := operations_exact everything
  obtain ⟨_, complements, folded, _⟩ := operations_exact ends
  obtain ⟨complemented, _, _, twice⟩ := complements normal
  have whole : normalize scattered = [⟨0, last⟩] := by decide
  have gap : complement bothEnds = [⟨0x43, 0x5A⟩] := by decide
  have letters :
      foldCase bothEnds = [⟨0, 0x42⟩, ⟨0x5B, last⟩, ⟨0x61, 0x62⟩, ⟨0x41, 0x5A⟩] := by decide
  exact ⟨everything, ends, normal, whole ▸ merged, gap ▸ complemented, twice, letters ▸ folded⟩

end CodeRange

end ScrapeConfig
