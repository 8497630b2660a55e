import ScrapeConfig.Proofs.Pattern.Ranges

/-!
# The code points of character classes

What the operations on lists of ranges do to the code points that a list covers.

Results:
1. `CodeRange.covers_normalize`, `CodeRange.normal_normalize`: the normal form covers the same code
   points with sorted ranges that lie apart.
2. `CodeRange.Normal.ext`: a normal list is determined by the code points that it covers.
3. `CodeRange.covers_complement`, `CodeRange.normal_complement`: the complement of a normal list is
   normal and covers all other code points. `CodeRange.complement_complement`: so the complement of
   the complement is the list itself.
4. `CodeRange.covers_foldCase`: folding adds the other case of the letters that are covered.
-/

namespace ScrapeConfig.CodeRange

variable {r : CodeRange} {rs : List CodeRange} {c n : Nat}

theorem contains_iff : r.contains c ↔ r.lo ≤ c ∧ c ≤ r.hi := by
  simp only [contains, Bool.and_eq_true, decide_eq_true_eq]

theorem covers_iff : covers rs c ↔ ∃ r ∈ rs, r.lo ≤ c ∧ c ≤ r.hi := by
  simp only [covers, List.any_eq_true, contains_iff]

theorem not_covers_nil : (covers [] c = true) = False := eq_false Bool.false_ne_true

theorem covers_cons : covers (r :: rs) c ↔ (r.lo ≤ c ∧ c ≤ r.hi) ∨ covers rs c := by
  simp only [covers, List.any_cons, Bool.or_eq_true, contains_iff]

theorem covers_append {ss : List CodeRange} : covers (rs ++ ss) c ↔ covers rs c ∨ covers ss c := by
  simp only [covers, List.any_append, Bool.or_eq_true]

/-! ## Normal lists -/

/-- Sorted ranges that are valid and neither overlap nor touch. -/
structure Normal (rs : List CodeRange) : Prop where
  apart : rs.Pairwise fun r s => r.hi + 1 < s.lo
  valid : ∀ r ∈ rs, r.Valid

theorem Normal.tail (h : Normal (r :: rs)) : Normal rs :=
  ⟨(List.pairwise_cons.mp h.apart).2, (List.forall_mem_cons.mp h.valid).2⟩

/-- Two ranges that overlap or touch cover together what lies between their outer ends. -/
theorem covers_insert : covers (insert r rs) c ↔ (r.lo ≤ c ∧ c ≤ r.hi) ∨ covers rs c := by
  induction rs generalizing r with
  | nil => exact covers_cons
  | cons x xs ih =>
    simp only [insert]
    split
    · exact covers_cons
    · split
      · rw [covers_cons, ih, covers_cons, or_left_comm]
      · rw [ih, covers_cons, ← or_assoc]
        refine or_congr ?_ Iff.rfl
        dsimp only
        omega

theorem lt_lo_of_mem_insert {b : Nat} (hr : b < r.lo) (hrs : ∀ x ∈ rs, b < x.lo) :
    ∀ x ∈ insert r rs, b < x.lo := by
  induction rs generalizing r with
  | nil => simpa [insert] using hr
  | cons x xs ih =>
    rw [List.forall_mem_cons] at hrs
    simp only [insert]
    split
    · exact List.forall_mem_cons.mpr ⟨hr, List.forall_mem_cons.mpr hrs⟩
    · split
      · exact List.forall_mem_cons.mpr ⟨hrs.1, ih hr hrs.2⟩
      · refine ih ?_ hrs.2
        dsimp only
        omega

theorem normal_insert (hr : r.Valid) (h : Normal rs) : Normal (insert r rs) := by
  refine ⟨?_, valid_insert hr h.valid⟩
  induction rs generalizing r with
  | nil => simp [insert]
  | cons x xs ih =>
    have apart := List.pairwise_cons.mp h.apart
    have hx := (List.forall_mem_cons.mp h.valid).1
    simp only [insert]
    split
    · next before =>
      refine List.pairwise_cons.mpr ⟨List.forall_mem_cons.mpr ⟨before, fun y hy => ?_⟩, h.apart⟩
      have := apart.1 y hy
      have := hx.1
      omega
    · split
      · next behind =>
        exact List.pairwise_cons.mpr ⟨lt_lo_of_mem_insert behind apart.1, ih hr h.tail⟩
      · refine ih ⟨?_, ?_⟩ h.tail
        · have := hr.1
          have := hx.1
          dsimp only
          omega
        · have := hr.2
          have := hx.2
          dsimp only
          omega

theorem covers_normalize : covers (normalize rs) c ↔ covers rs c := by
  induction rs with
  | nil => exact Iff.rfl
  | cons r rs ih =>
    rw [covers_cons, ← ih]
    exact covers_insert

theorem normal_normalize (h : ∀ r ∈ rs, r.Valid) : Normal (normalize rs) := by
  induction rs with
  | nil => exact ⟨.nil, by simp [normalize]⟩
  | cons r rs ih =>
    rw [List.forall_mem_cons] at h
    exact normal_insert h.1 (ih h.2)

/-! ## What a normal list covers -/

theorem Normal.le_last (h : Normal rs) (hc : covers rs c) : c ≤ last := by
  obtain ⟨r, hr, within⟩ := covers_iff.mp hc
  exact Nat.le_trans within.2 (h.valid r hr).2

theorem Normal.covers_lo (h : Normal (r :: rs)) : covers (r :: rs) r.lo :=
  covers_cons.mpr (.inl ⟨Nat.le_refl _, (h.valid r List.mem_cons_self).1⟩)

theorem Normal.lo_le (h : Normal (r :: rs)) (hc : covers (r :: rs) c) : r.lo ≤ c := by
  rcases covers_cons.mp hc with here | behind
  · exact here.1
  · obtain ⟨s, hs, hc⟩ := covers_iff.mp behind
    have apart := (List.pairwise_cons.mp h.apart).1 s hs
    have nonempty := (h.valid r List.mem_cons_self).1
    omega

/-- The other ranges cover what lies behind the first one and the code point next to it. -/
theorem Normal.covers_tail_iff (h : Normal (r :: rs)) :
    covers rs c ↔ r.hi + 1 < c ∧ covers (r :: rs) c := by
  rw [covers_cons]
  constructor
  · intro hc
    obtain ⟨s, hs, within⟩ := covers_iff.mp hc
    have apart := (List.pairwise_cons.mp h.apart).1 s hs
    exact ⟨by omega, .inr hc⟩
  · rintro ⟨behind, here | hc⟩
    · omega
    · exact hc

/-- The first range of a normal list is as long as what is covered allows. -/
theorem Normal.hi_le (h : Normal (r :: rs)) {s : CodeRange} {ss : List CodeRange} (lo : s.lo = r.lo)
    (within : ∀ c, covers (s :: ss) c → covers (r :: rs) c) : s.hi ≤ r.hi := by
  refine Nat.le_of_not_lt fun longer => ?_
  have nonempty := (h.valid r List.mem_cons_self).1
  have next : covers (s :: ss) (r.hi + 1) := covers_cons.mpr (.inl ⟨by omega, by omega⟩)
  rcases covers_cons.mp (within _ next) with here | behind
  · omega
  · have := (h.covers_tail_iff.mp behind).1
    omega

/-- Normal lists that cover the same are the same, by induction on both of them. -/
theorem Normal.ext {ss : List CodeRange} (hr : Normal rs) (hs : Normal ss)
    (same : ∀ c, covers rs c ↔ covers ss c) : rs = ss := by
  induction rs generalizing ss with
  | nil =>
    cases ss with
    | nil => rfl
    | cons s ss => exact absurd ((same s.lo).mpr hs.covers_lo) Bool.false_ne_true
  | cons r rs ih =>
    cases ss with
    | nil => exact absurd ((same r.lo).mp hr.covers_lo) Bool.false_ne_true
    | cons s ss =>
      have lo : r.lo = s.lo :=
        Nat.le_antisymm (hr.lo_le ((same s.lo).mpr hs.covers_lo))
          (hs.lo_le ((same r.lo).mp hr.covers_lo))
      have hi : r.hi = s.hi :=
        Nat.le_antisymm (hs.hi_le lo fun c => (same c).mp) (hr.hi_le lo.symm fun c => (same c).mpr)
      have first : r = s := by rw [show r = ⟨r.lo, r.hi⟩ from rfl, lo, hi]
      have others : rs = ss := by
        refine ih hr.tail hs.tail fun c => ?_
        rw [hr.covers_tail_iff, hs.covers_tail_iff, hi, same]
      rw [first, others]

/-! ## Complements -/

theorem covers_gaps (h : Normal rs) (hn : ∀ r ∈ rs, n ≤ r.lo) :
    covers (gaps n rs) c ↔ n ≤ c ∧ c ≤ last ∧ ¬ covers rs c := by
  induction rs generalizing n with
  | nil =>
    simp only [gaps, not_covers_nil, not_false_eq_true, and_true]
    split
    · simp only [covers_cons, not_covers_nil, or_false]
    · simp only [not_covers_nil, false_iff]
      omega
  | cons r rs ih =>
    have apart := (List.pairwise_cons.mp h.apart).1
    obtain ⟨nonempty, bounded⟩ := (List.forall_mem_cons.mp h.valid).1
    have first := (List.forall_mem_cons.mp hn).1
    have rest := ih h.tail fun s hs => Nat.le_of_lt (apart s hs)
    -- Nothing in front of the range `r` is covered by the ranges behind it.
    have behind : c < r.lo → ¬ covers rs c := by
      rintro before covered
      obtain ⟨s, hs, hc⟩ := covers_iff.mp covered
      have := apart s hs
      omega
    simp only [gaps]
    split
    · rw [covers_cons, rest, covers_cons]
      dsimp only
      by_cases before : c < r.lo
      · simp only [behind before, Bool.false_eq_true, or_false, not_false_eq_true, and_true]
        omega
      · by_cases covered : covers rs c
        · simp only [covered, or_true, not_true_eq_false, and_false, or_false, iff_false]
          omega
        · simp only [covered, Bool.false_eq_true, or_false, not_false_eq_true, and_true]
          omega
    · rw [rest, covers_cons]
      by_cases covered : covers rs c
      · simp only [covered, or_true, not_true_eq_false, and_false]
      · simp only [covered, Bool.false_eq_true, or_false, not_false_eq_true, and_true]
        omega

theorem covers_complement (h : Normal rs) :
    covers (complement rs) c ↔ c ≤ last ∧ ¬ covers rs c := by
  rw [complement, covers_gaps h fun _ _ => Nat.zero_le _]
  exact and_iff_right (Nat.zero_le c)

theorem normal_gaps (h : Normal rs) (hn : ∀ r ∈ rs, n ≤ r.lo) : Normal (gaps n rs) := by
  refine ⟨?_, valid_gaps h.valid n⟩
  induction rs generalizing n with
  | nil =>
    simp only [gaps]
    split
    · exact List.pairwise_singleton _ _
    · exact .nil
  | cons r rs ih =>
    have apart := (List.pairwise_cons.mp h.apart).1
    have nonempty := (h.valid r List.mem_cons_self).1
    have behind : ∀ s ∈ rs, r.hi + 1 ≤ s.lo := fun s hs => Nat.le_of_lt (apart s hs)
    have rest := ih h.tail behind
    simp only [gaps]
    split
    · refine List.pairwise_cons.mpr ⟨fun s hs => ?_, rest⟩
      have valid := valid_gaps h.tail.valid (r.hi + 1) s hs
      have covered := covers_iff.mpr ⟨s, hs, Nat.le_refl _, valid.1⟩
      have := ((covers_gaps h.tail behind).mp covered).1
      dsimp only
      omega
    · exact rest

theorem normal_complement (h : Normal rs) : Normal (complement rs) :=
  normal_gaps h fun _ _ => Nat.zero_le _

/-- Both lists are normal and cover the same, since nothing beyond the last code point is covered. -/
theorem complement_complement (h : Normal rs) : complement (complement rs) = rs := by
  refine (normal_complement (normal_complement h)).ext h fun c => ?_
  rw [covers_complement (normal_complement h), covers_complement h]
  constructor
  · rintro ⟨bounded, left⟩
    exact Decidable.byContradiction fun uncovered => left ⟨bounded, uncovered⟩
  · exact fun covered => ⟨h.le_last covered, fun left => left.2 covered⟩

/-! ## Letters of either case -/

/-- The two code points are an ASCII letter and the same letter of the other case. -/
def OtherCase (m n : Nat) : Prop :=
  ('A'.toNat ≤ m ∧ m ≤ 'Z'.toNat ∧ n = m + 32) ∨ ('a'.toNat ≤ m ∧ m ≤ 'z'.toNat ∧ n + 32 = m)

theorem otherCase_iff {m n : Nat} :
    OtherCase m n ↔ (65 ≤ m ∧ m ≤ 90 ∧ n = m + 32) ∨ (97 ≤ m ∧ m ≤ 122 ∧ n + 32 = m) := Iff.rfl

theorem covers_recased {letters others : Nat} :
    covers (r.recased letters others) n ↔
      ∃ m, (r.lo ≤ m ∧ m ≤ r.hi) ∧ letters ≤ m ∧ m ≤ letters + 25 ∧ n + letters = m + others := by
  simp only [recased]
  split
  · simp only [covers_cons, not_covers_nil, or_false]
    constructor
    · rintro ⟨low, high⟩
      exact ⟨n + letters - others, by omega⟩
    · rintro ⟨m, h⟩
      omega
  · simp only [not_covers_nil, false_iff]
    rintro ⟨m, h⟩
    omega

theorem covers_flatMap {f : CodeRange → List CodeRange} :
    covers (rs.flatMap f) n ↔ ∃ r ∈ rs, covers (f r) n := by
  simp only [covers, List.any_flatMap, List.any_eq_true]

/-- Folding adds the other case of every letter that is covered, and nothing else. -/
theorem covers_foldCase :
    covers (foldCase rs) n ↔ covers rs n ∨ ∃ m, covers rs m ∧ OtherCase m n := by
  rw [foldCase, covers_append, covers_flatMap]
  refine or_congr Iff.rfl ?_
  simp only [covers_append, covers_recased, @covers_iff rs, otherCase_iff,
    show 'a'.toNat = 97 from rfl, show 'A'.toNat = 65 from rfl]
  constructor
  · rintro ⟨r, hr, ⟨m, hm, h⟩ | ⟨m, hm, h⟩⟩
    · exact ⟨m, ⟨r, hr, hm⟩, by omega⟩
    · exact ⟨m, ⟨r, hr, hm⟩, by omega⟩
  · rintro ⟨m, ⟨r, hr, hm⟩, h | h⟩
    · exact ⟨r, hr, .inr ⟨m, hm, by omega⟩⟩
    · exact ⟨r, hr, .inl ⟨m, hm, by omega⟩⟩

end ScrapeConfig.CodeRange
