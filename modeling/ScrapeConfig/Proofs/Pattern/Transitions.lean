import ScrapeConfig.Pattern.Automaton
import ScrapeConfig.Proofs.Pattern.Ranges

/-!
# Transitions of one state

The subset construction cuts the code points at the ends of ranges. Between two neighbouring cuts
all code points are alike: a range lies over the whole stretch or over none of it
(`Subset.over_stretch`). The stretches are sorted, so the binary search of the automaton finds the
one transition for a code point (`Transition.find?_of_mem`), and joining neighbours that lead to the
same state changes nothing (`Subset.goes_join`).
-/

namespace ScrapeConfig

/-! ## Binary search -/

namespace Transition

/-- Transitions in ascending order of their ranges, which are disjoint and not empty. -/
structure Ordered (ts : List Transition) : Prop where
  ascending : ts.Pairwise fun t u => t.range.hi < u.range.lo
  nonempty : ∀ t ∈ ts, t.range.lo ≤ t.range.hi

theorem Ordered.tail {t : Transition} {ts : List Transition} (h : Ordered (t :: ts)) : Ordered ts :=
  ⟨(List.pairwise_cons.mp h.ascending).2, (List.forall_mem_cons.mp h.nonempty).2⟩

theorem Ordered.getElem_lt {ts : List Transition} (h : Ordered ts) {i j : Nat} {t u : Transition}
    (ht : ts[i]? = some t) (hu : ts[j]? = some u) (hij : i < j) : t.range.hi < u.range.lo := by
  obtain ⟨hi, rfl⟩ := List.getElem?_eq_some_iff.mp ht
  obtain ⟨hj, rfl⟩ := List.getElem?_eq_some_iff.mp hu
  exact List.pairwise_iff_getElem.mp h.ascending i j hi hj hij

theorem mem_of_search {ts : Array Transition} {c fuel lo hi : Nat} {t : Transition}
    (h : search ts c fuel lo hi = some t) : t ∈ ts ∧ t.range.contains c := by
  induction fuel generalizing lo hi with
  | zero => simp [search] at h
  | succ fuel ih =>
    rw [search] at h
    split at h
    · dsimp only at h
      split at h
      · simp at h
      · next u hu =>
        split at h
        · exact ih h
        · split at h
          · exact ih h
          · simp only [Option.some.injEq] at h
            subst h
            exact ⟨Array.mem_of_getElem? hu, by simp [CodeRange.contains]; omega⟩
    · simp at h

/-- A search between `lo` and `hi` finds the transition at `i` if it lies between them. -/
theorem search_of_getElem? {ts : Array Transition} (ho : Ordered ts.toList) {c i : Nat}
    {t : Transition} (ht : ts[i]? = some t) (hc : t.range.contains c) {fuel lo hi : Nat}
    (hlo : lo ≤ i) (hi' : i < hi) (hts : hi ≤ ts.size) (hfuel : hi - lo ≤ fuel) :
    search ts c fuel lo hi = some t := by
  simp only [CodeRange.contains, Bool.and_eq_true, decide_eq_true_eq] at hc
  have htl : ts.toList[i]? = some t := by simpa using ht
  induction fuel generalizing lo hi with
  | zero => omega
  | succ fuel ih =>
    rw [search, if_pos (by omega)]
    dsimp only
    have hmid : (lo + hi) / 2 < ts.size := by omega
    rw [Array.getElem?_eq_getElem hmid]
    dsimp only
    have hu : ts.toList[(lo + hi) / 2]? = some ts[(lo + hi) / 2] := by simp [hmid]
    have hne := ho.nonempty _ (List.mem_of_getElem? hu)
    rcases Nat.lt_trichotomy i ((lo + hi) / 2) with hlt | heq | hgt
    · have := ho.getElem_lt htl hu hlt
      rw [if_neg (by omega), if_pos (by omega)]
      exact ih hlo hlt (by omega) (by omega)
    · subst heq
      obtain rfl : ts[(lo + hi) / 2] = t := by simpa [hmid] using ht
      rw [if_neg (by omega), if_neg (by omega)]
    · have := ho.getElem_lt hu htl hgt
      rw [if_pos (by omega)]
      exact ih (by omega) hi' hts (by omega)

theorem mem_of_find? {ts : Array Transition} {c : Nat} {t : Transition} (h : find? ts c = some t) :
    t ∈ ts ∧ t.range.contains c :=
  mem_of_search h

theorem find?_of_mem {ts : Array Transition} (ho : Ordered ts.toList) {c : Nat} {t : Transition}
    (ht : t ∈ ts) (hc : t.range.contains c) : find? ts c = some t := by
  obtain ⟨i, hi, rfl⟩ := Array.mem_iff_getElem.mp ht
  exact search_of_getElem? ho (Array.getElem?_eq_getElem hi) hc (Nat.zero_le _) hi (Nat.le_refl _)
    (by omega)

end Transition

namespace Subset

/-! ## Cuts and stretches -/

theorem mem_insertCut {c d : Nat} {ds : List Nat} : d ∈ insertCut c ds ↔ d = c ∨ d ∈ ds := by
  induction ds with
  | nil => simp [insertCut]
  | cons e es ih =>
    simp only [insertCut]
    split
    · simp
    · split
      · next heq => subst heq; simp
      · rw [List.mem_cons, List.mem_cons, ih, or_left_comm]

theorem pairwise_insertCut {c : Nat} {ds : List Nat} (h : ds.Pairwise (· < ·)) :
    (insertCut c ds).Pairwise (· < ·) := by
  induction ds with
  | nil => simp [insertCut]
  | cons e es ih =>
    rw [List.pairwise_cons] at h
    simp only [insertCut]
    split
    · next hlt =>
      refine List.pairwise_cons.mpr ⟨?_, List.pairwise_cons.mpr h⟩
      rintro d (_ | ⟨_, hd⟩)
      · exact hlt
      · exact Nat.lt_trans hlt (h.1 d hd)
    · split
      · exact List.pairwise_cons.mpr h
      · refine List.pairwise_cons.mpr ⟨fun d hd => ?_, ih h.2⟩
        rcases mem_insertCut.mp hd with rfl | hd
        · omega
        · exact h.1 d hd

theorem mem_cuts {rs : List CodeRange} {d : Nat} :
    d ∈ cuts rs ↔ ∃ r ∈ rs, d = r.lo ∨ (r.hi < CodeRange.last ∧ d = r.hi + 1) := by
  induction rs with
  | nil => simp [cuts]
  | cons r rs ih =>
    have unfold_cuts : cuts (r :: rs) =
      insertCut r.lo (if r.hi < CodeRange.last then insertCut (r.hi + 1) (cuts rs) else cuts rs) :=
      rfl
    rw [unfold_cuts, mem_insertCut]
    simp only [List.mem_cons, exists_eq_or_imp]
    split
    · next h => rw [mem_insertCut, ih]; simp only [h, true_and, or_assoc]
    · next h => rw [ih]; simp only [h, false_and, or_false]

theorem pairwise_cuts (rs : List CodeRange) : (cuts rs).Pairwise (· < ·) := by
  induction rs with
  | nil => simp [cuts]
  | cons r rs ih =>
    refine pairwise_insertCut ?_
    split
    · exact pairwise_insertCut ih
    · exact ih

theorem cuts_le_last {rs : List CodeRange} (h : ∀ r ∈ rs, r.Valid) :
    ∀ d ∈ cuts rs, d ≤ CodeRange.last := by
  intro d hd
  obtain ⟨r, hr, rfl | ⟨hlt, rfl⟩⟩ := mem_cuts.mp hd
  · exact Nat.le_trans (h r hr).1 (h r hr).2
  · exact hlt

/-- What a stretch is: it begins at a cut, no other cut lies in it, and it is valid. -/
structure Stretch (cs : List Nat) (r : CodeRange) : Prop where
  lo_mem : r.lo ∈ cs
  uncut : ∀ d ∈ cs, ¬ (r.lo < d ∧ d ≤ r.hi)
  valid : r.Valid

theorem stretch_of_mem {cs : List Nat} (hs : cs.Pairwise (· < ·))
    (hl : ∀ d ∈ cs, d ≤ CodeRange.last) : ∀ r ∈ stretches cs, Stretch cs r := by
  induction cs with
  | nil => simp [stretches]
  | cons c cs ih =>
    rw [List.pairwise_cons] at hs
    rw [List.forall_mem_cons] at hl
    cases cs with
    | nil =>
      simp only [stretches, List.mem_singleton, forall_eq]
      exact ⟨by simp, by simp, hl.1, Nat.le_refl _⟩
    | cons d rest =>
      have hcd := hs.1 d List.mem_cons_self
      have hd := hl.2 d List.mem_cons_self
      refine List.forall_mem_cons.mpr ⟨⟨by simp, ?_, by simp only; omega, by simp only; omega⟩, ?_⟩
      · rintro x (_ | ⟨_, hx⟩)
        · simp
        · -- the cuts behind `c` begin with `d`, where the stretch has ended
          have : d ≤ x := by
            rcases List.mem_cons.mp hx with rfl | hx
            · exact Nat.le_refl _
            · exact Nat.le_of_lt ((List.pairwise_cons.mp hs.2).1 x hx)
          simp only
          omega
      · intro r hr
        have ⟨h₁, h₂, h₃⟩ := ih hs.2 hl.2 r hr
        refine ⟨List.mem_cons_of_mem _ h₁, ?_, h₃⟩
        rintro x (_ | ⟨_, hx⟩)
        · have := hs.1 _ h₁
          omega
        · exact h₂ x hx

theorem exists_stretch {cs : List Nat} {c : Nat} (hc : c ≤ CodeRange.last)
    (h : ∃ d ∈ cs, d ≤ c) : ∃ r ∈ stretches cs, r.contains c := by
  induction cs with
  | nil => simp at h
  | cons d cs ih =>
    cases cs with
    | nil =>
      simp only [List.mem_singleton, exists_eq_left] at h
      exact ⟨⟨d, CodeRange.last⟩, by simp [stretches], by simp [CodeRange.contains, h, hc]⟩
    | cons e rest =>
      by_cases he : ∃ x ∈ e :: rest, x ≤ c
      · obtain ⟨r, hr, hrc⟩ := ih he
        exact ⟨r, List.mem_cons_of_mem _ hr, hrc⟩
      · have hlt : c < e := by
          refine Nat.lt_of_not_le fun hle => he ⟨e, List.mem_cons_self, hle⟩
        have hd : d ≤ c := by
          obtain ⟨x, hx, hxc⟩ := h
          rcases List.mem_cons.mp hx with rfl | hx
          · exact hxc
          · exact absurd ⟨x, hx, hxc⟩ he
        refine ⟨⟨d, e - 1⟩, by simp [stretches], ?_⟩
        simp only [CodeRange.contains, Bool.and_eq_true, decide_eq_true_eq]
        omega

theorem pairwise_stretches {cs : List Nat} (hs : cs.Pairwise (· < ·))
    (hl : ∀ d ∈ cs, d ≤ CodeRange.last) :
    (stretches cs).Pairwise fun r s => r.hi < s.lo := by
  induction cs with
  | nil => simp [stretches]
  | cons c cs ih =>
    rw [List.pairwise_cons] at hs
    rw [List.forall_mem_cons] at hl
    cases cs with
    | nil => simp [stretches]
    | cons d rest =>
      refine List.pairwise_cons.mpr ⟨fun r hr => ?_, ih hs.2 hl.2⟩
      have hcd := hs.1 d List.mem_cons_self
      have hr := (stretch_of_mem hs.2 hl.2 r hr).lo_mem
      have : d ≤ r.lo := by
        rcases List.mem_cons.mp hr with h | h
        · omega
        · exact Nat.le_of_lt ((List.pairwise_cons.mp hs.2).1 _ h)
      simp only
      omega

/-- All code points of a stretch are alike for the ranges that were cut. -/
theorem over_stretch {rs : List CodeRange} {x r : CodeRange} {c : Nat} (hx : x ∈ rs)
    (hr : Stretch (cuts rs) r) (hc : r.contains c) :
    (x.lo ≤ r.lo ∧ r.hi ≤ x.hi) ↔ x.contains c := by
  simp only [CodeRange.contains, Bool.and_eq_true, decide_eq_true_eq] at hc ⊢
  constructor
  · omega
  · intro hxc
    have h₁ := hr.uncut x.lo (mem_cuts.mpr ⟨x, hx, .inl rfl⟩)
    refine ⟨by omega, ?_⟩
    by_cases hlt : x.hi < CodeRange.last
    · have h₂ := hr.uncut (x.hi + 1) (mem_cuts.mpr ⟨x, hx, .inr ⟨hlt, rfl⟩⟩)
      omega
    · have := hr.valid.2
      omega

/-! ## Joining neighbours -/

/-- Some transition leads from `c` to the state `q`. -/
def Goes (ts : List Transition) (c q : Nat) : Prop := ∃ t ∈ ts, t.range.contains c ∧ t.target = q

theorem goes_cons {t : Transition} {ts : List Transition} {c q : Nat} :
    Goes (t :: ts) c q ↔ (t.range.contains c ∧ t.target = q) ∨ Goes ts c q := by
  simp [Goes]

/-- Joining keeps the order and the code points of transitions. -/
structure Joined (ts us : List Transition) : Prop where
  ordered : Transition.Ordered us
  goes : ∀ c q, Goes us c q ↔ Goes ts c q
  starts : ∀ x, (∀ t ∈ ts, x < t.range.lo) → ∀ u ∈ us, x < u.range.lo

/-- Two neighbours that lead to the same state are one transition. -/
theorem goes_joined {t u : Transition} {us : List Transition}
    (touch : u.target = t.target ∧ t.range.hi + 1 = u.range.lo)
    (ht : t.range.lo ≤ t.range.hi) (hu : u.range.lo ≤ u.range.hi) {c q : Nat} :
    Goes (⟨⟨t.range.lo, u.range.hi⟩, t.target⟩ :: us) c q ↔ Goes (t :: u :: us) c q := by
  rw [goes_cons, goes_cons, goes_cons]
  simp only [CodeRange.contains, Bool.and_eq_true, decide_eq_true_eq, touch.1]
  constructor
  · rintro (⟨hc, rfl⟩ | hc)
    · by_cases hct : c ≤ t.range.hi
      · exact .inl ⟨by omega, rfl⟩
      · exact .inr (.inl ⟨by omega, rfl⟩)
    · exact .inr (.inr hc)
  · rintro (⟨hc, rfl⟩ | ⟨hc, rfl⟩ | hc)
    · exact .inl ⟨by omega, rfl⟩
    · exact .inl ⟨by omega, rfl⟩
    · exact .inr hc

theorem joined_join {ts : List Transition} (h : Transition.Ordered ts) : Joined ts (join ts) := by
  induction ts with
  | nil => exact ⟨h, fun _ _ => Iff.rfl, by simp [join]⟩
  | cons t ts ih =>
    have ⟨ordered, goes, starts⟩ := ih h.tail
    have hlt := List.pairwise_cons.mp h.ascending
    have hne := List.forall_mem_cons.mp h.nonempty
    have above := starts t.range.hi hlt.1
    simp only [join]
    cases hj : join ts with
    | nil =>
      rw [hj] at goes
      refine ⟨⟨by simp, by simpa using hne.1⟩, fun c q => ?_, fun x hx => ?_⟩
      · rw [goes_cons, goes_cons, goes c q]
      · simpa using hx t List.mem_cons_self
    | cons u us =>
      rw [hj] at ordered goes above
      have hus := List.pairwise_cons.mp ordered.ascending
      have hu := List.forall_mem_cons.mp ordered.nonempty
      have habove := List.forall_mem_cons.mp above
      dsimp only
      split
      · next touch =>
        refine ⟨⟨List.pairwise_cons.mpr ⟨hus.1, hus.2⟩, ?_⟩, fun c q => ?_, fun x hx => ?_⟩
        · refine List.forall_mem_cons.mpr ⟨?_, hu.2⟩
          have := hu.1
          simp only
          omega
        · rw [@goes_cons t ts, ← goes c q, ← goes_cons]
          exact goes_joined touch hne.1 hu.1
        · refine List.forall_mem_cons.mpr ⟨hx t List.mem_cons_self, fun v hv => ?_⟩
          have := hus.1 v hv
          have := hx t List.mem_cons_self
          omega
      · refine ⟨⟨List.pairwise_cons.mpr ⟨above, ordered.ascending⟩,
          List.forall_mem_cons.mpr ⟨hne.1, ordered.nonempty⟩⟩, fun c q => ?_, fun x hx => ?_⟩
        · rw [@goes_cons t (u :: us), goes c q, goes_cons]
        · refine List.forall_mem_cons.mpr ⟨hx t List.mem_cons_self, fun v hv => ?_⟩
          have := above v hv
          have := hx t List.mem_cons_self
          omega

end Subset

end ScrapeConfig
