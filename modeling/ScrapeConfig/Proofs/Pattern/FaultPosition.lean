import ScrapeConfig.Pattern.Reader

/-!
# Where a pattern source is at fault

A fault stands at a glyph of the source, behind one, or where a group or a class was opened, and none
of these is beyond the end of the source (`Pattern.position_le`).
-/

namespace ScrapeConfig.Pattern

variable {limit : Nat}

/-- A glyph that ends at `limit` or before. -/
def EndsWithin (limit : Nat) (g : Nat × Glyph) : Prop := g.1 + g.2.width ≤ limit

theorem Glyph.width_plain (c : Char) : (Glyph.plain c).width = 1 := rfl

theorem Glyph.width_escape (c : Char) : (Glyph.escape c).width = 2 := by
  unfold Glyph.escape
  split
  · rfl
  · rfl
  · rfl
  · rfl
  · split <;> rfl

theorem endsWithin_glyphs (n : Nat) (cs : List Char) :
    ∀ g ∈ glyphs n cs, EndsWithin (n + cs.length) g := by
  fun_induction glyphs n cs with
  | case1 => simp
  | case2 n => exact List.forall_mem_singleton.mpr (Nat.le_refl (n + 1))
  | case3 n c rest ih =>
    refine List.forall_mem_cons.mpr ⟨?_, fun g hg => ?_⟩
    · simp only [EndsWithin, Glyph.width_escape, List.length_cons]
      omega
    · have := ih g hg
      simp only [EndsWithin, List.length_cons] at this ⊢
      omega
  | case4 n c rest _ _ ih =>
    refine List.forall_mem_cons.mpr ⟨?_, fun g hg => ?_⟩
    · simp only [EndsWithin, Glyph.width_plain, List.length_cons]
      omega
    · have := ih g hg
      simp only [EndsWithin, List.length_cons] at this ⊢
      omega

theorem Glyph.position_of_char {g : Glyph} {n : Nat} {e : PatternError} (h : g.char n = .error e) :
    e.position = n := by
  cases g <;> cases h <;> rfl

namespace OpenClass

variable {k : OpenClass} {n : Nat} {g : Glyph}

theorem low_cases (k : OpenClass) (n : Nat) (g : Glyph) :
    (∃ c, k.low n g = .ok ({ k with phase := .low c }, false)) ∨
      ∃ e, k.low n g = .error e ∧ e.position = n := by
  unfold low
  cases h : g.char n with
  | ok c => exact .inl ⟨c, rfl⟩
  | error e => exact .inr ⟨e, rfl, Glyph.position_of_char h⟩

theorem item_cases (k : OpenClass) (n : Nat) (g : Glyph) :
    (∃ k' ends, k.item n g = .ok (k', ends) ∧ k'.start = k.start) ∨
      ∃ e, k.item n g = .error e ∧ e.position = n := by
  unfold item
  split
  · exact .inl ⟨k, true, rfl, rfl⟩
  · rcases k.low_cases n g with ⟨c, h⟩ | fault
    · exact .inl ⟨_, false, h, rfl⟩
    · exact .inr fault

/-- A glyph in a class either leaves the place where the class began or is at fault, at its own
place or right behind it. -/
theorem step_cases (k : OpenClass) (n : Nat) (g : Glyph) (next : Option Glyph) :
    (∃ k' ends, k.step n g next = .ok (k', ends) ∧ k'.start = k.start) ∨
      ∃ e, k.step n g next = .error e ∧ e.position ≤ n + g.width := by
  have low : (∃ k' ends, k.low n g = .ok (k', ends) ∧ k'.start = k.start) ∨
      ∃ e, k.low n g = .error e ∧ e.position ≤ n + g.width := by
    rcases k.low_cases n g with ⟨c, h⟩ | ⟨e, h, heq⟩
    · exact .inl ⟨_, false, h, rfl⟩
    · exact .inr ⟨e, h, heq ▸ Nat.le_add_right _ _⟩
  have item (k' : OpenClass) (same : k'.start = k.start) :
      (∃ k'' ends, k'.item n g = .ok (k'', ends) ∧ k''.start = k.start) ∨
        ∃ e, k'.item n g = .error e ∧ e.position ≤ n + g.width := by
    rcases k'.item_cases n g with ⟨k'', ends, h, start⟩ | ⟨e, h, heq⟩
    · exact .inl ⟨k'', ends, h, start.trans same⟩
    · exact .inr ⟨e, h, heq ▸ Nat.le_add_right _ _⟩
  unfold step
  split
  · split
    · exact .inl ⟨_, false, rfl, rfl⟩
    · exact low
  · exact low
  · exact item k rfl
  · split
    · exact .inl ⟨_, false, rfl, rfl⟩
    · exact item _ rfl
  · cases h : g.char n with
    | error e => exact .inr ⟨e, rfl, Glyph.position_of_char h ▸ Nat.le_add_right _ _⟩
    | ok hi =>
      simp only [bind, Except.bind]
      split
      · exact .inr ⟨_, rfl, Nat.le_refl _⟩
      · exact .inl ⟨_, false, rfl, rfl⟩

end OpenClass

/-- The place that a lexeme names is at `limit` or before. -/
def Lexeme.Within (limit : Nat) : Lexeme → Prop
  | .leaf _ | .bar => True
  | .openGroup n | .closeGroup n | .repeated _ n => n ≤ limit
  | .fault e => e.position ≤ limit

theorem within_lexeme (fold : Bool) {n : Nat} (g : Glyph) (hn : n ≤ limit) :
    (lexeme fold n g).Within limit := by
  unfold lexeme
  split <;> try exact hn
  · trivial
  · trivial
  · trivial
  · trivial
  · split
    · trivial
    · next h => exact Nat.le_trans (Nat.le_of_eq (Glyph.position_of_char h)) hn

theorem within_lexemes (fold : Bool) (k : Option OpenClass) (hk : ∀ c, k = some c → c.start ≤ limit)
    {gs : List (Nat × Glyph)} (hgs : ∀ g ∈ gs, EndsWithin limit g) :
    ∀ l ∈ lexemes fold k gs, l.Within limit := by
  induction gs generalizing k with
  | nil =>
    cases k with
    | none => simp [lexemes]
    | some k => simpa [lexemes, Lexeme.Within] using hk k rfl
  | cons head rest ih =>
    obtain ⟨n, g⟩ := head
    rw [List.forall_mem_cons] at hgs
    have ends : n + g.width ≤ limit := hgs.1
    have begins : n ≤ limit := by omega
    cases k with
    | none =>
      rw [lexemes]
      split
      · exact ih _ (fun c hc => Option.some.inj hc ▸ begins) hgs.2
      · exact List.forall_mem_cons.mpr ⟨within_lexeme fold g begins, ih none (by simp) hgs.2⟩
    | some k =>
      rw [lexemes]
      rcases k.step_cases n g (rest.head?.map (·.2)) with ⟨k', _ | _, h, start⟩ | ⟨e, h, behind⟩
      · rw [h]
        exact ih _ (fun c hc => Option.some.inj hc ▸ start ▸ hk k rfl) hgs.2
      · rw [h]
        exact List.forall_mem_cons.mpr ⟨trivial, ih none (by simp) hgs.2⟩
      · rw [h]
        exact List.forall_mem_singleton.mpr (Nat.le_trans behind ends)

theorem within_assemble {outer : List OpenGroup} {g : OpenGroup} {ls : List Lexeme}
    {fault : PatternError} (ho : ∀ o ∈ outer, o.start ≤ limit) (hg : g.start ≤ limit)
    (hls : ∀ l ∈ ls, l.Within limit) (h : assemble outer g ls = .error fault) :
    fault.position ≤ limit := by
  fun_induction assemble outer g ls with
  | case1 => cases h
  | case2 =>
    cases h
    exact hg
  | case3 outer g e rest ih =>
    rw [List.forall_mem_cons] at hls
    exact ih ho hg hls.2 h
  | case4 outer g n rest ih =>
    rw [List.forall_mem_cons] at hls
    exact ih (List.forall_mem_cons.mpr ⟨hg, ho⟩) hls.1 hls.2 h
  | case5 =>
    cases h
    exact (List.forall_mem_cons.mp hls).1
  | case6 g' outer g n rest ih =>
    rw [List.forall_mem_cons] at hls ho
    exact ih ho.2 ho.1 hls.2 h
  | case7 outer g rest ih =>
    rw [List.forall_mem_cons] at hls
    exact ih ho hg hls.2 h
  | case8 =>
    cases h
    exact (List.forall_mem_cons.mp hls).1
  | case9 outer g how n rest e es items ih =>
    rw [List.forall_mem_cons] at hls
    exact ih ho hg hls.2 h
  | case10 =>
    cases h
    exact (List.forall_mem_cons.mp hls).1

/-- A fault of a source is not beyond its end. -/
theorem position_le {source : List Char} {fold : Bool} {fault : PatternError}
    (h : read source fold = .error fault) : fault.position ≤ source.length := by
  unfold read at h
  split at h
  · cases h
    exact Nat.zero_le _
  · have ends := endsWithin_glyphs 0 source
    rw [Nat.zero_add] at ends
    exact within_assemble (by simp) (Nat.zero_le _) (within_lexemes fold none (by simp) ends) h

end ScrapeConfig.Pattern
