import ScrapeConfig.Proofs.Layout.Blocks

/-!
# Blocks that nest

Going over boundaries, only the innermost open block can be closed. The boundaries in front of a line
and those at the end of a document keep to this.

Results:
1. `countP_of_steps`: steps that open a block, close the innermost one or do neither leave as many
   blocks more open as there are more openings than closings.
2. `Boundary.nest`: the open blocks behind a boundary, if it closes none but the innermost one.
3. `Boundary.nest_crossing`, `Boundary.nest_closing`: the boundaries of a tracker nest.
-/

namespace ScrapeConfig

variable {blocks blocks' : List Nat}

/-- By induction on the steps; each adds the same to both sides. -/
theorem countP_of_steps {α : Type} {step : List Nat → α → Option (List Nat)} {opens closes : α → Bool}
    (steps : ∀ a blocks blocks', step blocks a = some blocks' →
      (opens a ∧ ¬ closes a ∧ ∃ n, blocks' = n :: blocks) ∨
        (¬ opens a ∧ closes a ∧ ∃ n, blocks = n :: blocks') ∨
          (¬ opens a ∧ ¬ closes a ∧ blocks' = blocks))
    {as : List α} (h : as.foldlM step blocks = some blocks') :
    as.countP closes + blocks'.length = as.countP opens + blocks.length := by
  induction as generalizing blocks with
  | nil => exact congrArg (0 + List.length ·) (Option.some.inj h).symm
  | cons a as ih =>
    rw [List.foldlM_cons] at h
    obtain ⟨inner, ha, has⟩ := Option.bind_eq_some_iff.mp h
    have rest := ih has
    rw [List.countP_cons, List.countP_cons]
    rcases steps a _ _ ha with ⟨opening, closing, n, rfl⟩ | ⟨opening, closing, n, rfl⟩ |
      ⟨opening, closing, rfl⟩
    · rw [if_neg closing, if_pos opening]
      rw [List.length_cons] at rest
      omega
    · rw [if_pos closing, if_neg opening, List.length_cons]
      omega
    · rw [if_neg closing, if_neg opening]
      omega

namespace Boundary

/-- The open blocks behind a boundary, with the innermost first. None if it closes a block that is
not the innermost one. -/
def nest (blocks : List Nat) : Boundary → Option (List Nat)
  | .blockOpen level => some (level :: blocks)
  | .blockClose level => if blocks.head? = some level then some blocks.tail else none
  | .sameLevel _ | .badIndent _ => some blocks

theorem nest_blockClose_eq_some_iff {level : Nat} :
    nest blocks (.blockClose level) = some blocks' ↔ blocks = level :: blocks' := by
  cases blocks with
  | nil => exact iff_of_false nofun nofun
  | cons inner outer =>
    rw [nest, List.head?_cons, List.tail_cons, Option.ite_none_right_eq_some, Option.some_inj,
      Option.some_inj, List.cons.injEq]

/-- The number of open blocks can be read off the names. -/
theorem count_of_nest {bs : List Boundary} (h : bs.foldlM nest blocks = some blocks') :
    bs.countP (·.name = "BLOCK_CLOSE") + blocks'.length =
      bs.countP (·.name = "BLOCK_OPEN") + blocks.length := by
  refine countP_of_steps (fun b blocks blocks' hb => ?_) h
  cases b with
  | blockOpen level => exact .inl ⟨rfl, nofun, level, (Option.some.inj hb).symm⟩
  | blockClose level => exact .inr (.inl ⟨nofun, rfl, level, nest_blockClose_eq_some_iff.mp hb⟩)
  | sameLevel level => exact .inr (.inr ⟨nofun, nofun, (Option.some.inj hb).symm⟩)
  | badIndent level => exact .inr (.inr ⟨nofun, nofun, (Option.some.inj hb).symm⟩)

/-- Blocks that a line leaves are closed from the innermost one on. -/
theorem nest_leaving (n : Nat) (blocks : List Nat) :
    (leaving n blocks).foldlM nest blocks = some ((leaving n blocks).foldl track blocks) := by
  induction blocks with
  | nil =>
    rw [leaving]
    split <;> rfl
  | cons level blocks ih =>
    rw [leaving]
    split
    · rw [List.foldlM_cons, nest_blockClose_eq_some_iff.mpr rfl]
      exact ih
    · split <;> rfl

theorem nest_crossing (n : Nat) (blocks : List Nat) :
    (crossing n blocks).foldlM nest blocks = some ((crossing n blocks).foldl track blocks) := by
  rw [crossing]
  split
  · rfl
  · exact nest_leaving n blocks

/-- At the end all blocks are closed. -/
theorem nest_closing (blocks : List Nat) : (blocks.map blockClose).foldlM nest blocks = some [] := by
  induction blocks with
  | nil => rfl
  | cons level blocks ih =>
    rw [List.map_cons, List.foldlM_cons, nest_blockClose_eq_some_iff.mpr rfl]
    exact ih

end Boundary

end ScrapeConfig
