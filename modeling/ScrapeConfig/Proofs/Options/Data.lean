import ScrapeConfig.Config.Data
import ScrapeConfig.Proofs.Options.WellFormed

/-!
# Option values as data

Results:
1. `OptionValue.ofDatum?_toDatum`, `Options.ofDatum?_toDatum`: what is written as data is read back.
   Every kind of option value has data of its own, so that no other kind is taken for it.
-/

namespace ScrapeConfig

theorem OptionValue.ofDatum?_int (i : Int64) :
    OptionValue.ofDatum? (.int i.toInt) = some (.integer i) := by
  rw [OptionValue.ofDatum?, if_pos ⟨Int64.minValue_le_toInt i, Int64.toInt_le i⟩, Int64.ofInt_toInt]

mutual

theorem OptionValue.ofDatum?_toDatum {v : OptionValue} (wellFormed : v.WellFormed) :
    OptionValue.ofDatum? v.toDatum = some v := by
  match v with
  | .boolean _ | .float _ | .string _ => rfl
  | .integer i => exact OptionValue.ofDatum?_int i
  | .map m =>
    have empty : Options.Ordered .empty := trivial
    obtain ⟨read, hread, ordered, values⟩ := Options.ofFields?_toFields wellFormed empty
    have same : read = m := ordered.ext wellFormed.ordered fun k => by
      rw [values, Options.get?, Option.or_none]
    rw [OptionValue.toDatum, OptionValue.ofDatum?, hread, same]
    rfl

/-- The entries of a map are laid over the options that were read before. -/
theorem Options.ofFields?_toFields {m acc : Options} (wellFormed : m.WellFormed)
    (ordered : acc.Ordered) : ∃ read, Options.ofFields? m.toFields acc = some read ∧ read.Ordered ∧
      ∀ k, read.get? k = (m.get? k).or (acc.get? k) := by
  match m, wellFormed with
  | .empty, _ => exact ⟨acc, rfl, ordered, fun _ => rfl⟩
  | .entry key v rest, ⟨first, value, behind⟩ =>
    obtain ⟨read, hread, ordered', values⟩ :=
      Options.ofFields?_toFields behind (ordered.insert key v)
    refine ⟨read, ?_, ordered', fun k => ?_⟩
    · rw [Options.toFields, Options.ofFields?, OptionValue.ofDatum?_toDatum value]
      exact hread
    · rw [values, Options.get?_insert, Options.get?]
      split
      · next here =>
        have none : rest.get? key = none :=
          Options.Ordered.get?_eq_none (v := v) ⟨first, behind.ordered⟩ le_rfl
        rw [here, none, Option.none_or, Option.some_or]
      · rfl

end

theorem Options.ofDatum?_toDatum {m : Options} (wellFormed : m.WellFormed) :
    Options.ofDatum? m.toDatum = some m := by
  have map := OptionValue.ofDatum?_toDatum (v := .map m) wellFormed
  rw [OptionValue.toDatum, OptionValue.ofDatum?, Option.map_eq_some_iff] at map
  obtain ⟨read, hread, heq⟩ := map
  cases heq
  exact hread

end ScrapeConfig
