import ScrapeConfig.Proofs.Options.Overlay

/-!
# Well-formed option values

`Options.Ordered` is about the keys of a single map. A value is well formed if the maps inside it are
ordered at every depth, which is so for all values that are built by insertion.

Results:
1. `OptionValue.WellFormed`, `Options.WellFormed`
2. `Options.wellFormed_iff`: a map is well formed if it is ordered and all its values are well formed.
   So it stays with insertion, `Options.WellFormed.insert`.
-/

namespace ScrapeConfig

mutual

/-- Every map inside the value is ordered. -/
def OptionValue.WellFormed : OptionValue → Prop
  | .boolean _ | .integer _ | .float _ | .string _ => True
  | .map m => m.WellFormed

/-- The map is ordered, and so are all maps inside its values. -/
def Options.WellFormed : Options → Prop
  | .empty => True
  | .entry k v rest => (∀ k' ∈ rest.keys, k < k') ∧ v.WellFormed ∧ rest.WellFormed

end

mutual

def OptionValue.decideWellFormed : (v : OptionValue) → Decidable v.WellFormed
  | .boolean _ | .integer _ | .float _ | .string _ => .isTrue trivial
  | .map m => m.decideWellFormed

def Options.decideWellFormed : (m : Options) → Decidable m.WellFormed
  | .empty => .isTrue trivial
  | .entry _ v rest =>
    have := v.decideWellFormed
    have := rest.decideWellFormed
    inferInstanceAs (Decidable (_ ∧ _ ∧ _))

end

instance : DecidablePred OptionValue.WellFormed := OptionValue.decideWellFormed

instance : DecidablePred Options.WellFormed := Options.decideWellFormed

namespace Options

theorem wellFormed_iff {m : Options} :
    m.WellFormed ↔ m.Ordered ∧ ∀ k v, m.get? k = some v → v.WellFormed := by
  match m with
  | .empty => exact iff_of_true trivial ⟨trivial, nofun⟩
  | .entry k w rest =>
    have behind := @wellFormed_iff rest
    constructor
    · rintro ⟨first, value, wellFormed⟩
      obtain ⟨ordered, values⟩ := behind.mp wellFormed
      refine ⟨⟨first, ordered⟩, fun k' v hv => ?_⟩
      rw [get?] at hv
      split at hv
      · exact Option.some.inj hv ▸ value
      · exact values k' v hv
    · rintro ⟨ordered, values⟩
      refine ⟨ordered.1, values k w (if_pos rfl), behind.mpr ⟨ordered.2, fun k' v hv => ?_⟩⟩
      have differ : k' ≠ k := by
        rintro rfl
        rw [ordered.get?_eq_none le_rfl] at hv
        cases hv
      exact values k' v ((if_neg differ).trans hv)

variable {m : Options} {k : String} {v : OptionValue}

theorem WellFormed.ordered (h : m.WellFormed) : m.Ordered := (wellFormed_iff.mp h).1

theorem WellFormed.get? (h : m.WellFormed) (hv : m.get? k = some v) : v.WellFormed :=
  (wellFormed_iff.mp h).2 k v hv

theorem WellFormed.insert (h : m.WellFormed) (k : String) (hv : v.WellFormed) :
    (m.insert k v).WellFormed := by
  refine wellFormed_iff.mpr ⟨h.ordered.insert k v, fun k' v' hv' => ?_⟩
  rw [get?_insert] at hv'
  split at hv'
  · exact Option.some.inj hv' ▸ hv
  · exact h.get? hv'

/-- What comes before all keys of a map is inserted in front. -/
theorem insert_of_lt (h : ∀ k' ∈ m.keys, k < k') : m.insert k v = .entry k v m := by
  cases m with
  | empty => rfl
  | entry k' v' rest =>
    have lower := h k' List.mem_cons_self
    rw [insert, if_neg lower.ne, if_pos lower]

end Options

end ScrapeConfig
