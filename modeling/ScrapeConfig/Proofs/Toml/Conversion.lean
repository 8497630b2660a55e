import ScrapeConfig.Proofs.Toml.Readings

/-!
# Converting between option values and TOML values

Both conversions are told by what stands for what. A value stands for one option value at most, and no
other value stands for the same one, so that nothing is lost on the way there and back.

Results:
1. `Value.Represents.unique`, `Table.Represents.unique`: only one value stands for an option value.
2. `Value.toOption_eq_ok_iff`: what a value is converted to is what it stands for.
3. `Value.conversions_exact`
-/

namespace ScrapeConfig.Toml

mutual

theorem Value.Represents.unique {v v' : Value} {w : OptionValue} (h : v.Represents w)
    (h' : v'.Represents w) : v = v' := by
  match v, v', w, h, h' with
  | _, _, _, .string _, .string _ | _, _, _, .integer _, .integer _ => rfl
  | _, _, _, .float _, .float _ | _, _, _, .boolean _, .boolean _ => rfl
  | .table t, .table t', .map m, .table entries, .table entries' =>
    exact congrArg Value.table (entries.unique entries')

theorem Table.Represents.unique {t t' : Table} {m : Options} (h : t.Represents m)
    (h' : t'.Represents m) : t = t' := by
  match t, t', m, h, h' with
  | _, _, _, .empty, .empty => rfl
  | .entry k _ _, .entry _ _ _, .entry _ _ _, .entry value rest, .entry value' rest' =>
    rw [value.unique value', rest.unique rest']

end

open Value (IsArray IsDatetime)

namespace Value

variable {v : Value} {w : OptionValue}

theorem toOption_eq_ok_iff (wellFormed : v.WellFormed) : v.toOption = .ok w ↔ v.Represents w := by
  refine ⟨fun converted => ?_, fun h => h.toOption (h.wellFormed wellFormed)⟩
  obtain ⟨w', h⟩ := exists_represents_of_toOption converted
  have same := (h.toOption (h.wellFormed wellFormed)).symm.trans converted
  exact Except.ok.inj same ▸ h

/-- An option value is converted to a TOML value and back to itself. A TOML value is converted to an
option value if and only if neither an array nor a date or time is in it, at any depth; and what it is
converted to is converted back to it. -/
theorem conversions_exact :
    (∀ w : OptionValue, w.WellFormed → (ofOption w).toOption = .ok w) ∧
      ∀ v : Value, v.WellFormed →
        ((∃ w, v.toOption = .ok w) ↔ ¬ v.Has IsArray ∧ ¬ v.Has IsDatetime) ∧
        ∀ w, v.toOption = .ok w → ofOption w = v := by
  refine ⟨fun w wellFormed => ?_, fun v wellFormed => ⟨?_, fun w converted => ?_⟩⟩
  · exact (ofOption_represents wellFormed).toOption wellFormed
  · rw [← v.represents_iff]
    exact exists_congr fun w => toOption_eq_ok_iff wellFormed
  · have h := (toOption_eq_ok_iff wellFormed).mp converted
    exact (ofOption_represents (h.wellFormed wellFormed)).unique h

def hollowOptions : OptionValue :=
  .map (.entry "a" (.map (.entry "b" (.map .empty) .empty)) (.entry "c" (.map .empty) .empty))

def hollowTable : Value :=
  .table (.entry "a" (.table (.entry "b" (.table .empty) .empty)) (.entry "c" (.table .empty) .empty))

/-- Maps that hold nothing but empty maps are kept. -/
theorem conversions_exact_hollow :
    hollowOptions.WellFormed ∧ hollowTable.WellFormed ∧
      (ofOption hollowOptions).toOption = .ok hollowOptions ∧
      hollowTable.toOption = .ok hollowOptions ∧ ofOption hollowOptions = hollowTable := by
  have options : hollowOptions.WellFormed := by decide
  have table : hollowTable.WellFormed :=
    ⟨by decide, ⟨by decide, trivial, trivial⟩, by decide, trivial, trivial⟩
  have converted : hollowTable.toOption = .ok hollowOptions := rfl
  obtain ⟨there, back⟩ := conversions_exact
  exact ⟨options, table, there _ options, converted, (back _ table).2 _ converted⟩

end Value

end ScrapeConfig.Toml
