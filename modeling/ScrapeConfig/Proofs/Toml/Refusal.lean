import ScrapeConfig.Proofs.Toml.Readings

/-!
# Why a TOML value is no option

Arrays and dates and times are no options, and what has one of them inside is none either. A value is
walked through in the order of its keys, and the first of them that is met is the reason given.

Results:
1. `Value.inside`: the values that are met on the walk. `Value.has_iff`: they are what occurs inside.
2. `Value.toOption_eq_error_iff`: the error is the kind of the first of them that is no option.
   `Value.firstRefusal?_eq_none_iff`: there is none if no array and no date or time occurs inside.
3. `Table.StopsAt`: the lowest key of a table whose value is no option, and the reason.
   `Table.exists_stopsAt`: there is one if an array or a date or time occurs inside.
-/

namespace ScrapeConfig.Toml

mutual

/-- The values that a walk meets, each one in front of those inside it. -/
def Value.inside : Value → List Value
  | .array items => .array items :: items.inside
  | .table t => .table t :: t.inside
  | v => [v]

def Items.inside : Items → List Value
  | .nil => []
  | .cons v vs => v.inside ++ vs.inside

def Table.inside : Table → List Value
  | .empty => []
  | .entry _ v rest => v.inside ++ rest.inside

end

mutual

theorem Value.has_iff {P : Value → Prop} {v : Value} : v.Has P ↔ ∃ x ∈ v.inside, P x := by
  match v with
  | .string _ | .integer _ | .float _ | .boolean _ | .datetime _ =>
    simp only [Value.Has, Value.inside, List.mem_singleton, exists_eq_left]
  | .array items =>
    simp only [Value.Has, Value.inside, List.mem_cons, exists_eq_or_imp, Items.has_iff]
  | .table t =>
    simp only [Value.Has, Value.inside, List.mem_cons, exists_eq_or_imp, Table.has_iff]

theorem Items.has_iff {P : Value → Prop} {vs : Items} : vs.Has P ↔ ∃ x ∈ vs.inside, P x := by
  match vs with
  | .nil => exact iff_of_false id nofun
  | .cons v vs =>
    simp only [Items.Has, Items.inside, List.mem_append, or_and_right, exists_or, Value.has_iff,
      Items.has_iff]

theorem Table.has_iff {P : Value → Prop} {t : Table} : t.Has P ↔ ∃ x ∈ t.inside, P x := by
  match t with
  | .empty => exact iff_of_false id nofun
  | .entry _ v rest =>
    simp only [Table.Has, Table.inside, List.mem_append, or_and_right, exists_or, Value.has_iff,
      Table.has_iff]

end

open Value (IsArray IsDatetime)

namespace Value

/-- The kind of a value that is no option, whatever is inside it. -/
def refusal? : Value → Option String
  | .array _ => some "array"
  | .datetime _ => some "datetime"
  | _ => none

/-- The kind of the first value inside that is no option. -/
def firstRefusal? (v : Value) : Option String := v.inside.findSome? refusal?

theorem refusal?_eq_none_iff {v : Value} : v.refusal? = none ↔ ¬ v.IsArray ∧ ¬ v.IsDatetime := by
  cases v with
  | array | datetime => exact iff_of_false (Option.some_ne_none _) (by simp [IsArray, IsDatetime])
  | _ => exact iff_of_true rfl ⟨id, id⟩

theorem firstRefusal?_eq_none_iff {v : Value} :
    v.firstRefusal? = none ↔ ¬ v.Has IsArray ∧ ¬ v.Has IsDatetime := by
  rw [firstRefusal?, List.findSome?_eq_none_iff, has_iff, has_iff]
  simp only [refusal?_eq_none_iff, not_exists, not_and, forall_and]

end Value

theorem Table.toOptions_entry {k : String} {v : Value} {rest : Table} :
    (Table.entry k v rest).toOptions = match v.toOption, rest.toOptions with
      | .error kind, _ => .error kind
      | .ok _, .error kind => .error kind
      | .ok w, .ok m => .ok (m.insert k w) := by
  rw [Table.toOptions]
  cases v.toOption with
  | error kind => rfl
  | ok w => cases rest.toOptions <;> rfl

mutual

/-- A conversion fails at the first value inside that is no option. By induction on the value. -/
theorem Value.toOption_eq_error_iff {v : Value} {kind : String} :
    v.toOption = .error kind ↔ v.inside.findSome? Value.refusal? = some kind := by
  match v with
  | .string _ | .integer _ | .float _ | .boolean _ => exact iff_of_false nofun nofun
  | .datetime _ | .array _ =>
    exact ⟨fun h => congrArg some (Except.error.inj h), fun h => congrArg _ (Option.some.inj h)⟩
  | .table t =>
    have inside : (Value.table t).inside.findSome? Value.refusal? =
        t.inside.findSome? Value.refusal? := rfl
    rw [inside, ← Table.toOptions_eq_error_iff, Value.toOption]
    cases t.toOptions with
    | error kind' => rw [Except.map, Except.error.injEq, Except.error.injEq]
    | ok m => exact iff_of_false nofun nofun

theorem Table.toOptions_eq_error_iff {t : Table} {kind : String} :
    t.toOptions = .error kind ↔ t.inside.findSome? Value.refusal? = some kind := by
  match t with
  | .empty => exact iff_of_false nofun nofun
  | .entry k v rest =>
    rw [Table.inside, List.findSome?_append, Option.or_eq_some_iff, ← Value.toOption_eq_error_iff,
      ← Table.toOptions_eq_error_iff, Option.eq_none_iff_forall_ne_some, Table.toOptions_entry]
    simp only [ne_eq, ← Value.toOption_eq_error_iff]
    cases v.toOption with
    | error kind' => simp
    | ok w =>
      cases rest.toOptions with
      | error kind' => simp
      | ok m => simp

end

/-! ## Entries of tables -/

namespace Table

/-- An array, or a date or time, occurs in a value of the table, at any depth. -/
def Refused (t : Table) : Prop := t.Has IsArray ∨ t.Has IsDatetime

theorem Refused.of_get? {t : Table} {k : String} {v : Value} (hv : t.get? k = some v)
    (refused : v.Has IsArray ∨ v.Has IsDatetime) : t.Refused := by
  match t with
  | .empty => cases hv
  | .entry k' v' rest =>
    rw [Table.get?] at hv
    split at hv
    · cases hv
      exact refused.imp .inl .inl
    · exact (Refused.of_get? hv refused).imp .inr .inr

/-- The lowest key with a value that is refused, and the kind of the first value inside that is no
option. Keys are compared by their code points, which is the order of their bytes in UTF-8 as well. -/
structure StopsAt (t : Table) (key kind : String) : Prop where
  refused : ∃ v, t.get? key = some v ∧ v.firstRefusal? = some kind
  lowest : ∀ k v, t.get? k = some v → v.Has IsArray ∨ v.Has IsDatetime → key ≤ k

theorem exists_stopsAt {t : Table} (wellFormed : t.WellFormed) (h : t.Refused) :
    ∃ key kind, t.StopsAt key kind := by
  match t, wellFormed with
  | .empty, _ => exact absurd h (not_or.mpr ⟨id, id⟩)
  | .entry k v rest, ⟨first, _, behind⟩ =>
    cases reason : v.firstRefusal? with
    | some kind =>
      refine ⟨k, kind, ⟨v, if_pos rfl, reason⟩, fun k' v' hv' _ => ?_⟩
      rw [get?] at hv'
      split at hv'
      · next same => exact same.ge
      · exact (first k' (mem_keys.mpr (hv' ▸ rfl))).le
    | none =>
      -- The first value is fine, so it is about one behind it.
      have fine := Value.firstRefusal?_eq_none_iff.mp reason
      have refused : rest.Refused := h.imp (Or.resolve_left · fine.1) (Or.resolve_left · fine.2)
      obtain ⟨key, kind, ⟨w, hw, hkind⟩, lowest⟩ := exists_stopsAt behind refused
      have later : k < key := first key (mem_keys.mpr (hw ▸ rfl))
      refine ⟨key, kind, ⟨w, (if_neg later.ne').trans hw, hkind⟩, fun k' v' hv' refused' => ?_⟩
      rw [get?] at hv'
      split at hv'
      · cases hv'
        exact absurd refused' (not_or.mpr fine)
      · exact lowest k' v' hv' refused'

variable {t : Table} {key kind : String}

theorem getObject_of_not_refused {k : String} {v : Value} (hv : t.get? k = some v)
    (fine : v.firstRefusal? = none) : ∃ w, OptionStore.getObject t k = .ok w := by
  rw [getObject_eq, hv]
  dsimp only
  cases converted : v.toOption with
  | error kind =>
    rw [Value.firstRefusal?, Value.toOption_eq_error_iff.mp converted] at fine
    cases fine
  | ok w => exact ⟨w, rfl⟩

theorem StopsAt.key_mem (h : t.StopsAt key kind) : key ∈ t.keys := by
  obtain ⟨v, hv, _⟩ := h.refused
  exact Table.mem_keys.mpr (Option.isSome_of_eq_some hv)

theorem StopsAt.getObject_eq (h : t.StopsAt key kind) :
    OptionStore.getObject t key = .error (.invalidType key "scalar or table" kind) := by
  obtain ⟨v, hv, reason⟩ := h.refused
  rw [Table.getObject_eq, hv]
  dsimp only
  rw [Value.toOption_eq_error_iff.mpr reason]

theorem StopsAt.exists_getObject (h : t.StopsAt key kind) {k : String} (below : k < key)
    (hk : k ∈ t.keys) : ∃ w, OptionStore.getObject t k = .ok w := by
  obtain ⟨v, hv⟩ := Option.isSome_iff_exists.mp (mem_keys.mp hk)
  refine getObject_of_not_refused hv (Value.firstRefusal?_eq_none_iff.mpr (not_or.mp fun refused => ?_))
  exact absurd (h.lowest k v hv refused) (not_le.mpr below)

theorem exists_getObject_of_not_refused (fine : ¬ t.Refused) {k : String} (hk : k ∈ t.keys) :
    ∃ w, OptionStore.getObject t k = .ok w := by
  obtain ⟨v, hv⟩ := Option.isSome_iff_exists.mp (mem_keys.mp hk)
  exact getObject_of_not_refused hv
    (Value.firstRefusal?_eq_none_iff.mpr (not_or.mp (mt (Refused.of_get? hv) fine)))

end Table

end ScrapeConfig.Toml
