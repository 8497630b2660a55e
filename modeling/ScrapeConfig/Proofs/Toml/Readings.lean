import ScrapeConfig.Proofs.Options.Calls
import ScrapeConfig.Proofs.Options.Data

/-!
# Two ways to read options from a table

A table can be read as a store, value by value, or it can be presented as data, which is read as a map
of options. No array is an option, so both refuse tables with arrays. A date or time is no option either,
and the store refuses it; but as data it is an object with a single field, which looks like a table.

Results:
1. `Table.WellFormed`: the order of keys that a table has if it is built by insertion, as all tables are
   that TOML text stands for, `Table.wellFormed_of_ofToml?`.
2. `Value.Has`: what occurs inside a value, at any depth. `Value.represents_iff`: a value stands for an
   option value if neither an array nor a date or time occurs in it.
3. `Table.clone_eq_ok_iff`: as a store, a table is read as the map that it stands for.
4. `Table.presented`: the table with every date or time as it is presented as data.
   `Table.ofDatum?_toDatum`: as data, a table is read as this one is as a store.
5. `Table.readings_agree_iff`: when both ways agree.
-/

namespace ScrapeConfig.Toml

/-! ## Tables as they are built -/

mutual

/-- Every table inside is ordered, but for those in arrays. -/
def Value.WellFormed : Value → Prop
  | .table t => t.WellFormed
  | .string _ | .integer _ | .float _ | .boolean _ | .datetime _ | .array _ => True

/-- The keys stand in ascending order, each of them once, and so they do in the tables inside. -/
def Table.WellFormed : Table → Prop
  | .empty => True
  | .entry k v rest => (∀ k' ∈ rest.keys, k < k') ∧ v.WellFormed ∧ rest.WellFormed

end

theorem Table.mem_keys {t : Table} {k : String} : k ∈ t.keys ↔ (t.get? k).isSome := by
  match t with
  | .empty => exact iff_of_false List.not_mem_nil nofun
  | .entry k' v rest =>
    have behind := @Table.mem_keys rest k
    rw [Table.keys] at behind ⊢
    rw [Table.toList, List.map_cons, List.mem_cons, behind, Table.get?]
    by_cases here : k = k'
    · rw [if_pos here]
      exact iff_of_true (.inl here) rfl
    · rw [if_neg here, or_iff_right here]

theorem Table.mem_keys_insert {t : Table} {k k' : String} {v : Value}
    (h : k' ∈ (t.insert k v).keys) : k' = k ∨ k' ∈ t.keys := by
  match t with
  | .empty => exact List.mem_cons.mp h
  | .entry k₀ v₀ rest =>
    rw [Table.insert] at h
    split at h
    · next same =>
      exact .inr (same ▸ h)
    · split at h
      · exact List.mem_cons.mp h
      · rcases List.mem_cons.mp h with rfl | h
        · exact .inr List.mem_cons_self
        · exact (Table.mem_keys_insert h).imp_right (List.mem_cons_of_mem _)

theorem Table.WellFormed.insert {t : Table} (h : t.WellFormed) (k : String) {v : Value}
    (hv : v.WellFormed) : (t.insert k v).WellFormed := by
  match t, h with
  | .empty, _ => exact ⟨nofun, hv, trivial⟩
  | .entry k₀ v₀ rest, ⟨first, value, behind⟩ =>
    rw [Table.insert]
    split
    · next same => exact ⟨same ▸ first, hv, behind⟩
    · next differ =>
      split
      · next lower =>
        refine ⟨List.forall_mem_cons.mpr ⟨lower, fun k' hk' => ?_⟩, hv, first, value, behind⟩
        exact lower.trans (first k' hk')
      · next notLower =>
        refine ⟨fun k' hk' => ?_, value, Table.WellFormed.insert behind k hv⟩
        rcases Table.mem_keys_insert hk' with rfl | hk'
        · exact lt_of_le_of_ne (not_lt.mp notLower) (Ne.symm differ)
        · exact first k' hk'

mutual

theorem Value.wellFormed_of_ofDatum? {d : Datum} {v : Value} (h : Value.ofDatum? d = some v) :
    v.WellFormed := by
  match d with
  | .null | .unreadable => cases h
  | .bool _ | .float _ | .str _ => cases h; trivial
  | .int i =>
    rw [Value.ofDatum?] at h
    split at h <;> cases h
    trivial
  | .arr items =>
    obtain ⟨_, _, rfl⟩ := Option.map_eq_some_iff.mp h
    trivial
  | .obj fields =>
    rw [Value.ofDatum?] at h
    split at h
    · match fields, h with
      | (_, .str text) :: _, h =>
        obtain ⟨_, _, rfl⟩ := Option.map_eq_some_iff.mp h
        trivial
    · obtain ⟨t, ht, rfl⟩ := Option.map_eq_some_iff.mp h
      exact Table.wellFormed_of_ofFields? ht

/-- Entries are inserted one by one, so a table that is read is in order. -/
theorem Table.wellFormed_of_ofFields? {fields : List (String × Datum)} {t : Table}
    (h : Table.ofFields? fields = some t) : t.WellFormed := by
  match fields with
  | [] => cases h; trivial
  | (k, d) :: fields =>
    obtain ⟨v, hv, h⟩ := Option.bind_eq_some_iff.mp h
    obtain ⟨rest, hrest, h⟩ := Option.bind_eq_some_iff.mp h
    cases h
    exact (Table.wellFormed_of_ofFields? hrest).insert k (Value.wellFormed_of_ofDatum? hv)

end

/-- So are the tables that TOML text stands for. -/
theorem Table.wellFormed_of_ofToml? {text : String} {t : Table}
    (h : Table.ofToml? text = some t) : t.WellFormed := by
  obtain ⟨d, _, h⟩ := Option.bind_eq_some_iff.mp h
  match d, h with
  | .obj _, h => exact Table.wellFormed_of_ofFields? h

/-! ## What occurs inside -/

def Value.IsArray : Value → Prop
  | .array _ => True
  | _ => False

def Value.IsDatetime : Value → Prop
  | .datetime _ => True
  | _ => False

mutual

/-- Such a value occurs inside, at any depth. -/
def Value.Has (P : Value → Prop) : Value → Prop
  | .array items => P (.array items) ∨ items.Has P
  | .table t => P (.table t) ∨ t.Has P
  | v => P v

def Items.Has (P : Value → Prop) : Items → Prop
  | .nil => False
  | .cons v vs => v.Has P ∨ vs.Has P

def Table.Has (P : Value → Prop) : Table → Prop
  | .empty => False
  | .entry _ v rest => v.Has P ∨ rest.Has P

end

open Value (IsArray IsDatetime)

theorem Value.table_has_array_iff {t : Table} : (Value.table t).Has IsArray ↔ t.Has IsArray :=
  or_iff_right id

theorem Value.table_has_datetime_iff {t : Table} :
    (Value.table t).Has IsDatetime ↔ t.Has IsDatetime :=
  or_iff_right id

mutual

theorem Value.represents_iff (v : Value) :
    (∃ w, v.Represents w) ↔ ¬ v.Has IsArray ∧ ¬ v.Has IsDatetime := by
  match v with
  | .string s => exact iff_of_true ⟨_, .string s⟩ ⟨id, id⟩
  | .integer i => exact iff_of_true ⟨_, .integer i⟩ ⟨id, id⟩
  | .float x => exact iff_of_true ⟨_, .float x⟩ ⟨id, id⟩
  | .boolean b => exact iff_of_true ⟨_, .boolean b⟩ ⟨id, id⟩
  | .datetime _ => exact iff_of_false nofun fun h => h.2 trivial
  | .array _ => exact iff_of_false nofun fun h => h.1 (.inl trivial)
  | .table t =>
    have inside := Table.represents_iff t
    rw [Value.table_has_array_iff, Value.table_has_datetime_iff, ← inside]
    constructor
    · rintro ⟨_, h⟩
      cases h with
      | table entries => exact ⟨_, entries⟩
    · exact fun ⟨_, entries⟩ => ⟨_, .table entries⟩

theorem Table.represents_iff (t : Table) :
    (∃ m, t.Represents m) ↔ ¬ t.Has IsArray ∧ ¬ t.Has IsDatetime := by
  match t with
  | .empty => exact iff_of_true ⟨_, .empty⟩ ⟨id, id⟩
  | .entry k v rest =>
    have value := Value.represents_iff v
    have behind := Table.represents_iff rest
    rw [Table.Has, Table.Has, not_or, not_or, and_and_and_comm, ← value, ← behind]
    constructor
    · rintro ⟨_, h⟩
      cases h with
      | entry value rest => exact ⟨⟨_, value⟩, ⟨_, rest⟩⟩
    · exact fun ⟨⟨_, value⟩, ⟨_, rest⟩⟩ => ⟨_, .entry value rest⟩

end

mutual

theorem Value.Represents.wellFormed {v : Value} {w : OptionValue} (h : v.Represents w)
    (wellFormed : v.WellFormed) : w.WellFormed := by
  match v, w, h with
  | _, _, .string _ | _, _, .integer _ | _, _, .float _ | _, _, .boolean _ => trivial
  | .table _, .map _, .table entries => exact entries.wellFormed wellFormed

theorem Table.Represents.wellFormed {t : Table} {m : Options} (h : t.Represents m)
    (wellFormed : t.WellFormed) : m.WellFormed := by
  match t, m, h, wellFormed with
  | _, _, .empty, _ => trivial
  | .entry _ _ _, .entry _ _ _, .entry value rest, ⟨first, hvalue, behind⟩ =>
    exact ⟨rest.keys_eq ▸ first, value.wellFormed hvalue, rest.wellFormed behind⟩

end

/-! ## Reading a table as a store -/

mutual

theorem Value.exists_represents_of_toOption {v : Value} {w : OptionValue} (h : v.toOption = .ok w) :
    ∃ w, v.Represents w := by
  match v with
  | .string s => exact ⟨_, .string s⟩
  | .integer i => exact ⟨_, .integer i⟩
  | .float x => exact ⟨_, .float x⟩
  | .boolean b => exact ⟨_, .boolean b⟩
  | .array _ | .datetime _ => cases h
  | .table t =>
    cases read : t.toOptions with
    | error found => rw [Value.toOption, read] at h; cases h
    | ok m =>
      obtain ⟨_, entries⟩ := Table.exists_represents_of_toOptions read
      exact ⟨_, .table entries⟩

theorem Table.exists_represents_of_toOptions {t : Table} {m : Options} (h : t.toOptions = .ok m) :
    ∃ m, t.Represents m := by
  match t with
  | .empty => exact ⟨_, .empty⟩
  | .entry k v rest =>
    rw [Table.toOptions] at h
    cases value : v.toOption with
    | error found => rw [value] at h; cases h
    | ok w =>
      cases behind : rest.toOptions with
      | error found => rw [value, behind] at h; cases h
      | ok m =>
        obtain ⟨_, hv⟩ := Value.exists_represents_of_toOption value
        obtain ⟨_, hrest⟩ := Table.exists_represents_of_toOptions behind
        exact ⟨_, .entry hv hrest⟩

end

namespace Table

theorem WellFormed.exists_represents {t : Table} (wellFormed : t.WellFormed)
    (values : ∀ k v, t.get? k = some v → ∃ w, v.Represents w) : ∃ m, t.Represents m := by
  match t, wellFormed with
  | .empty, _ => exact ⟨_, .empty⟩
  | .entry k v rest, ⟨first, _, behind⟩ =>
    obtain ⟨_, value⟩ := values k v (if_pos rfl)
    have others : ∀ k' v', rest.get? k' = some v' → ∃ w, v'.Represents w := by
      intro k' v' hv'
      have later : k < k' := first k' (mem_keys.mpr (hv' ▸ rfl))
      exact values k' v' ((if_neg later.ne').trans hv')
    obtain ⟨_, entries⟩ := exists_represents behind others
    exact ⟨_, .entry value entries⟩

end Table

end ScrapeConfig.Toml

namespace ScrapeConfig.OptionStore

variable {σ δ : Type} [OptionStore σ] [OptionStore δ]

/-- A copy succeeds if all values can be read. -/
theorem copyKeys_fst_eq_none_iff {src : σ} {ks : List String} {dst : δ} :
    (copyKeys src ks dst).1 = none ↔ ∀ k ∈ ks, ∃ v, getObject src k = .ok v := by
  induction ks generalizing dst with
  | nil => exact iff_of_true rfl (List.forall_mem_nil _)
  | cons k ks ih =>
    rw [copyKeys, List.forall_mem_cons]
    cases getObject src k with
    | error e => simp
    | ok v => exact ih.trans (and_iff_right ⟨v, rfl⟩).symm

theorem copyKeys_of_clone {src : σ} {m : Options} (cloned : clone src = .ok m) :
    copyKeys src (keys src) Options.empty = (none, m) := by
  rw [clone, mergeInto] at cloned
  split at cloned
  · next m' copied => cases cloned; exact copied
  · cases cloned

end ScrapeConfig.OptionStore

namespace ScrapeConfig.Toml

open Value (IsArray IsDatetime)

namespace Table

variable {t : Table} {m : Options}

theorem Represents.clone (h : t.Represents m) (wellFormed : m.WellFormed) :
    OptionStore.clone t = .ok m := by
  rw [alike_options.clone ⟨h, wellFormed⟩, OptionStore.clone_eq_ok,
    Options.clone_of_ordered wellFormed.ordered]

theorem clone_eq_ok_iff (wellFormed : t.WellFormed) :
    OptionStore.clone t = .ok m ↔ t.Represents m := by
  refine ⟨fun cloned => ?_, fun h => h.clone (h.wellFormed wellFormed)⟩
  have copied := congrArg Prod.fst (OptionStore.copyKeys_of_clone cloned)
  have read := OptionStore.copyKeys_fst_eq_none_iff.mp copied
  have values : ∀ k v, t.get? k = some v → ∃ w, v.Represents w := by
    intro k v hv
    obtain ⟨w, hw⟩ := read k (mem_keys.mpr (hv ▸ rfl))
    rw [getObject_eq, hv] at hw
    cases option : v.toOption with
    | error found => simp only [option] at hw; cases hw
    | ok w => exact Value.exists_represents_of_toOption option
  obtain ⟨m', h⟩ := wellFormed.exists_represents values
  obtain rfl : m' = m := Except.ok.inj ((h.clone (h.wellFormed wellFormed)).symm.trans cloned)
  exact h

/-- A store refuses arrays, and dates and times as well. -/
theorem clone_eq_none_iff (wellFormed : t.WellFormed) :
    (OptionStore.clone t).toOption = none ↔ t.Has IsArray ∨ t.Has IsDatetime := by
  rw [← not_iff_not, not_or, ← represents_iff]
  simp only [← clone_eq_ok_iff wellFormed]
  cases OptionStore.clone t with
  | error e => exact iff_of_false (fun h => h rfl) nofun
  | ok m => exact iff_of_true nofun ⟨m, rfl⟩

end Table

/-! ## Reading a table as data -/

mutual

theorem Value.Represents.toDatum_eq {v : Value} {w : OptionValue} (h : v.Represents w) :
    v.toDatum = w.toDatum := by
  match v, w, h with
  | _, _, .string _ | _, _, .integer _ | _, _, .float _ | _, _, .boolean _ => rfl
  | .table _, .map _, .table entries => exact congrArg Datum.obj entries.toFields_eq

theorem Table.Represents.toFields_eq {t : Table} {m : Options} (h : t.Represents m) :
    t.toFields = m.toFields := by
  match t, m, h with
  | _, _, .empty => rfl
  | .entry k _ _, .entry _ _ _, .entry value rest =>
    rw [Table.toFields, Options.toFields, value.toDatum_eq, rest.toFields_eq]

end

mutual

theorem Value.ofDatum?_of_array {v : Value} (h : v.Has IsArray) :
    OptionValue.ofDatum? v.toDatum = none := by
  match v with
  | .string _ | .integer _ | .float _ | .boolean _ | .datetime _ => exact h.elim
  | .array _ => rfl
  | .table t =>
    rw [Value.toDatum, OptionValue.ofDatum?, Table.ofFields?_of_array (Value.table_has_array_iff.mp h)]
    rfl

theorem Table.ofFields?_of_array {t : Table} (h : t.Has IsArray) (acc : Options) :
    Options.ofFields? t.toFields acc = none := by
  match t with
  | .empty => exact h.elim
  | .entry k v rest =>
    rw [Table.toFields, Options.ofFields?]
    rcases h with value | behind
    · rw [Value.ofDatum?_of_array value]
    · cases OptionValue.ofDatum? v.toDatum with
      | none => rfl
      | some w => exact Table.ofFields?_of_array behind _

end

mutual

/-- Every date or time is replaced by the table that it looks like as data. -/
def Value.presented : Value → Value
  | .datetime text => .table (.entry datetimeField (.string text) .empty)
  | .array items => .array items.presented
  | .table t => .table t.presented
  | v => v

def Items.presented : Items → Items
  | .nil => .nil
  | .cons v vs => .cons v.presented vs.presented

def Table.presented : Table → Table
  | .empty => .empty
  | .entry k v rest => .entry k v.presented rest.presented

end

mutual

theorem Value.toDatum_presented (v : Value) : v.presented.toDatum = v.toDatum := by
  match v with
  | .string _ | .integer _ | .float _ | .boolean _ | .datetime _ => rfl
  | .array items => exact congrArg Datum.arr (Items.toData_presented items)
  | .table t => exact congrArg Datum.obj (Table.toFields_presented t)

theorem Items.toData_presented (vs : Items) : vs.presented.toData = vs.toData := by
  match vs with
  | .nil => rfl
  | .cons v vs =>
    rw [Items.presented, Items.toData, Items.toData, Value.toDatum_presented v,
      Items.toData_presented vs]

theorem Table.toFields_presented (t : Table) : t.presented.toFields = t.toFields := by
  match t with
  | .empty => rfl
  | .entry k v rest =>
    rw [Table.presented, Table.toFields, Table.toFields, Value.toDatum_presented v,
      Table.toFields_presented rest]

end

mutual

theorem Value.not_presented_has_datetime (v : Value) : ¬ v.presented.Has IsDatetime := by
  match v with
  | .string _ | .integer _ | .float _ | .boolean _ => exact id
  | .datetime _ => exact not_or.mpr ⟨id, not_or.mpr ⟨id, id⟩⟩
  | .array items => exact not_or.mpr ⟨id, Items.not_presented_has_datetime items⟩
  | .table t => exact not_or.mpr ⟨id, Table.not_presented_has_datetime t⟩

theorem Items.not_presented_has_datetime (vs : Items) : ¬ vs.presented.Has IsDatetime := by
  match vs with
  | .nil => exact id
  | .cons v vs =>
    exact not_or.mpr ⟨Value.not_presented_has_datetime v, Items.not_presented_has_datetime vs⟩

theorem Table.not_presented_has_datetime (t : Table) : ¬ t.presented.Has IsDatetime := by
  match t with
  | .empty => exact id
  | .entry _ v rest =>
    exact not_or.mpr ⟨Value.not_presented_has_datetime v, Table.not_presented_has_datetime rest⟩

end

mutual

/-- No array comes up, and none is lost. -/
theorem Value.presented_has_array_iff (v : Value) : v.presented.Has IsArray ↔ v.Has IsArray := by
  match v with
  | .string _ | .integer _ | .float _ | .boolean _ => rfl
  | .datetime _ => exact iff_of_false (not_or.mpr ⟨id, not_or.mpr ⟨id, id⟩⟩) id
  | .array _ => exact iff_of_true (.inl trivial) (.inl trivial)
  | .table t => exact or_congr_right (Table.presented_has_array_iff t)

theorem Table.presented_has_array_iff (t : Table) : t.presented.Has IsArray ↔ t.Has IsArray := by
  match t with
  | .empty => rfl
  | .entry _ v rest =>
    exact or_congr (Value.presented_has_array_iff v) (Table.presented_has_array_iff rest)

end

theorem Table.keys_presented (t : Table) : t.presented.keys = t.keys := by
  match t with
  | .empty => rfl
  | .entry k _ rest => exact congrArg (k :: ·) (Table.keys_presented rest)

mutual

theorem Value.WellFormed.presented {v : Value} (h : v.WellFormed) : v.presented.WellFormed := by
  match v with
  | .string _ | .integer _ | .float _ | .boolean _ | .array _ => trivial
  | .datetime _ => exact ⟨nofun, trivial, trivial⟩
  | .table t => exact Table.WellFormed.presented h

theorem Table.WellFormed.presented {t : Table} (h : t.WellFormed) : t.presented.WellFormed := by
  match t, h with
  | .empty, _ => trivial
  | .entry k v rest, ⟨first, value, behind⟩ =>
    exact ⟨rest.keys_presented.symm ▸ first, Value.WellFormed.presented value,
      Table.WellFormed.presented behind⟩

end

namespace Table

variable {t : Table}

theorem toDatum_presented (t : Table) : t.presented.toDatum = t.toDatum :=
  congrArg Datum.obj t.toFields_presented

/-- What stands for a map is read as the map, as data too. -/
theorem Represents.ofDatum? {m : Options} (h : t.Represents m) (wellFormed : m.WellFormed) :
    Options.ofDatum? t.toDatum = some m := by
  rw [Table.toDatum, h.toFields_eq]
  exact Options.ofDatum?_toDatum wellFormed

/-- As data, a table is read as if its dates and times were tables. -/
theorem ofDatum?_toDatum (wellFormed : t.WellFormed) :
    Options.ofDatum? t.toDatum = (OptionStore.clone t.presented).toOption := by
  have datetime := t.not_presented_has_datetime
  by_cases array : t.Has IsArray
  · have refused : (OptionStore.clone t.presented).toOption = none :=
      (clone_eq_none_iff wellFormed.presented).mpr (.inl (t.presented_has_array_iff.mpr array))
    rw [refused]
    exact ofFields?_of_array array .empty
  · have none := t.presented_has_array_iff.not.mpr array
    obtain ⟨m, h⟩ := t.presented.represents_iff.mpr ⟨none, datetime⟩
    have ordered := h.wellFormed wellFormed.presented
    rw [h.clone ordered, ← toDatum_presented, h.ofDatum? ordered]
    rfl

theorem ofDatum?_eq_none_iff (wellFormed : t.WellFormed) :
    Options.ofDatum? t.toDatum = none ↔ t.Has IsArray := by
  rw [ofDatum?_toDatum wellFormed, clone_eq_none_iff wellFormed.presented,
    or_iff_left t.not_presented_has_datetime, presented_has_array_iff]

/-! ## Agreement -/

/-- Both ways agree on a table if no date or time is in it, or an array besides, which both refuse. As a
store, a table is refused for arrays and for dates and times, as data for arrays alone; otherwise its
dates and times are read as maps with a single string. -/
theorem readings_agree_iff (wellFormed : t.WellFormed) :
    (Options.ofDatum? t.toDatum = (OptionStore.clone t).toOption ↔
      (t.Has IsDatetime → t.Has IsArray)) ∧
    ((OptionStore.clone t).toOption = none ↔ t.Has IsArray ∨ t.Has IsDatetime) ∧
    (Options.ofDatum? t.toDatum = none ↔ t.Has IsArray) ∧
    Options.ofDatum? t.toDatum = (OptionStore.clone t.presented).toOption := by
  have store := clone_eq_none_iff wellFormed
  have data := ofDatum?_eq_none_iff wellFormed
  refine ⟨⟨fun agree datetime => ?_, fun besides => ?_⟩, store, data, ofDatum?_toDatum wellFormed⟩
  · exact data.mp (agree.trans (store.mpr (.inr datetime)))
  · by_cases array : t.Has IsArray
    · rw [data.mpr array, store.mpr (.inl array)]
    · obtain ⟨m, h⟩ := t.represents_iff.mpr ⟨array, fun datetime => array (besides datetime)⟩
      have ordered := h.wellFormed wellFormed
      rw [h.clone ordered, h.ofDatum? ordered]
      rfl

def datedTable : Table :=
  .entry "job" (.table (.entry "since" (.datetime "1979-05-27") .empty)) .empty

theorem readings_agree_iff_dated :
    datedTable.WellFormed ∧
      Options.ofDatum? datedTable.toDatum ≠ (OptionStore.clone datedTable).toOption ∧
      (OptionStore.clone datedTable).toOption = none ∧
      Options.ofDatum? datedTable.toDatum =
        some (.entry "job" (.map (.entry "since" (.map
          (.entry "$__toml_private_datetime" (.string "1979-05-27") .empty)) .empty)) .empty) := by
  have wellFormed : datedTable.WellFormed := ⟨nofun, ⟨nofun, trivial, trivial⟩, trivial⟩
  have datetime : datedTable.Has IsDatetime := .inl (.inr (.inl trivial))
  have array : ¬ datedTable.Has IsArray := by simp [datedTable, Table.Has, Value.Has, IsArray]
  obtain ⟨agree, store, _, data⟩ := readings_agree_iff wellFormed
  refine ⟨wellFormed, fun same => ?_, store.mpr (.inr datetime), data.trans rfl⟩
  exact array (agree.mp same datetime)

end Table

end ScrapeConfig.Toml
