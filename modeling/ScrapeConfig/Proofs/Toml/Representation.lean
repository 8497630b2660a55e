import Mathlib.Data.Option.Basic
import ScrapeConfig.Proofs.Options.WellFormed
import ScrapeConfig.Toml.Value

/-!
# Tables that stand for maps of options

A table stands for a map of options if both have the same keys and the values stand for one another,
at every depth. Nothing stands for an option value that has an array or a date and time inside.

Results:
1. `Value.Represents`, `Table.Represents`
2. the conversions: what stands for a well-formed option value is read as it,
   `Value.Represents.toOption`; what is written for it stands for it, `Value.ofOption_represents`;
   what is read is well formed, `Value.wellFormed_of_toOption`
3. `Table.Represents.keys_eq`, `Table.Represents.getObject_eq`, `Table.Represents.insert`: what stands
   for a map answers like it, and goes on to stand for it when both are changed alike.
-/

namespace ScrapeConfig.Toml

mutual

inductive Value.Represents : Value → OptionValue → Prop
  | string (s : String) : (Value.string s).Represents (.string s)
  | integer (i : Int64) : (Value.integer i).Represents (.integer i)
  | float (x : Binary64) : (Value.float x).Represents (.float x)
  | boolean (b : Bool) : (Value.boolean b).Represents (.boolean b)
  | table {t : Table} {m : Options} (entries : t.Represents m) :
    (Value.table t).Represents (.map m)

/-- The same keys in the same order, each with a value that stands for the option. -/
inductive Table.Represents : Table → Options → Prop
  | empty : Table.empty.Represents .empty
  | entry {k : String} {v : Value} {w : OptionValue} {t : Table} {m : Options}
    (value : v.Represents w) (rest : t.Represents m) :
    (Table.entry k v t).Represents (.entry k w m)

end

/-! ## Entries -/

namespace Table

namespace Represents

theorem keys_eq {t : Table} {m : Options} (h : t.Represents m) : t.keys = m.keys := by
  match t, m, h with
  | .empty, .empty, .empty => rfl
  | .entry k _ _, .entry _ _ _, .entry _ rest => exact congrArg (k :: ·) rest.keys_eq
termination_by structural t

theorem get? {t : Table} {m : Options} (h : t.Represents m) (k : String) :
    Option.Rel Value.Represents (t.get? k) (m.get? k) := by
  match t, m, h with
  | .empty, .empty, .empty => exact .none
  | .entry k' _ _, .entry _ _ _, .entry value rest =>
    rw [Table.get?, Options.get?]
    by_cases here : k = k'
    · rw [if_pos here, if_pos here]
      exact .some value
    · rw [if_neg here, if_neg here]
      exact rest.get? k
termination_by structural t

theorem contains_eq {t : Table} {m : Options} (h : t.Represents m) (k : String) :
    t.contains k = m.contains k := by
  have values := h.get? k
  rw [contains, Options.contains]
  generalize t.get? k = v, m.get? k = w at values
  cases values <;> rfl

theorem insert {t : Table} {m : Options} (h : t.Represents m) (k : String) {v : Value}
    {w : OptionValue} (hv : v.Represents w) : (t.insert k v).Represents (m.insert k w) := by
  match t, m, h with
  | .empty, .empty, .empty => exact .entry hv .empty
  | .entry k' _ _, .entry _ _ _, .entry value rest =>
    rw [Table.insert, Options.insert]
    by_cases here : k = k'
    · rw [if_pos here, if_pos here]
      exact .entry hv rest
    · rw [if_neg here, if_neg here]
      by_cases lower : k < k'
      · rw [if_pos lower, if_pos lower]
        exact .entry hv (.entry value rest)
      · rw [if_neg lower, if_neg lower]
        exact .entry value (rest.insert k hv)
termination_by structural t

end Represents

/-- What comes before all keys of a table is inserted in front. -/
theorem insert_of_lt {t : Table} {k : String} (h : ∀ k' ∈ t.keys, k < k') (v : Value) :
    t.insert k v = .entry k v t := by
  cases t with
  | empty => rfl
  | entry k' v' rest =>
    have lower := h k' List.mem_cons_self
    rw [insert, if_neg lower.ne, if_pos lower]

end Table

/-! ## Conversions -/

mutual

theorem Value.Represents.toOption {v : Value} {w : OptionValue} (h : v.Represents w)
    (wellFormed : w.WellFormed) : v.toOption = .ok w := by
  match v, w, h with
  | .string _, _, .string _ => rfl
  | .integer _, _, .integer _ => rfl
  | .float _, _, .float _ => rfl
  | .boolean _, _, .boolean _ => rfl
  | .table t, .map m, .table entries =>
    rw [Value.toOption, entries.toOptions wellFormed]
    rfl

theorem Table.Represents.toOptions {t : Table} {m : Options} (h : t.Represents m)
    (wellFormed : m.WellFormed) : t.toOptions = .ok m := by
  match t, m, h, wellFormed with
  | .empty, .empty, .empty, _ => rfl
  | .entry k v t, .entry _ w m, .entry value rest, ⟨first, wellFormed, behind⟩ =>
    rw [Table.toOptions, value.toOption wellFormed, rest.toOptions behind,
      ← Options.insert_of_lt first]
    rfl

end

mutual

theorem Value.ofOption_represents {w : OptionValue} (wellFormed : w.WellFormed) :
    (Value.ofOption w).Represents w := by
  match w with
  | .string s => exact .string s
  | .integer i => exact .integer i
  | .float x => exact .float x
  | .boolean b => exact .boolean b
  | .map m => exact .table (Table.ofOptions_represents wellFormed)

theorem Table.ofOptions_represents {m : Options} (wellFormed : m.WellFormed) :
    (Table.ofOptions m).Represents m := by
  match m, wellFormed with
  | .empty, _ => exact .empty
  | .entry k w m, ⟨first, wellFormed, behind⟩ =>
    have rest := Table.ofOptions_represents behind
    rw [Table.ofOptions, Table.insert_of_lt (rest.keys_eq ▸ first)]
    exact .entry (Value.ofOption_represents wellFormed) rest

end

mutual

theorem Value.wellFormed_of_toOption {v : Value} {w : OptionValue} (h : v.toOption = .ok w) :
    w.WellFormed := by
  match v, w, h with
  | .string _, _, rfl => trivial
  | .integer _, _, rfl => trivial
  | .float _, _, rfl => trivial
  | .boolean _, _, rfl => trivial
  | .table t, w, h =>
    rw [Value.toOption] at h
    cases read : t.toOptions with
    | error found => rw [read] at h; cases h
    | ok m =>
      rw [read] at h
      cases h
      exact Table.wellFormed_of_toOptions read

theorem Table.wellFormed_of_toOptions {t : Table} {m : Options} (h : t.toOptions = .ok m) :
    m.WellFormed := by
  match t, m, h with
  | .empty, _, rfl => trivial
  | .entry k v t, _, h =>
    rw [Table.toOptions] at h
    cases value : v.toOption with
    | error found => rw [value] at h; cases h
    | ok w =>
      cases rest : t.toOptions with
      | error found => rw [value, rest] at h; cases h
      | ok m =>
        rw [value, rest] at h
        cases h
        exact (Table.wellFormed_of_toOptions rest).insert k (Value.wellFormed_of_toOption value)

end

/-! ## Reading from tables -/

namespace Table

theorem getObject_eq (t : Table) (key : String) :
    OptionStore.getObject t key = match t.get? key with
      | none => .error (.notFound key)
      | some v => match v.toOption with
        | .ok value => .ok value
        | .error found => .error (.invalidType key "scalar or table" found) :=
  rfl

/-- Whatever a table holds, what can be read from it is well formed. -/
theorem wellFormed_of_getObject {t : Table} {key : String} {w : OptionValue}
    (read : OptionStore.getObject t key = .ok w) : w.WellFormed := by
  rw [getObject_eq] at read
  cases value : t.get? key with
  | none => rw [value] at read; cases read
  | some v =>
    cases option : v.toOption with
    | error found => simp only [value, option] at read; cases read
    | ok w' =>
      simp only [value, option] at read
      cases read
      exact Value.wellFormed_of_toOption option

/-- What stands for a map is read like the map. -/
theorem Represents.getObject_eq {t : Table} {m : Options} (h : t.Represents m)
    (wellFormed : m.WellFormed) (key : String) :
    OptionStore.getObject t key = OptionStore.getObject m key := by
  have values := h.get? key
  rw [Table.getObject_eq, OptionStore.getObject_eq]
  generalize option : m.get? key = w at values
  generalize t.get? key = v at values
  cases values with
  | none => rfl
  | some value => simp only [value.toOption (wellFormed.get? option)]

end Table

end ScrapeConfig.Toml
