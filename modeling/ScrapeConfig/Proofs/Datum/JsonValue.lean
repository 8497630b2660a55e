import Mathlib.Data.String.Basic
import ScrapeConfig.Config.Data

/-!
# JSON values

A JSON value keeps less than data does: the fields of an object stand in ascending order of their names,
each name once, and a number that is not finite is `null`. An object that is written with some of its
fields left out is read field by field from its JSON value.

Results:
1. `Datum.toJson`: the JSON value of a datum.
2. `Datum.fields?_toJson`: the fields of an object are found in its JSON value by their names.
3. `Datum.present`: the fields of an object, of which some may be left out.
   `Datum.fields?_present_toJson` reads them.
-/

namespace ScrapeConfig.Datum

/-! ## Values -/

/-- Sets a field of an object with ordered fields. -/
def setField : (fields : List (String × Datum)) → (name : String) → Datum → List (String × Datum)
  | [], name, d => [(name, d)]
  | (n, e) :: rest, name, d =>
    if name = n then (name, d) :: rest
    else if name < n then (name, d) :: (n, e) :: rest
    else (n, e) :: setField rest name d

mutual

/-- What JSON keeps of a datum. -/
def toJson : Datum → Datum
  | .float x => if x.isFinite then .float x else .null
  | .arr items => .arr (itemsToJson items)
  | .obj fields => .obj (fieldsToJson [] fields)
  | .unreadable => .null
  | d => d

def itemsToJson : List Datum → List Datum
  | [] => []
  | d :: ds => d.toJson :: itemsToJson ds

/-- The fields `done`, with some more set. -/
def fieldsToJson (done : List (String × Datum)) : List (String × Datum) → List (String × Datum)
  | [] => done
  | (name, d) :: rest => fieldsToJson (setField done name d.toJson) rest

end

theorem itemsToJson_eq (ds : List Datum) : itemsToJson ds = ds.map toJson := by
  induction ds with
  | nil => rfl
  | cons d ds ih => rw [itemsToJson, ih, List.map_cons]

/-! ## Ordered fields -/

variable {fields done : List (String × Datum)} {name : String} {d : Datum}

/-- The names stand in ascending order, each of them once. -/
def Ordered (fields : List (String × Datum)) : Prop := fields.Pairwise (·.1 < ·.1)

theorem find?_cons_name (f : String × Datum) (fields : List (String × Datum)) (n : String) :
    (f :: fields).find? (·.1 == n) = if f.1 = n then some f else fields.find? (·.1 == n) := by
  by_cases here : f.1 = n
  · rw [List.find?_cons_of_pos (by simpa using here), if_pos here]
  · rw [List.find?_cons_of_neg (by simpa using here), if_neg here]

theorem find?_name_eq_none {n : String} (h : n ∉ fields.map (·.1)) :
    fields.find? (·.1 == n) = none :=
  List.find?_eq_none.mpr fun _ hg same => h (List.mem_map.mpr ⟨_, hg, beq_iff_eq.mp same⟩)

theorem find?_setField (fields : List (String × Datum)) (name : String) (d : Datum) (n : String) :
    (setField fields name d).find? (·.1 == n) =
      if name = n then some (name, d) else fields.find? (·.1 == n) := by
  induction fields with
  | nil => rw [setField, find?_cons_name]
  | cons f fields ih =>
    rw [setField]
    split
    · next same =>
      rw [find?_cons_name, find?_cons_name]
      split
      · rfl
      · next differ => rw [if_neg (same ▸ differ)]
    · next differ =>
      split
      · rw [find?_cons_name]
      · rw [find?_cons_name, find?_cons_name, ih]
        by_cases here : f.1 = n
        · rw [if_pos here, if_neg (fun same => differ (same.trans here.symm)), if_pos here]
        · rw [if_neg here, if_neg here]

theorem mem_setField {f : String × Datum} (h : f ∈ setField fields name d) :
    f = (name, d) ∨ f ∈ fields := by
  induction fields with
  | nil => exact .inl (List.mem_singleton.mp h)
  | cons g fields ih =>
    rw [setField] at h
    split at h
    · exact (List.mem_cons.mp h).imp_right (List.mem_cons_of_mem _)
    · split at h
      · exact List.mem_cons.mp h
      · rcases List.mem_cons.mp h with rfl | h
        · exact .inr List.mem_cons_self
        · exact (ih h).imp_right (List.mem_cons_of_mem _)

theorem Ordered.setField (h : Ordered fields) (name : String) (d : Datum) :
    Ordered (setField fields name d) := by
  induction fields with
  | nil => exact List.pairwise_singleton ..
  | cons f fields ih =>
    obtain ⟨first, behind⟩ := List.pairwise_cons.mp h
    rw [Datum.setField]
    split
    · next same => exact List.pairwise_cons.mpr ⟨same ▸ first, behind⟩
    · next differ =>
      split
      · next lower =>
        exact List.pairwise_cons.mpr
          ⟨List.forall_mem_cons.mpr ⟨lower, fun g hg => lower.trans (first g hg)⟩, h⟩
      · next notLower =>
        refine List.pairwise_cons.mpr ⟨fun g hg => ?_, ih behind⟩
        rcases mem_setField hg with rfl | hg
        · exact lt_of_le_of_ne (not_lt.mp notLower) (Ne.symm differ)
        · exact first g hg

/-- A name stands in front of at most one of ordered fields. -/
theorem Ordered.length_filter_le (h : Ordered fields) (name : String) :
    (fields.filter (·.1 == name)).length ≤ 1 := by
  have ordered := h.filter (·.1 == name)
  cases kept : fields.filter (·.1 == name) with
  | nil => exact Nat.zero_le 1
  | cons f rest =>
    cases rest with
    | nil => exact Nat.le_refl 1
    | cons g rest =>
      rw [kept] at ordered
      have hf : f ∈ fields.filter (·.1 == name) := kept ▸ List.mem_cons_self
      have hg : g ∈ fields.filter (·.1 == name) := kept ▸ List.mem_cons_of_mem _ List.mem_cons_self
      have same : f.1 = g.1 := (beq_iff_eq.mp (List.mem_filter.mp hf).2).trans
        (beq_iff_eq.mp (List.mem_filter.mp hg).2).symm
      exact absurd same (List.rel_of_pairwise_cons ordered List.mem_cons_self).ne

theorem Ordered.fieldsToJson (h : Ordered done) (fields : List (String × Datum)) :
    Ordered (fieldsToJson done fields) := by
  induction fields generalizing done with
  | nil => exact h
  | cons f fields ih => exact ih (h.setField f.1 f.2.toJson)

/-- A field whose name occurs once is found by its name. -/
theorem find?_fieldsToJson (distinct : (fields.map (·.1)).Nodup) (done : List (String × Datum))
    (n : String) : (fieldsToJson done fields).find? (·.1 == n) =
      ((fields.find? (·.1 == n)).map (Prod.map id toJson)).or (done.find? (·.1 == n)) := by
  induction fields generalizing done with
  | nil => rfl
  | cons f fields ih =>
    obtain ⟨first, distinct⟩ := List.nodup_cons.mp distinct
    rw [fieldsToJson, ih distinct, find?_setField, find?_cons_name]
    split
    · next here => rw [find?_name_eq_none (here ▸ first)]; rfl
    · rfl

theorem fields?_toJson (distinct : (fields.map (·.1)).Nodup) (f : DataFormat) (names : List String) :
    (obj fields).toJson.fields? f names =
      some (names.map fun n => ((fields.find? (·.1 == n)).map (·.2)).map toJson) := by
  have ordered : Ordered (fieldsToJson [] fields) := Ordered.fieldsToJson .nil fields
  have once : (names.all fun n => ((fieldsToJson [] fields).filter (·.1 == n)).length ≤ 1) = true :=
    List.all_eq_true.mpr fun n _ => decide_eq_true (ordered.length_filter_le n)
  rw [toJson, fields?, if_pos once]
  congr 2
  funext n
  rw [find?_fieldsToJson distinct, List.find?_nil, Option.or_none, Option.map_map, Option.map_map]
  rfl

/-! ## Fields that may be left out -/

/-- The fields of these names that have a value. -/
def present : (names : List String) → List (Option Datum) → List (String × Datum)
  | name :: names, some d :: values => (name, d) :: present names values
  | _ :: names, none :: values => present names values
  | _, _ => []

theorem names_present_sublist (names : List String) (values : List (Option Datum)) :
    ((present names values).map (·.1)).Sublist names := by
  induction names generalizing values with
  | nil => cases values <;> exact .slnil
  | cons name names ih =>
    cases values with
    | nil => exact List.nil_sublist _
    | cons value values =>
      cases value with
      | none => exact (ih values).cons name
      | some d => exact (ih values).cons_cons name

theorem map_find?_present {names : List String} {values : List (Option Datum)}
    (distinct : names.Nodup) (length : values.length = names.length) :
    (names.map fun n => ((present names values).find? (·.1 == n)).map (·.2)) = values := by
  induction names generalizing values with
  | nil => exact (List.eq_nil_of_length_eq_zero length).symm
  | cons name names ih =>
    obtain ⟨value, values, rfl⟩ := List.exists_cons_of_length_eq_add_one length
    obtain ⟨first, distinct⟩ := List.nodup_cons.mp distinct
    have rest := ih distinct (Nat.succ_inj.mp length)
    rw [List.map_cons]
    cases value with
    | none =>
      have missing := find?_name_eq_none fun h => first ((names_present_sublist names values).subset h)
      rw [present, missing, rest, Option.map_none]
    | some d =>
      have others : ∀ n ∈ names, ((present (name :: names) (some d :: values)).find? (·.1 == n)).map
          (·.2) = ((present names values).find? (·.1 == n)).map (·.2) := by
        intro n hn
        have differ : name ≠ n := fun same => first (same ▸ hn)
        rw [present, find?_cons_name, if_neg differ]
      rw [List.map_congr_left others, rest, present, find?_cons_name, if_pos rfl]
      rfl

/-- An object is read from its JSON value field by field. -/
theorem fields?_present_toJson {names : List String} {values : List (Option Datum)}
    (distinct : names.Nodup) (length : values.length = names.length) (f : DataFormat) :
    (obj (present names values)).toJson.fields? f names = some (values.map (·.map toJson)) := by
  rw [fields?_toJson ((names_present_sublist names values).nodup distinct)]
  conv => rhs; rw [← map_find?_present distinct length, List.map_map]
  rfl

end ScrapeConfig.Datum
