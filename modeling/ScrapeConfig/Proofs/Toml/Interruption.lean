import ScrapeConfig.Proofs.Options.Merging
import ScrapeConfig.Proofs.Toml.Refusal

/-!
# Merging from tables that can not be read

A merge copies the values of a table in the order of its keys, up to the first one that is no option. What
has been copied until then stays where it is: the destination is merged with the entries below that key.

Results:
1. `OptionStore.copyKeys_stops`: a copy up to a key that can not be read.
2. `AnyStore.held?_copyKeys`, `AnyStore.getObject_copyKeys`: what a copy does to the destination.
3. `Toml.Table.before`: the entries below a key. `Toml.Table.WellFormed.keys_eq_append`: they are in front.
4. `OptionStore.mergeInto_refused`
-/

namespace ScrapeConfig

open Toml (Table Value)

namespace OptionStore

variable {σ δ : Type} [OptionStore σ] [OptionStore δ] {src : σ} {ks : List String}

/-! ## Copies -/

/-- The keys are copied one after another, and an error in the first ones is where it ends. -/
theorem copyKeys_append (ks' : List String) (dst : δ) :
    copyKeys src (ks ++ ks') dst = match copyKeys src ks dst with
      | (none, dst) => copyKeys src ks' dst
      | stopped => stopped := by
  induction ks generalizing dst with
  | nil => rfl
  | cons key ks ih =>
    rw [List.cons_append, copyKeys, copyKeys]
    cases getObject src key with
    | error e => rfl
    | ok v => exact ih _

theorem copyKeys_stops (readable : ∀ k ∈ ks, ∃ v, getObject src k = .ok v) {key : String}
    {e : StoreError} (failed : getObject src key = .error e) (later : List String) (dst : δ) :
    copyKeys src (ks ++ key :: later) dst = (some e, (copyKeys src ks dst).2) := by
  have copied : copyKeys src ks dst = (none, (copyKeys src ks dst).2) :=
    Prod.ext (copyKeys_fst_eq_none_iff.mpr readable) rfl
  rw [copyKeys_append, copied]
  dsimp only
  rw [copyKeys, failed]

theorem copyKeys_congr {src' : σ} (same : ∀ k ∈ ks, getObject src k = getObject src' k) (dst : δ) :
    copyKeys src ks dst = copyKeys src' ks dst := by
  induction ks generalizing dst with
  | nil => rfl
  | cons key ks ih =>
    obtain ⟨here, others⟩ := List.forall_mem_cons.mp same
    rw [copyKeys, copyKeys, here]
    cases getObject src' key with
    | error e => rfl
    | ok v => exact ih others _

end OptionStore

/-! ## Entries of the destination -/

theorem Toml.Table.get?_insert (t : Table) (key : String) (v : Value) (k : String) :
    (t.insert key v).get? k = if k = key then some v else t.get? k := by
  cases t with
  | empty => rfl
  | entry k' v' rest =>
    have behind := Table.get?_insert rest key v k
    rw [Table.insert]
    split
    · next same =>
      subst same
      simp only [Table.get?]
      split <;> rfl
    · next differ =>
      split
      · rfl
      · rw [Table.get?, Table.get?, behind]
        by_cases here : k = k'
        · rw [if_pos here, if_pos here, if_neg (here ▸ Ne.symm differ)]
        · rw [if_neg here, if_neg here]

namespace AnyStore

open OptionStore

variable {σ : Type} [OptionStore σ] {src : σ} {ks : List String} {dst : AnyStore} {k key : String}
  {v : OptionValue}

/-- What a store has under a key, as it keeps it. -/
def held? : AnyStore → String → Option (OptionValue ⊕ Value)
  | .options m, key => (m.get? key).map .inl
  | .table t, key => (t.get? key).map .inr

/-- What is read depends on the entry only. -/
theorem getObject_eq (s : AnyStore) (k : String) :
    getObject s k = match s.held? k with
      | none => .error (.notFound k)
      | some (.inl v) => .ok v
      | some (.inr v) => match v.toOption with
        | .ok value => .ok value
        | .error found => .error (.invalidType k "scalar or table" found) := by
  cases s with
  | options m =>
    show getObject m k = _
    rw [OptionStore.getObject_eq, held?]
    cases m.get? k <;> rfl
  | table t =>
    show getObject t k = _
    rw [Table.getObject_eq, held?]
    cases t.get? k <;> rfl

theorem held?_setObject_of_ne (differ : k ≠ key) :
    (setObject dst key v).2.held? k = dst.held? k := by
  cases dst with
  | options m =>
    have same : (m.insert key v).get? k = m.get? k := by rw [Options.get?_insert, if_neg differ]
    exact congrArg (Option.map Sum.inl) same
  | table t =>
    have same : (t.insert key (Value.ofOption v)).get? k = t.get? k := by
      rw [Table.get?_insert, if_neg differ]
    exact congrArg (Option.map Sum.inr) same

theorem getObject_setObject (wellFormed : v.WellFormed) :
    getObject (setObject dst key v).2 key = .ok v := by
  cases dst with
  | options m =>
    show getObject (m.insert key v) key = .ok v
    rw [OptionStore.getObject_eq, Options.get?_insert, if_pos rfl]
  | table t =>
    show getObject (t.insert key (Value.ofOption v)) key = .ok v
    rw [Table.getObject_eq, Table.get?_insert, if_pos rfl]
    dsimp only
    rw [(Value.ofOption_represents wellFormed).toOption wellFormed]

/-- A copy changes nothing under other keys. -/
theorem held?_copyKeys (other : k ∉ ks) : (copyKeys src ks dst).2.held? k = dst.held? k := by
  induction ks generalizing dst with
  | nil => rfl
  | cons key ks ih =>
    obtain ⟨differ, others⟩ := not_or.mp (mt List.mem_cons.mpr other)
    rw [copyKeys]
    cases getObject src key with
    | error e => rfl
    | ok v => exact (ih others).trans (held?_setObject_of_ne differ)

/-- Under the keys copied, the destination has the values of the source. -/
theorem getObject_copyKeys (sound : Sound src) (readable : ∀ k ∈ ks, ∃ v, getObject src k = .ok v)
    (hk : k ∈ ks) : getObject (copyKeys src ks dst).2 k = getObject src k := by
  induction ks generalizing dst with
  | nil => cases hk
  | cons key ks ih =>
    obtain ⟨⟨v, hv⟩, others⟩ := List.forall_mem_cons.mp readable
    rw [copyKeys, hv]
    dsimp only
    -- Where a key is copied more than once, the last time counts.
    by_cases again : k ∈ ks
    · exact ih others again
    · obtain rfl : k = key := (List.mem_cons.mp hk).resolve_right again
      rw [getObject_eq, held?_copyKeys again, ← getObject_eq, getObject_setObject (sound k v hv), hv]

end AnyStore

/-! ## The entries below a key -/

namespace Toml.Table

/-- The entries with lower keys. -/
def before : Table → String → Table
  | .empty, _ => .empty
  | .entry k v rest, key => if k < key then .entry k v (rest.before key) else rest.before key

theorem get?_before (t : Table) (key k : String) :
    (t.before key).get? k = if k < key then t.get? k else none := by
  cases t with
  | empty => exact (ite_self none).symm
  | entry k' v rest =>
    have behind := get?_before rest key k
    rw [before, get?]
    by_cases here : k = k'
    · subst here
      by_cases lower : k < key
      · rw [if_pos lower, if_pos lower, if_pos rfl, get?, if_pos rfl]
      · rw [if_neg lower, if_neg lower, behind, if_neg lower]
    · rw [if_neg here, ← behind]
      by_cases lower : k' < key
      · rw [if_pos lower, get?, if_neg here]
      · rw [if_neg lower]

theorem before_eq_empty {t : Table} {key : String} (h : ∀ k ∈ t.keys, key ≤ k) :
    t.before key = .empty := by
  match t with
  | .empty => rfl
  | .entry k v rest =>
    obtain ⟨here, others⟩ := List.forall_mem_cons.mp h
    rw [before, if_neg (not_lt.mpr here), before_eq_empty others]

variable {t : Table} {key k : String}

theorem mem_keys_before : k ∈ (t.before key).keys ↔ k < key ∧ k ∈ t.keys := by
  rw [mem_keys, mem_keys, get?_before]
  by_cases lower : k < key
  · rw [if_pos lower, and_iff_right lower]
  · rw [if_neg lower]
    exact iff_of_false nofun fun h => lower h.1

theorem getObject_before (lower : k < key) :
    OptionStore.getObject (t.before key) k = OptionStore.getObject t k := by
  rw [getObject_eq, getObject_eq, get?_before, if_pos lower]

/-- The keys of a table stand in order, so those below a key are the ones in front of it. -/
theorem WellFormed.keys_eq_append {t : Table} (h : t.WellFormed) {key : String}
    (hk : key ∈ t.keys) : ∃ later, t.keys = (t.before key).keys ++ key :: later := by
  match t, h with
  | .empty, _ => cases hk
  | .entry k v rest, ⟨first, _, behind⟩ =>
    rcases List.mem_cons.mp hk with rfl | hk
    · have first' : ∀ k ∈ (entry key v rest).keys, key ≤ k :=
        List.forall_mem_cons.mpr ⟨le_rfl, fun k' hk' => (first k' hk').le⟩
      rw [before_eq_empty first']
      exact ⟨rest.keys, rfl⟩
    · obtain ⟨later, hlater⟩ := WellFormed.keys_eq_append behind hk
      refine ⟨later, ?_⟩
      rw [before, if_pos (first key hk)]
      exact congrArg (k :: ·) hlater

theorem StopsAt.readable {kind : String} (stops : t.StopsAt key kind) :
    ∀ k ∈ (t.before key).keys, ∃ w, OptionStore.getObject (t.before key) k = .ok w := by
  intro k hk
  obtain ⟨lower, hk⟩ := mem_keys_before.mp hk
  rw [getObject_before lower]
  exact stops.exists_getObject lower hk

end Toml.Table

/-! ## Merging -/

/-- It is a table with an array or a date or time in a value, at any depth. -/
def AnyStore.Refused : AnyStore → Prop
  | .options _ => False
  | .table t => t.Refused

namespace OptionStore

variable {t : Table} {key kind : String} {δ : Type} [OptionStore δ]

/-- What is merged until a table is refused are the entries in front. -/
theorem mergeInto_of_stopsAt (wellFormed : t.WellFormed) (stops : t.StopsAt key kind) (dst : δ) :
    mergeInto dst t = (some (.invalidType key "scalar or table" kind),
      (mergeInto dst (t.before key)).2) := by
  obtain ⟨later, split⟩ := wellFormed.keys_eq_append stops.key_mem
  have same : ∀ k ∈ (t.before key).keys, getObject (t.before key) k = getObject t k :=
    fun k hk => Table.getObject_before (Table.mem_keys_before.mp hk).1
  have readable : ∀ k ∈ (t.before key).keys, ∃ w, getObject t k = .ok w :=
    fun k hk => same k hk ▸ stops.readable k hk
  calc mergeInto dst t = copyKeys t ((t.before key).keys ++ key :: later) dst :=
        congrArg (copyKeys t · dst) split
    _ = (some (.invalidType key "scalar or table" kind), (copyKeys t (t.before key).keys dst).2) :=
        copyKeys_stops readable stops.getObject_eq later dst
    _ = _ := by rw [← copyKeys_congr same]; rfl

theorem mergeInto_of_not_refused {src : AnyStore} (fine : ¬ src.Refused) (dst : δ) :
    (mergeInto dst src).1 = none := by
  refine copyKeys_fst_eq_none_iff.mpr fun k hk => ?_
  cases src with
  | options m =>
    obtain ⟨v, hv⟩ := Option.isSome_iff_exists.mp (Options.mem_keys.mp hk)
    exact ⟨v, (AnyStore.getObject_eq _ k).trans (by rw [AnyStore.held?, hv]; rfl)⟩
  | table t => exact Table.exists_getObject_of_not_refused fine hk

theorem mergeInto_ne_none_iff (wellFormed : t.WellFormed) (dst : δ) :
    (mergeInto dst t).1 ≠ none ↔ t.Refused := by
  refine ⟨fun failed => not_not.mp fun fine => failed ?_, fun refused => ?_⟩
  · exact copyKeys_fst_eq_none_iff.mpr fun _ => Table.exists_getObject_of_not_refused fine
  · obtain ⟨key, kind, stops⟩ := Table.exists_stopsAt wellFormed refused
    rw [mergeInto_of_stopsAt wellFormed stops]
    exact nofun

variable {σ : Type} [OptionStore σ]

theorem merge_of_stopsAt_left (wellFormed : t.WellFormed) (stops : t.StopsAt key kind) (s : σ) :
    merge t s = .error (.invalidType key "scalar or table" kind) := by
  rw [merge, mergeInto_of_stopsAt wellFormed stops]

theorem merge_of_stopsAt_right (wellFormed : t.WellFormed) (stops : t.StopsAt key kind) {s : σ}
    (merged : (mergeInto Options.empty s).1 = none) :
    merge s t = .error (.invalidType key "scalar or table" kind) := by
  rw [merge]
  obtain ⟨m, copied⟩ : ∃ m, mergeInto Options.empty s = (none, m) := ⟨_, Prod.ext merged rfl⟩
  rw [copied]
  dsimp only
  rw [mergeInto_of_stopsAt wellFormed stops]

/-- Merging from a table fails if there is an array or a date or time in it, at any depth. The error is
about the lowest key with such a value. The destination has been merged with the entries below that key and
with nothing else, so it is as before under all other keys. A merge into a new map fails likewise, and gives
no map. If both tables are refused, the error is about the first one. -/
theorem mergeInto_refused (wellFormed : t.WellFormed) :
    (∀ dst : AnyStore, (mergeInto dst t).1 ≠ none ↔ t.Refused) ∧
    (t.Refused → ∃ key kind, t.StopsAt key kind ∧
      (∀ dst : AnyStore, ∃ after,
        mergeInto dst t = (some (.invalidType key "scalar or table" kind), after) ∧
        mergeInto dst (t.before key) = (none, after) ∧
        (∀ k ∈ t.keys, k < key → getObject after k = getObject t k) ∧
        ∀ k, (k ∈ t.keys → key ≤ k) → after.held? k = dst.held? k) ∧
      (∀ s : AnyStore, merge t s = .error (.invalidType key "scalar or table" kind)) ∧
      ∀ s : AnyStore, ¬ s.Refused →
        merge s t = .error (.invalidType key "scalar or table" kind)) := by
  refine ⟨mergeInto_ne_none_iff wellFormed, fun refused => ?_⟩
  obtain ⟨key, kind, stops⟩ := Table.exists_stopsAt wellFormed refused
  refine ⟨key, kind, stops, fun dst => ?_, merge_of_stopsAt_left wellFormed stops,
    fun s fine => merge_of_stopsAt_right wellFormed stops (mergeInto_of_not_refused fine _)⟩
  have sound : Sound (t.before key) := fun _ _ read => Table.wellFormed_of_getObject read
  have copied : (mergeInto dst (t.before key)).1 = none := copyKeys_fst_eq_none_iff.mpr stops.readable
  refine ⟨_, mergeInto_of_stopsAt wellFormed stops dst, Prod.ext copied rfl, fun k hk lower => ?_,
    fun k other => ?_⟩
  · rw [← Table.getObject_before lower]
    exact AnyStore.getObject_copyKeys sound stops.readable (Table.mem_keys_before.mpr ⟨lower, hk⟩)
  · refine AnyStore.held?_copyKeys fun hk => ?_
    obtain ⟨lower, hk⟩ := Table.mem_keys_before.mp hk
    exact not_le.mpr lower (other hk)

def jobTable : Table :=
  .entry "auth" (.string "none")
    (.entry "hooks" (.table (.entry "limit" (.integer 2) (.entry "paths" (.array .nil)
        (.entry "since" (.datetime "2024-05-01") .empty))))
      (.entry "started" (.datetime "2024-05-01") .empty))

/-- The first value is copied, the key that is refused is not there, and the others are kept. -/
theorem mergeInto_refused_nested :
    jobTable.WellFormed ∧ jobTable.Refused ∧ jobTable.StopsAt "hooks" "array" ∧
      (∃ after, mergeInto (AnyStore.options sharedDefaults) jobTable =
          (some (.invalidType "hooks" "scalar or table" "array"), after) ∧
        getObject after "auth" = .ok (.string "none") ∧
        after.held? "retries" = some (.inl (.integer 3)) ∧ after.held? "hooks" = none) ∧
      merge (AnyStore.options sharedDefaults) jobTable =
        .error (.invalidType "hooks" "scalar or table" "array") := by
  have wellFormed : jobTable.WellFormed :=
    ⟨by decide, trivial, by decide,
      ⟨by decide, trivial, by decide, trivial, by decide, trivial, trivial⟩, by decide, trivial, trivial⟩
  have refused : jobTable.Refused := .inl (.inr (.inl (.inr (.inr (.inl (.inl trivial))))))
  obtain ⟨key, kind, stops, merged, _, second⟩ := (mergeInto_refused wellFormed).2 refused
  obtain ⟨after, reported, _, copied, kept⟩ := merged (.options sharedDefaults)
  have seen : (mergeInto (AnyStore.options sharedDefaults) jobTable).1 =
      some (.invalidType "hooks" "scalar or table" "array") := by decide
  rw [reported] at seen
  cases seen
  exact ⟨wellFormed, refused, stops, ⟨after, reported, copied "auth" (by decide) (by decide),
    kept "retries" (by decide), kept "hooks" fun _ => le_rfl⟩, second (.options sharedDefaults) id⟩

end OptionStore

end ScrapeConfig
