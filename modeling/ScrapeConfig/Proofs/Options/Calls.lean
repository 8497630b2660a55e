import ScrapeConfig.Proofs.Toml.Representation

/-!
# Calls of stores

A store can be asked for values, told to set them and merged with other stores, in any order and as
often as one likes. What it answers does not show whether it is a map of options or a TOML table: a
table that stands for a map answers like the map, and stands for it again after every call.

Results:
1. `OptionStore.Call`, `OptionStore.calls`: the calls of a store and their answers.
2. `OptionStore.Alike`: two kinds of stores that agree in what the interface asks of a store.
   `Alike.call`, `Alike.calls` are about everything that is built on it.
3. `Toml.Table.alike_options`, `OptionStore.calls_represents`: so it is with tables and maps.
-/

namespace ScrapeConfig

open Toml (Table)

/-- A store of either kind. -/
inductive AnyStore where
  | options (m : Options)
  | table (t : Table)
  deriving DecidableEq

namespace AnyStore

instance : OptionStore AnyStore where
  getObject
    | .options m => OptionStore.getObject m
    | .table t => OptionStore.getObject t
  setObject
    | .options m, key, v => (OptionStore.setObject m key v).map id .options
    | .table t, key, v => (OptionStore.setObject t key v).map id .table
  keys
    | .options m => OptionStore.keys m
    | .table t => OptionStore.keys t

/-- A map of options is to be ordered at every depth. -/
def WellFormed : AnyStore → Prop
  | .options m => m.WellFormed
  | .table _ => True

instance : DecidablePred WellFormed
  | .options m => inferInstanceAs (Decidable m.WellFormed)
  | .table _ => .isTrue trivial

end AnyStore

namespace OptionStore

/-! ## Calls and answers -/

/-- What a store can be asked. In a merge the other store is given, the one it is merged from or the
one it is merged into. -/
inductive Call where
  | setObject (key : String) (value : OptionValue)
  | setString (key text : String)
  | getObject (key : String)
  | getString (key : String)
  | keys
  | clone
  | mergeFrom (src : AnyStore)
  | mergeInto (dst : AnyStore)

inductive Answer where
  | existed (before : Bool)
  | object (value : Except StoreError OptionValue)
  | string (text : Except StoreError String)
  | keys (ks : List String)
  | clone (m : Except StoreError Options)
  | merged (error : Option StoreError)
  | mergedInto (error : Option StoreError) (dst : AnyStore)
  deriving DecidableEq

/-- What is set or merged from is well formed. -/
def Call.WellFormed : Call → Prop
  | .setObject _ value => value.WellFormed
  | .mergeFrom src => src.WellFormed
  | _ => True

instance : DecidablePred Call.WellFormed
  | .setObject _ value => inferInstanceAs (Decidable value.WellFormed)
  | .mergeFrom src => inferInstanceAs (Decidable src.WellFormed)
  | .setString .. | .getObject _ | .getString _ | .keys | .clone | .mergeInto _ => .isTrue trivial

variable {σ τ : Type} [OptionStore σ] [OptionStore τ]

def call (s : σ) : Call → Answer × σ
  | .setObject key value => (OptionStore.setObject s key value).map .existed id
  | .setString key text => (OptionStore.setString s key text).map .existed id
  | .getObject key => (.object (OptionStore.getObject s key), s)
  | .getString key => (.string (OptionStore.getString s key), s)
  | .keys => (.keys (OptionStore.keys s), s)
  | .clone => (.clone (OptionStore.clone s), s)
  | .mergeFrom src => (OptionStore.mergeInto s src).map .merged id
  | .mergeInto dst =>
    let (error, dst) := OptionStore.mergeInto dst s
    (.mergedInto error dst, s)

/-- The answers to some calls, one after another, and the store behind them. -/
def calls (s : σ) : List Call → List Answer × σ
  | [] => ([], s)
  | c :: cs =>
    let (answer, s) := call s c
    let (answers, s) := calls s cs
    (answer :: answers, s)

/-! ## Stores that are alike -/

/-- All values that a store has are well formed. -/
def Sound (s : σ) : Prop := ∀ key v, OptionStore.getObject s key = .ok v → v.WellFormed

/-- Related stores have the same keys and values, and are still related when the same value is set in
both of them. -/
structure Alike (R : σ → τ → Prop) : Prop where
  keys : ∀ ⦃s s'⦄, R s s' → OptionStore.keys s = OptionStore.keys s'
  getObject : ∀ ⦃s s'⦄, R s s' → OptionStore.getObject s = OptionStore.getObject s'
  setObject : ∀ ⦃s s'⦄, R s s' → ∀ key v, OptionValue.WellFormed v →
    (OptionStore.setObject s key v).1 = (OptionStore.setObject s' key v).1 ∧
      R (OptionStore.setObject s key v).2 (OptionStore.setObject s' key v).2

namespace Alike

variable {R : σ → τ → Prop} {s : σ} {s' : τ} {δ : Type} [OptionStore δ]

theorem getString (alike : Alike R) (h : R s s') (key : String) :
    OptionStore.getString s key = OptionStore.getString s' key := by
  rw [OptionStore.getString, OptionStore.getString, alike.getObject h]

/-- What is copied from them is the same. -/
theorem copyKeys (alike : Alike R) (h : R s s') (ks : List String) (dst : δ) :
    OptionStore.copyKeys s ks dst = OptionStore.copyKeys s' ks dst := by
  induction ks generalizing dst with
  | nil => rfl
  | cons key ks ih =>
    rw [OptionStore.copyKeys, OptionStore.copyKeys, alike.getObject h]
    cases OptionStore.getObject s' key with
    | error e => rfl
    | ok v => exact ih _

theorem mergeInto (alike : Alike R) (h : R s s') (dst : δ) :
    OptionStore.mergeInto dst s = OptionStore.mergeInto dst s' := by
  rw [OptionStore.mergeInto, OptionStore.mergeInto, alike.keys h, alike.copyKeys h]

theorem clone (alike : Alike R) (h : R s s') : OptionStore.clone s = OptionStore.clone s' := by
  rw [OptionStore.clone, OptionStore.clone, alike.mergeInto h]

/-- What is copied to them is the same, up to the same failure. -/
theorem copyKeys_into (alike : Alike R) (h : R s s') {src : δ} (sound : Sound src)
    (ks : List String) :
    (OptionStore.copyKeys src ks s).1 = (OptionStore.copyKeys src ks s').1 ∧
      R (OptionStore.copyKeys src ks s).2 (OptionStore.copyKeys src ks s').2 := by
  induction ks generalizing s s' with
  | nil => exact ⟨rfl, h⟩
  | cons key ks ih =>
    rw [OptionStore.copyKeys, OptionStore.copyKeys]
    cases read : OptionStore.getObject src key with
    | error e => exact ⟨rfl, h⟩
    | ok v => exact ih (alike.setObject h key v (sound key v read)).2

theorem mergeInto_into (alike : Alike R) (h : R s s') {src : δ} (sound : Sound src) :
    (OptionStore.mergeInto s src).1 = (OptionStore.mergeInto s' src).1 ∧
      R (OptionStore.mergeInto s src).2 (OptionStore.mergeInto s' src).2 :=
  alike.copyKeys_into h sound (OptionStore.keys src)

end Alike

end OptionStore

open OptionStore (Sound Alike)

theorem Options.WellFormed.sound {m : Options} (h : m.WellFormed) : Sound m := by
  intro key v read
  rw [OptionStore.getObject_eq] at read
  cases value : m.get? key with
  | none => rw [value] at read; cases read
  | some w =>
    rw [value] at read
    cases read
    exact h.get? value

theorem AnyStore.WellFormed.sound {s : AnyStore} (h : s.WellFormed) : Sound s := by
  cases s with
  | options m => exact Options.WellFormed.sound h
  | table t => exact fun _ _ read => Table.wellFormed_of_getObject read

namespace OptionStore

namespace Alike

variable {σ τ : Type} [OptionStore σ] [OptionStore τ] {R : σ → τ → Prop} {s : σ} {s' : τ}

theorem call (alike : Alike R) (h : R s s') {c : Call} (wellFormed : c.WellFormed) :
    (OptionStore.call s c).1 = (OptionStore.call s' c).1 ∧
      R (OptionStore.call s c).2 (OptionStore.call s' c).2 := by
  cases c with
  | setObject key v =>
    obtain ⟨existed, set⟩ := alike.setObject h key v wellFormed
    exact ⟨congrArg Answer.existed existed, set⟩
  | setString key text =>
    obtain ⟨existed, set⟩ := alike.setObject h key (.string text) trivial
    exact ⟨congrArg Answer.existed existed, set⟩
  | getObject key => exact ⟨congrArg Answer.object (congrFun (alike.getObject h) key), h⟩
  | getString key => exact ⟨congrArg Answer.string (alike.getString h key), h⟩
  | keys => exact ⟨congrArg Answer.keys (alike.keys h), h⟩
  | clone => exact ⟨congrArg Answer.clone (alike.clone h), h⟩
  | mergeFrom src =>
    obtain ⟨error, merged⟩ := alike.mergeInto_into h (AnyStore.WellFormed.sound wellFormed)
    exact ⟨congrArg Answer.merged error, merged⟩
  | mergeInto dst =>
    refine ⟨?_, h⟩
    rw [OptionStore.call, OptionStore.call, alike.mergeInto h]

/-- By induction on the calls; what is related in front of a call is related behind it. -/
theorem calls (alike : Alike R) (h : R s s') {cs : List Call} (wellFormed : ∀ c ∈ cs, c.WellFormed) :
    (OptionStore.calls s cs).1 = (OptionStore.calls s' cs).1 ∧
      R (OptionStore.calls s cs).2 (OptionStore.calls s' cs).2 := by
  induction cs generalizing s s' with
  | nil => exact ⟨rfl, h⟩
  | cons c cs ih =>
    obtain ⟨first, others⟩ := List.forall_mem_cons.mp wellFormed
    obtain ⟨answer, still⟩ := alike.call h first
    obtain ⟨answers, behind⟩ := ih still others
    exact ⟨congrArg₂ List.cons answer answers, behind⟩

end Alike

end OptionStore

/-! ## Tables and maps -/

theorem Toml.Table.alike_options :
    Alike fun (t : Table) (m : Options) => t.Represents m ∧ m.WellFormed where
  keys _ _ h := h.1.keys_eq
  getObject _ _ h := funext (h.1.getObject_eq h.2)
  setObject _ _ h key _ wellFormed :=
    ⟨h.1.contains_eq key, h.1.insert key (Value.ofOption_represents wellFormed),
      h.2.insert key wellFormed⟩

namespace OptionStore

/-- A table and the map that it stands for give the same answers, whatever they are asked, and the
table still stands for the map when both have answered. -/
theorem calls_represents {t : Table} {m : Options} (same : t.Represents m)
    (wellFormed : m.WellFormed) {cs : List Call} (arguments : ∀ c ∈ cs, c.WellFormed) :
    (calls t cs).1 = (calls m cs).1 ∧
      (calls t cs).2.Represents (calls m cs).2 ∧ (calls m cs).2.WellFormed :=
  Table.alike_options.calls ⟨same, wellFormed⟩ arguments

def nestedOptions : Options :=
  .entry "auth" (.map (.entry "scheme" (.string "token") .empty)) .empty

def nestedTable : Table :=
  .entry "auth" (.table (.entry "scheme" (.string "token") .empty)) .empty

/-- The second call fails half way, since the table that is merged from has an array. -/
def mixedCalls : List Call :=
  [.getString "auth",
    .mergeFrom (.table (.entry "auth" (.string "basic") (.entry "hosts" (.array .nil) .empty))),
    .setObject "limits" (.map (.entry "retries" (.integer 3) .empty)), .clone,
    .mergeInto (.table .empty)]

theorem calls_represents_nested :
    nestedTable.Represents nestedOptions ∧ nestedOptions.WellFormed ∧
      (∀ c ∈ mixedCalls, c.WellFormed) ∧
      (calls nestedTable mixedCalls).1 = (calls nestedOptions mixedCalls).1 ∧
      (calls nestedTable mixedCalls).2.Represents (calls nestedOptions mixedCalls).2 ∧
      (calls nestedOptions mixedCalls).2.WellFormed := by
  have same : nestedTable.Represents nestedOptions :=
    .entry (.table (.entry (.string "token") .empty)) .empty
  have wellFormed : nestedOptions.WellFormed := by decide
  have arguments : ∀ c ∈ mixedCalls, c.WellFormed := by decide
  exact ⟨same, wellFormed, arguments, calls_represents same wellFormed arguments⟩

end OptionStore

end ScrapeConfig
