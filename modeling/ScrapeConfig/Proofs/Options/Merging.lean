import ScrapeConfig.Proofs.Options.Calls

/-!
# Merging maps of options

Maps of options are merged in layers: general settings below, specific ones above. Merging puts the
second map as a layer over the first one, key by key, and looks into no value; so it does not matter which
two of three layers are merged first, an empty layer changes nothing, and neither does a layer that
has been there before.

Results:
1. `Options.overlay_assoc`, `Options.overlay_self`: the laws of overlays.
2. `OptionStore.mergeInto_embed`: merging into a store of either kind is merging into what it is.
3. `OptionStore.merge_layers`
-/

namespace ScrapeConfig

namespace Options

variable {a b c : Options}

theorem mem_keys_overlay {k : String} : k ∈ (overlay a b).keys ↔ k ∈ a.keys ∨ k ∈ b.keys := by
  rw [mem_keys, mem_keys, mem_keys, get?_overlay, Option.isSome_or, Bool.or_eq_true, or_comm]

/-- Both sides hold the value of the highest layer that has the key. -/
theorem overlay_assoc (ha : a.Ordered) : overlay (overlay a b) c = overlay a (overlay b c) := by
  refine ((ha.overlay b).overlay c).ext (ha.overlay (overlay b c)) fun k => ?_
  rw [get?_overlay, get?_overlay, get?_overlay, get?_overlay, Option.or_assoc]

theorem overlay_self (ha : a.Ordered) : overlay a a = a := by
  refine (ha.overlay a).ext ha fun k => ?_
  rw [get?_overlay, Option.or_self]

theorem overlay_again (ha : a.Ordered) (hb : b.Ordered) :
    overlay (overlay a b) b = overlay a b := by
  rw [overlay_assoc ha, overlay_self hb]

end Options

namespace OptionStore

open Options

section

variable {σ δ ε : Type} [OptionStore σ] [OptionStore δ] [OptionStore ε]

/-- A store that is set as the one inside it receives the same copies. -/
theorem copyKeys_embed {f : δ → ε}
    (set : ∀ d key v, (setObject (f d) key v).2 = f (setObject d key v).2) (src : σ)
    (ks : List String) (dst : δ) :
    copyKeys src ks (f dst) = (copyKeys src ks dst).map id f := by
  induction ks generalizing dst with
  | nil => rfl
  | cons key ks ih =>
    rw [copyKeys, copyKeys]
    cases getObject src key with
    | error e => rfl
    | ok v =>
      dsimp only
      rw [set, ih]

theorem mergeInto_embed {f : δ → ε}
    (set : ∀ d key v, (setObject (f d) key v).2 = f (setObject d key v).2) (src : σ) (dst : δ) :
    mergeInto (f dst) src = (mergeInto dst src).map id f :=
  copyKeys_embed set src (keys src) dst

end

variable {a b c : Options}

theorem merge_of_ordered (ha : a.Ordered) : merge a b = .ok (overlay a b) := by
  rw [merge_eq_ok, clone_of_ordered ha]

theorem call_mergeInto_options :
    call b (.mergeInto (.options a)) = (.mergedInto none (.options (overlay a b)), b) := by
  have merged := mergeInto_embed (f := AnyStore.options) (fun _ _ _ => rfl) b a
  rw [call, merged, mergeInto_eq]
  rfl

/-- Merging maps never fails. Under every key the result holds the value of the second map if it has the
key, a map in it being taken as a whole, and otherwise the value of the first one. Merging is associative,
the empty map is neutral on both sides, and what is merged once more changes nothing. Merging in place
gives the same, and leaves the source as it is. -/
theorem merge_layers (ha : a.Ordered) (hb : b.Ordered) :
    ∃ ab bc, merge a b = .ok ab ∧ merge b c = .ok bc ∧
      (∀ k, ab.get? k = (b.get? k).or (a.get? k)) ∧
      (∀ k, k ∈ ab.keys ↔ k ∈ a.keys ∨ k ∈ b.keys) ∧
      (∀ k below above, a.get? k = some (.map below) → b.get? k = some (.map above) →
        ab.get? k = some (.map above)) ∧
      merge ab c = merge a bc ∧
      merge a Options.empty = .ok a ∧ merge Options.empty a = .ok a ∧
      merge a a = .ok a ∧ merge ab b = .ok ab ∧
      mergeInto a b = (none, ab) ∧
      call b (.mergeInto (.options a)) = (.mergedInto none (.options ab), b) := by
  have values := get?_overlay a b
  have empty : Ordered .empty := trivial
  refine ⟨overlay a b, overlay b c, merge_of_ordered ha, merge_of_ordered hb, values,
    fun k => mem_keys_overlay, fun k below above _ hb => ?_, ?_, merge_of_ordered ha, ?_, ?_, ?_,
    mergeInto_eq a b, call_mergeInto_options⟩
  · rw [values, hb, Option.some_or]
  · rw [merge_of_ordered (ha.overlay b), merge_of_ordered ha, overlay_assoc ha]
  · rw [merge_of_ordered empty, clone_of_ordered ha]
  · rw [merge_of_ordered ha, overlay_self ha]
  · rw [merge_of_ordered (ha.overlay b), overlay_again ha hb]

def sharedDefaults : Options :=
  .entry "auth" (.map (.entry "scheme" (.string "token") (.entry "user" (.string "a") .empty)))
    (.entry "retries" (.integer 3) .empty)

def serviceOptions : Options :=
  .entry "auth" (.map (.entry "scheme" (.string "basic") .empty))
    (.entry "timeout" (.string "10s") .empty)

/-- The user of the shared defaults is not in the merged map. -/
theorem merge_layers_nested :
    sharedDefaults.Ordered ∧ serviceOptions.Ordered ∧ ∃ ab,
      merge sharedDefaults serviceOptions = .ok ab ∧
      ab.get? "auth" = some (.map (.entry "scheme" (.string "basic") .empty)) ∧
      ab.get? "retries" = some (.integer 3) ∧ ab.get? "timeout" = some (.string "10s") ∧
      merge ab serviceOptions = .ok ab := by
  have ha : sharedDefaults.WellFormed := by decide
  have hb : serviceOptions.WellFormed := by decide
  obtain ⟨ab, _, merged, _, values, _, whole, _, _, _, _, again, _⟩ :=
    @merge_layers _ _ .empty ha.ordered hb.ordered
  exact ⟨ha.ordered, hb.ordered, ab, merged, whole "auth" _ _ rfl rfl, values "retries",
    values "timeout", again⟩

end OptionStore

end ScrapeConfig
