import ScrapeConfig.Pattern.Reader
import ScrapeConfig.Proofs.Pattern.Shape

/-!
# Ranges of pattern expressions

The ranges of an expression that was read from a source are never empty and never go beyond the
highest code point (`Pattern.read_valid`). The construction of automata relies on it.
-/

namespace ScrapeConfig

namespace CodeRange

/-- A range that is not empty and ends at a code point. -/
def Valid (r : CodeRange) : Prop := r.lo ≤ r.hi ∧ r.hi ≤ last

instance : DecidablePred Valid := fun r => inferInstanceAs (Decidable (r.lo ≤ r.hi ∧ r.hi ≤ last))

theorem toNat_le_last (c : Char) : c.toNat ≤ last := by
  have := c.valid
  simp only [UInt32.isValidChar, Nat.isValidChar] at this
  simp only [Char.toNat, last]
  omega

theorem valid_single (c : Char) : (single c).Valid := ⟨Nat.le_refl _, toNat_le_last c⟩

theorem valid_insert {r : CodeRange} {rs : List CodeRange} (hr : r.Valid)
    (hrs : ∀ x ∈ rs, x.Valid) : ∀ x ∈ insert r rs, x.Valid := by
  induction rs generalizing r with
  | nil => simpa [insert] using hr
  | cons y ys ih =>
    simp only [List.forall_mem_cons] at hrs
    simp only [insert]
    split
    · simpa using ⟨hr, hrs⟩
    · split
      · simpa using ⟨hrs.1, ih hr hrs.2⟩
      · refine ih ?_ hrs.2
        obtain ⟨h₁, h₂⟩ := hr
        obtain ⟨⟨h₃, h₄⟩, _⟩ := hrs
        exact ⟨by simp only; omega, by simp only; omega⟩

theorem valid_normalize {rs : List CodeRange} (h : ∀ x ∈ rs, x.Valid) :
    ∀ x ∈ normalize rs, x.Valid := by
  induction rs with
  | nil => simp [normalize]
  | cons r rs ih =>
    simp only [List.forall_mem_cons] at h
    exact valid_insert h.1 (ih h.2)

theorem valid_gaps {rs : List CodeRange} (h : ∀ x ∈ rs, x.Valid) (next : Nat) :
    ∀ x ∈ gaps next rs, x.Valid := by
  induction rs generalizing next with
  | nil =>
    simp only [gaps]
    split
    · next hn => simpa [Valid] using hn
    · simp
  | cons r rs ih =>
    simp only [List.forall_mem_cons] at h
    simp only [gaps]
    split
    · next hn =>
      have ⟨h₁, h₂⟩ := h.1
      refine List.forall_mem_cons.mpr ⟨⟨?_, ?_⟩, ih h.2 _⟩ <;> simp only <;> omega
    · exact ih h.2 _

theorem valid_recased {r x : CodeRange} {letters others : Nat} (ho : others + 25 ≤ last)
    (h : x ∈ r.recased letters others) : x.Valid := by
  simp only [recased] at h
  split at h
  · simp only [List.mem_singleton] at h
    subst h
    exact ⟨by simp only; omega, by simp only; omega⟩
  · simp at h

theorem valid_foldCase {rs : List CodeRange} (h : ∀ x ∈ rs, x.Valid) :
    ∀ x ∈ foldCase rs, x.Valid := by
  intro x hx
  simp only [foldCase, List.mem_append, List.mem_flatMap] at hx
  rcases hx with hx | ⟨r, _, hx | hx⟩
  · exact h x hx
  · exact valid_recased (by decide) hx
  · exact valid_recased (by decide) hx

end CodeRange

namespace Expr

/-- The ranges of a class. -/
def ranges : Expr → List CodeRange
  | .symbols rs => rs
  | _ => []

/-- All ranges of an expression are valid. -/
def Valid (e : Expr) : Prop := e.All fun l => ∀ r ∈ l.ranges, r.Valid

theorem valid_symbols {rs : List CodeRange} : (symbols rs).Valid ↔ ∀ r ∈ rs, r.Valid := Iff.rfl

theorem valid_sequence {es : List Expr} (h : ∀ e ∈ es, e.Valid) : (sequence es).Valid :=
  all_sequence h (List.forall_mem_nil _)

theorem valid_choice {es : List Expr} (h : ∀ e ∈ es, e.Valid) : (choice es).Valid :=
  all_choice h

theorem valid_literal (fold : Bool) (c : Char) : (literal fold c).Valid := by
  have h : ∀ r ∈ [CodeRange.single c], r.Valid := by simp [CodeRange.valid_single]
  rw [literal, valid_symbols]
  split
  · exact CodeRange.valid_normalize (CodeRange.valid_foldCase h)
  · exact h

theorem valid_bracket (fold negated : Bool) {rs : List CodeRange} (h : ∀ r ∈ rs, r.Valid) :
    (bracket fold negated rs).Valid := by
  have normal : ∀ r ∈ CodeRange.normalize (if fold then CodeRange.foldCase rs else rs), r.Valid := by
    refine CodeRange.valid_normalize ?_
    split
    · exact CodeRange.valid_foldCase h
    · exact h
  rw [bracket, valid_symbols]
  split
  · exact CodeRange.valid_gaps normal 0
  · exact normal

theorem valid_quantified (how : Pattern.Quantifier) {e : Expr} (h : e.Valid) :
    (how.apply e).Valid := by
  cases how <;> exact h

end Expr

namespace Pattern

/-! ## Lexemes -/

namespace OpenClass

/-- The ranges collected so far are valid. -/
def Valid (k : OpenClass) : Prop := ∀ r ∈ k.ranges, r.Valid

theorem valid_add {k : OpenClass} (h : k.Valid) {lo hi : Char} (hle : lo.toNat ≤ hi.toNat) :
    (k.add lo hi).Valid :=
  List.forall_mem_cons.mpr ⟨⟨hle, CodeRange.toNat_le_last hi⟩, h⟩

theorem valid_low {k : OpenClass} (h : k.Valid) {n : Nat} {g : Glyph} {r : OpenClass × Bool}
    (e : k.low n g = .ok r) : r.1.Valid := by
  simp only [low] at e
  cases hc : g.char n with
  | error => simp [hc, Except.map] at e
  | ok c =>
    simp only [hc, Except.map, Except.ok.injEq] at e
    subst e
    exact h

theorem valid_item {k : OpenClass} (h : k.Valid) {n : Nat} {g : Glyph} {r : OpenClass × Bool}
    (e : k.item n g = .ok r) : r.1.Valid := by
  simp only [item] at e
  split at e
  · cases e
    exact h
  · exact valid_low h e

theorem valid_step {k : OpenClass} (h : k.Valid) {n : Nat} {g : Glyph} {next : Option Glyph}
    {r : OpenClass × Bool} (e : k.step n g next = .ok r) : r.1.Valid := by
  unfold step at e
  split at e
  · split at e
    · cases e
      exact h
    · exact valid_low h e
  · exact valid_low h e
  · exact valid_item h e
  · split at e
    · cases e
      exact h
    · exact valid_item (valid_add h (Nat.le_refl _)) e
  · next lo _ =>
    cases hc : g.char n with
    | error => simp [hc, bind, Except.bind] at e
    | ok hi =>
      simp only [hc, bind, Except.bind] at e
      split at e
      · cases e
      · next hlt =>
        cases e
        exact valid_add h (Nat.le_of_not_lt hlt)

end OpenClass

/-- The expression of a lexeme, if it carries one, is valid. -/
def Lexeme.Valid : Lexeme → Prop
  | .leaf e => e.Valid
  | _ => True

theorem valid_lexeme (fold : Bool) (n : Nat) (g : Glyph) : (lexeme fold n g).Valid := by
  unfold lexeme
  split <;> try trivial
  · simp [Lexeme.Valid, Expr.anySymbol, Expr.valid_symbols, CodeRange.Valid, CodeRange.last]
  · exact List.forall_mem_nil _
  · exact List.forall_mem_nil _
  · split
    · exact Expr.valid_literal fold _
    · trivial

theorem valid_lexemes (fold : Bool) (k : Option OpenClass) (hk : ∀ c, k = some c → c.Valid)
    (gs : List (Nat × Glyph)) : ∀ l ∈ lexemes fold k gs, l.Valid := by
  induction gs generalizing k with
  | nil => cases k <;> simp [lexemes, Lexeme.Valid]
  | cons g rest ih =>
    obtain ⟨n, g⟩ := g
    cases k with
    | none =>
      simp only [lexemes]
      split
      · refine ih _ fun c hc => ?_
        cases hc
        simp [OpenClass.Valid]
      · exact List.forall_mem_cons.mpr ⟨valid_lexeme fold n g, ih none (by simp)⟩
    | some k =>
      have hk := hk k rfl
      simp only [lexemes]
      split
      · simp [Lexeme.Valid]
      · next e =>
        have := OpenClass.valid_step hk e
        refine List.forall_mem_cons.mpr ⟨Expr.valid_bracket _ _ ?_, ih none (by simp)⟩
        simpa [OpenClass.Valid] using this
      · next e =>
        refine ih _ fun c hc => ?_
        cases hc
        exact OpenClass.valid_step hk e

/-! ## Groups -/

/-- What an open group has collected is valid. -/
structure OpenGroup.Valid (g : OpenGroup) : Prop where
  branches : ∀ e ∈ g.branches, e.Valid
  items : ∀ e ∈ g.items, e.Valid

namespace OpenGroup

theorem valid_push {g : OpenGroup} (hg : g.Valid) {e : Expr} (he : e.Valid) : (g.push e).Valid :=
  ⟨hg.branches, List.forall_mem_cons.mpr ⟨he, hg.items⟩⟩

theorem valid_branch {g : OpenGroup} (hg : g.Valid) : g.branch.Valid := by
  refine ⟨List.forall_mem_cons.mpr ⟨Expr.valid_sequence ?_, hg.branches⟩, by simp [branch]⟩
  simpa using hg.items

theorem valid_expr {g : OpenGroup} (hg : g.Valid) : g.expr.Valid := by
  refine Expr.valid_choice ?_
  simpa using (valid_branch hg).branches

end OpenGroup

theorem valid_assemble {outer : List OpenGroup} {g : OpenGroup} {ls : List Lexeme} {e : Expr}
    (ho : ∀ o ∈ outer, o.Valid) (hg : g.Valid) (hls : ∀ l ∈ ls, l.Valid)
    (h : assemble outer g ls = .ok e) : e.Valid := by
  fun_induction assemble outer g ls with
  | case1 g =>
    cases h
    exact OpenGroup.valid_expr hg
  | case2 | case5 | case8 | case10 => cases h
  | case3 outer g f rest ih =>
    simp only [List.forall_mem_cons] at hls
    exact ih ho (OpenGroup.valid_push hg hls.1) hls.2 h
  | case4 outer g n rest ih =>
    simp only [List.forall_mem_cons] at hls
    exact ih (List.forall_mem_cons.mpr ⟨hg, ho⟩) ⟨by simp, by simp⟩ hls.2 h
  | case6 g' outer g n rest ih =>
    simp only [List.forall_mem_cons] at hls ho
    exact ih ho.2 (OpenGroup.valid_push ho.1 (OpenGroup.valid_expr hg)) hls.2 h
  | case7 outer g rest ih =>
    simp only [List.forall_mem_cons] at hls
    exact ih ho (OpenGroup.valid_branch hg) hls.2 h
  | case9 outer g how n rest e es hitems ih =>
    simp only [List.forall_mem_cons] at hls
    have items := hg.items
    simp only [hitems, List.forall_mem_cons] at items
    refine ih ho ⟨hg.branches, ?_⟩ hls.2 h
    exact List.forall_mem_cons.mpr ⟨Expr.valid_quantified how items.1, items.2⟩

/-- The ranges of an expression that was read from a source are valid. -/
theorem read_valid {source : List Char} {fold : Bool} {e : Expr} (h : read source fold = .ok e) :
    e.Valid := by
  unfold read at h
  split at h
  · cases h
  · exact valid_assemble (by simp) ⟨by simp, by simp⟩ (valid_lexemes fold none (by simp) _) h

end Pattern

end ScrapeConfig
