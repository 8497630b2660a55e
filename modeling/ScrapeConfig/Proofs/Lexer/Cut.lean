import ScrapeConfig.Proofs.Lexer.Lexical
import ScrapeConfig.Proofs.Scan.LongestMatch
import ScrapeConfig.Proofs.Text.Quoted

/-!
# Cutting a text off a document

At the front of a document the rule wins that goes furthest, and of those that go equally far the
first one. A rule so cuts its text off what is left. Which of the following characters matter to a
cut is said here for each rule.

Results:
1. `Rule.longestMatch_iff`: a race of the document patterns finds `text` for rule `i` if and only if
   `Rule.Cuts i text rest`.
2. `Rule.exists_cut`: something is cut off any text that is not empty.
3. `Rule.cuts_comment` and its like: the cuts of each rule.
-/

namespace ScrapeConfig.Rule

open Lexical

/-- The rule `i` cuts `text` off what is left of a document, which goes on with `rest`. -/
structure Cuts (i : Nat) (text rest : List Char) : Prop where
  denotes : Denotes i text
  first : ∀ j < i, ¬ Denotes j text
  longest : ∀ u v, rest = u ++ v → u ≠ [] → ∀ j, ¬ Denotes j (text ++ u)

theorem denotes_ne_nil {j : Nat} {u : List Char} (h : Denotes j u) : u ≠ [] := by
  rintro rfl
  match j, h with
  | 0, ⟨v, h, _⟩ => cases h
  | 1, ⟨v, h, _⟩ => cases h
  | 2, ⟨v, h, _⟩ => cases h
  | 3, ⟨h, _⟩ => exact h rfl
  | 4, ⟨k, hk, h⟩ =>
    have empty : ∀ name ∈ keywordNames, name ≠ [] := by decide
    rw [Spells, List.forall₂_nil_right_iff] at h
    exact empty _ (mem_keywordNames.mpr ⟨k, hk, rfl⟩) h
  | 5, ⟨v, h, _⟩ => cases h
  | 6, ⟨v, h, _⟩ => cases h
  | 7, ⟨c, v, h, _⟩ => cases h
  | 8, ⟨c, h, _⟩ => cases h

theorem denotes_lt {j : Nat} {u : List Char} (h : Denotes j u) : j < exprs.length := by
  match j, h with
  | 0, _ | 1, _ | 2, _ | 3, _ | 4, _ | 5, _ | 6, _ | 7, _ | 8, _ => decide

/-! ## Races of document patterns -/

section

variable {set : PatternSet} {fresh : Bool}

theorem compile_rules {rules : List Rule} {es : List Expr} (h : List.Forall₂ Has rules es) :
    ∃ ps, (rules.map fun r => (r.source, r.foldsCase)).mapM
        (fun (source, fold) => Pattern.compile source fold) = .ok ps ∧
      ps.map (·.expr) = es ∧ ∀ p ∈ ps, p.Sound := by
  induction h with
  | nil => exact ⟨[], rfl, rfl, by simp⟩
  | @cons r e rules es hr _ ih =>
    obtain ⟨ps, hps, rfl, sound⟩ := ih
    have compiled := Pattern.compile_eq_ok.mpr ⟨e, hr, rfl⟩
    refine ⟨_ :: ps, ?_, rfl, List.forall_mem_cons.mpr ⟨Pattern.sound_compile compiled, sound⟩⟩
    simp only [List.map_cons, List.mapM_cons, compiled, hps]
    rfl

/-- The patterns of documents compile. -/
theorem documentPatterns_eq_ok :
    ∃ set, documentPatterns = .ok set ∧ set.patterns.map (·.expr) = exprs ∧
      ∀ p ∈ set.patterns, p.Sound := by
  obtain ⟨ps, hps, h⟩ := compile_rules has_exprs
  refine ⟨⟨ps⟩, ?_, h⟩
  rw [documentPatterns, patterns, PatternSet.compile, hps]
  rfl

variable (hset : documentPatterns = .ok set)

include hset

theorem wins_iff {w : List Char} {m : Match} :
    Pattern.Wins set.patterns fresh w m ↔
      ∃ u v, w = u ++ v ∧ m.length = u.length ∧ Denotes m.pattern u := by
  obtain ⟨_, hset', hexprs, _⟩ := documentPatterns_eq_ok
  obtain rfl := Except.ok.inj (hset.symm.trans hset')
  have at_exprs : ∀ {i} {p : Pattern}, set.patterns[i]? = some p → exprs[i]? = some p.expr := fun hp => by
    rw [← hexprs, List.getElem?_map, hp]
    rfl
  constructor
  · rintro ⟨_, p, hp, hm⟩
    have he := at_exprs hp
    rw [Expr.matches_zero_iff (plain_exprs _ (List.mem_of_getElem? he))] at hm
    obtain ⟨u, v, hw, hl, hu⟩ := hm
    exact ⟨u, v, hw, hl, (denotes_iff he).mp hu⟩
  · rintro ⟨u, v, rfl, hl, hu⟩
    have nonempty := denotes_ne_nil hu
    refine ⟨by rw [hl]; exact List.length_pos_iff.mpr nonempty, ?_⟩
    have hi : m.pattern < set.patterns.length := by
      rw [← List.length_map Pattern.expr, hexprs]
      exact denotes_lt hu
    have hp := List.getElem?_eq_getElem hi
    have he := at_exprs hp
    refine ⟨_, hp, ?_⟩
    rw [Expr.matches_zero_iff (plain_exprs _ (List.mem_of_getElem? he))]
    exact ⟨u, v, rfl, hl, (denotes_iff he).mpr hu⟩

theorem longestMatch_iff (fresh : Bool) {i : Nat} {text rest : List Char} (htext : text ≠ []) :
    set.longestMatch fresh (text ++ rest) = some ⟨i, text.length⟩ ↔ Cuts i text rest := by
  obtain ⟨_, hset', _, sound⟩ := documentPatterns_eq_ok
  obtain rfl := Except.ok.inj (hset.symm.trans hset')
  have best := set.longestMatch_best sound fresh (List.append_ne_nil_of_left_ne_nil htext rest)
  have best := best.congr fun m => wins_iff hset
  constructor
  · -- A longer text, or the same text by an earlier rule, would beat what was found.
    intro h
    rw [h] at best
    obtain ⟨⟨u, v, hw, hl, hu⟩, above⟩ := best
    obtain ⟨rfl, rfl⟩ := List.append_inj hw hl
    refine ⟨hu, fun j hj hd => ?_, ?_⟩
    · have := above ⟨j, text.length⟩ ⟨text, rest, rfl, rfl, hd⟩
      simp only [Match.Beats] at this
      omega
    · rintro u v rfl hne j hd
      have := above ⟨j, (text ++ u).length⟩ ⟨text ++ u, v, (List.append_assoc ..).symm, rfl, hd⟩
      have := List.length_pos_iff.mpr hne
      simp only [Match.Beats, List.length_append] at *
      omega
  · intro h
    refine @Match.Best.unique _ _ (some ⟨i, text.length⟩) best ⟨⟨text, rest, rfl, rfl, h.denotes⟩, ?_⟩
    rintro ⟨j, n⟩ ⟨u, v, hw, rfl, hd⟩
    simp only [Match.Beats]
    rcases List.append_eq_append_iff.mp hw with ⟨x, rfl, hrest⟩ | ⟨x, rfl, _⟩
    · have none : x = [] := by_contra fun hne => h.longest x v hrest hne j hd
      subst none
      rw [List.append_nil] at hd ⊢
      exact .inr ⟨rfl, Nat.le_of_not_lt fun hj => h.first j hj hd⟩
    · rw [List.length_append]
      by_cases none : x = []
      · subst none
        rw [List.append_nil] at h
        exact .inr ⟨by simp, Nat.le_of_not_lt fun hj => h.first j hj hd⟩
      · have := List.length_pos_iff.mpr none
        omega

end

/-- Something is cut off any text that is not empty. -/
theorem exists_cut {w : List Char} (hw : w ≠ []) :
    ∃ i text rest, w = text ++ rest ∧ Cuts i text rest := by
  obtain ⟨set, hset, _, sound⟩ := documentPatterns_eq_ok
  have best := (set.longestMatch_best sound false hw).congr fun m => wins_iff hset
  cases hm : set.longestMatch false w with
  | none =>
    rw [hm] at best
    obtain ⟨c, w, rfl⟩ := List.exists_cons_of_ne_nil hw
    by_cases hc : c = '\n'
    · exact absurd ⟨[c], w, rfl, rfl, [], by rw [hc], .nil⟩ (best ⟨2, 1⟩)
    · exact absurd ⟨[c], w, rfl, rfl, c, rfl, hc⟩ (best ⟨8, 1⟩)
  | some m =>
    rw [hm] at best
    obtain ⟨⟨text, rest, rfl, hl, hd⟩, _⟩ := best
    refine ⟨m.pattern, text, rest, rfl, (longestMatch_iff hset false (denotes_ne_nil hd)).mp ?_⟩
    rw [hm, ← hl]

theorem Cuts.unique {i i' : Nat} {text text' rest rest' : List Char} (h : Cuts i text rest)
    (h' : Cuts i' text' rest') (eq : text ++ rest = text' ++ rest') :
    i = i' ∧ text = text' ∧ rest = rest' := by
  obtain ⟨set, hset, _⟩ := documentPatterns_eq_ok
  have found := (longestMatch_iff hset false (denotes_ne_nil h.denotes)).mpr h
  have found' := (longestMatch_iff hset false (denotes_ne_nil h'.denotes)).mpr h'
  rw [← eq, found, Option.some.injEq, Match.mk.injEq] at found'
  obtain ⟨rfl, hl⟩ := found'
  exact ⟨rfl, List.append_inj eq hl⟩

/-! ## The first character of a text -/

/-- A letter of either case. -/
def IsLetter (c : Char) : Prop := 'A' ≤ c.toUpper ∧ c.toUpper ≤ 'Z'

instance : DecidablePred IsLetter := fun c =>
  inferInstanceAs (Decidable ('A' ≤ c.toUpper ∧ c.toUpper ≤ 'Z'))

/-- Which rules a text can belong to is decided by its first character, but for the rule of stray
characters. -/
theorem denotes_cons {j : Nat} {c : Char} {u : List Char} (h : Denotes j (c :: u)) :
    j = 0 ∧ c = '#' ∨ j = 1 ∧ c = ',' ∨ j = 2 ∧ c = '\n' ∨ j = 3 ∧ IsBlank c ∨ j = 4 ∧ IsLetter c ∨
      j = 5 ∧ c = '"' ∨ j = 6 ∧ c = '\'' ∨ j = 7 ∧ OpensName c ∨ j = 8 ∧ c ≠ '\n' ∧ u = [] := by
  match j, h with
  | 0, ⟨v, h, _⟩ => simp [(List.cons.inj h).1]
  | 1, ⟨v, h, _⟩ => simp [(List.cons.inj h).1]
  | 2, ⟨v, h, _⟩ => simp [(List.cons.inj h).1]
  | 3, ⟨_, h⟩ => simp [h c List.mem_cons_self]
  | 4, ⟨k, hk, h⟩ =>
    obtain ⟨l, name, hname, hA, hZ⟩ := exists_head_of_mem (mem_keywordNames.mpr ⟨k, hk, rfl⟩)
    rw [Spells, hname] at h
    cases h with
    | cons hl _ =>
      rcases hl with rfl | ⟨rfl, _⟩
      · simp [IsLetter, hA, hZ]
      · exact absurd hZ (by decide)
  | 5, ⟨v, h, _⟩ => simp [(List.cons.inj h).1]
  | 6, ⟨v, h, _⟩ => simp [(List.cons.inj h).1]
  | 7, ⟨d, v, h, hd, _⟩ => simp [(List.cons.inj h).1, hd]
  | 8, ⟨d, h, hd⟩ =>
    obtain ⟨rfl, rfl⟩ := List.cons.inj h
    simp [hd]

/-- A cut by the only rule that texts with this first character can belong to. -/
theorem cuts_of_only {i : Nat} {c : Char} {t rest : List Char}
    (only : ∀ {j u}, Denotes j (c :: u) → j = i ∨ j = 8 ∧ u = []) (h : Denotes i (c :: t))
    (longest : ∀ u v, rest = u ++ v → u ≠ [] → ¬ Denotes i (c :: (t ++ u))) :
    Cuts i (c :: t) rest := by
  have hi : i < 9 := denotes_lt h
  refine ⟨h, fun j hj hd => ?_, fun u v hrest hne j hd => ?_⟩
  · rcases only hd with rfl | ⟨rfl, _⟩ <;> omega
  · rcases only hd with rfl | ⟨_, hu⟩
    · exact longest u v hrest hne hd
    · exact hne (List.append_eq_nil_iff.mp hu).2

/-- The first character behind a cut does not go on with what was cut off. -/
theorem Cuts.not_denotes {i : Nat} {text rest : List Char} (h : Cuts i text rest) {c : Char}
    (hc : c ∈ rest.head?) : ¬ Denotes i (text ++ [c]) := by
  obtain ⟨rest, rfl⟩ := List.head?_eq_some_iff.mp hc
  exact h.longest [c] rest rfl (List.cons_ne_nil _ _) i

/-! ## The cuts of each rule -/

section

variable {t rest : List Char}

theorem cuts_comment : Cuts 0 t rest ↔ IsComment t ∧ ∀ c ∈ rest.head?, c = '\n' := by
  have only : ∀ {j u}, Denotes j ('#' :: u) → j = 0 ∨ j = 8 ∧ u = [] := fun h => by
    simpa [IsBlank, IsLetter, OpensName] using denotes_cons h
  constructor
  · intro h
    obtain ⟨v, rfl, hv⟩ := h.denotes
    refine ⟨h.denotes, fun c hc => by_contra fun hne => h.not_denotes hc ⟨v ++ [c], rfl, ?_⟩⟩
    simpa [hv] using Ne.symm hne
  · rintro ⟨⟨v, rfl, hv⟩, hrest⟩
    refine cuts_of_only only ⟨v, rfl, hv⟩ ?_
    rintro u w hu hne ⟨_, heq, hmem⟩
    obtain rfl := (List.cons.inj heq).2
    obtain ⟨d, u, rfl⟩ := List.exists_cons_of_ne_nil hne
    obtain rfl := hrest d (by rw [hu]; rfl)
    simp at hmem

theorem cuts_comma : Cuts 1 t rest ↔ IsComma t ∧ ∀ c ∈ rest.head?, ¬ IsSpace c := by
  have only : ∀ {j u}, Denotes j (',' :: u) → j = 1 ∨ j = 8 ∧ u = [] := fun h => by
    simpa [IsBlank, IsLetter, OpensName] using denotes_cons h
  constructor
  · intro h
    obtain ⟨v, rfl, hv⟩ := h.denotes
    refine ⟨h.denotes, fun c hc hs => h.not_denotes hc ⟨v ++ [c], rfl, ?_⟩⟩
    simpa [or_imp, forall_and] using ⟨hv, hs⟩
  · rintro ⟨⟨v, rfl, hv⟩, hrest⟩
    refine cuts_of_only only ⟨v, rfl, hv⟩ ?_
    rintro u w hu hne ⟨_, heq, hall⟩
    obtain rfl := (List.cons.inj heq).2
    obtain ⟨d, u, rfl⟩ := List.exists_cons_of_ne_nil hne
    exact hrest d (by rw [hu]; rfl) (hall d (by simp))

theorem cuts_blanks : Cuts 3 t rest ↔ IsBlanks t ∧ ∀ c ∈ rest.head?, ¬ IsBlank c := by
  constructor
  · intro h
    obtain ⟨hne, hall⟩ := h.denotes
    refine ⟨h.denotes, fun c hc hs => h.not_denotes hc ⟨by simp, ?_⟩⟩
    simpa [or_imp, forall_and] using ⟨hall, hs⟩
  · rintro ⟨⟨hne, hall⟩, hrest⟩
    obtain ⟨c, t, rfl⟩ := List.exists_cons_of_ne_nil hne
    have only : ∀ {j u}, Denotes j (c :: u) → j = 3 ∨ j = 8 ∧ u = [] := fun h => by
      rcases hall c List.mem_cons_self with rfl | rfl | rfl <;>
        simpa [IsBlank, IsLetter, OpensName] using denotes_cons h
    refine cuts_of_only only ⟨hne, hall⟩ ?_
    rintro u w hu hne ⟨_, hall⟩
    obtain ⟨d, u, rfl⟩ := List.exists_cons_of_ne_nil hne
    exact hrest d (by rw [hu]; rfl) (hall d (by simp))

theorem cuts_quoted {i : Nat} {quote : Char} (hi : Denotes i = IsQuoted quote)
    (only : ∀ {j u}, Denotes j (quote :: u) → j = i ∨ j = 8 ∧ u = []) :
    Cuts i t rest ↔ IsQuoted quote t := by
  constructor
  · intro h
    exact hi ▸ h.denotes
  · rintro ⟨v, rfl, hv⟩
    refine cuts_of_only only (hi ▸ ⟨v, rfl, hv⟩) ?_
    intro u w hu hne hd
    rw [hi] at hd
    obtain ⟨v', heq, hv'⟩ := hd
    rw [List.cons.injEq, List.append_assoc, List.singleton_append] at heq
    exact hne (Quoted.append_cons_inj hv hv' heq.2).2

theorem cuts_dqString : Cuts 5 t rest ↔ IsQuoted '"' t :=
  cuts_quoted rfl fun h => by simpa [IsBlank, IsLetter, OpensName] using denotes_cons h

theorem cuts_sqString : Cuts 6 t rest ↔ IsQuoted '\'' t :=
  cuts_quoted rfl fun h => by simpa [IsBlank, IsLetter, OpensName] using denotes_cons h

/-- Layout does not go on here: a comment that the document ends with is none. -/
def Stops (rest : List Char) : Prop :=
  ∀ c ∈ rest.head?, ¬ IsSpace c ∧ (c = '#' → '\n' ∉ rest)

/-- Layout goes up to where it stops, by induction on the layout. -/
theorem layout_le {v v' w : List Char} (hv : Layout v) (hrest : Stops rest) (hv' : Layout v')
    (heq : v ++ rest = v' ++ w) : v'.length ≤ v.length := by
  induction hv generalizing v' with
  | nil =>
    cases hv' with
    | nil => exact le_refl _
    | @space c u hc _ => exact absurd hc (hrest c (by rw [← List.nil_append rest, heq]; rfl)).1
    | @comment x u hx _ =>
      -- A comment with a line break behind it would have been part of the layout.
      refine absurd ?_ ((hrest '#' (by rw [← List.nil_append rest, heq]; rfl)).2 rfl)
      rw [← List.nil_append rest, heq]
      simp
  | @space c u hc _ ih =>
    cases hv' with
    | nil => exact Nat.zero_le _
    | space _ hu' =>
      have := ih hu' (List.cons.inj heq).2
      simpa using this
    | comment _ _ =>
      rw [(List.cons.inj heq).1] at hc
      exact absurd hc (by decide)
  | @comment x u hx _ ih =>
    cases hv' with
    | nil => exact Nat.zero_le _
    | space hc _ =>
      rw [← (List.cons.inj heq).1] at hc
      exact absurd hc (by decide)
    | @comment x' u' hx' hu' =>
      rw [List.cons_append, List.cons_append, List.append_assoc, List.append_assoc,
        List.cons_append, List.cons_append] at heq
      obtain ⟨rfl, behind⟩ := Quoted.append_cons_inj hx hx' (List.cons.inj heq).2
      have := ih hu' behind
      simp only [List.length_cons, List.length_append]
      omega

theorem Layout.append {u v : List Char} (hu : Layout u) (hv : Layout v) : Layout (u ++ v) := by
  induction hu with
  | nil => exact hv
  | space hc _ ih => exact .space hc ih
  | comment hx _ ih =>
    rw [List.cons_append, List.append_assoc]
    exact .comment hx ih

theorem cuts_indent : Cuts 2 t rest ↔ IsIndent t ∧ Stops rest := by
  constructor
  · intro h
    obtain ⟨v, rfl, hv⟩ := h.denotes
    refine ⟨h.denotes, fun c hc => ⟨fun hs => ?_, ?_⟩⟩
    · exact h.not_denotes hc ⟨v ++ [c], rfl, Layout.append hv (.space hs .nil)⟩
    · rintro rfl hmem
      obtain ⟨x, y, rfl, hx⟩ := List.eq_append_cons_of_mem hmem
      cases x with
      | nil => simp at hc
      | cons d x =>
        obtain rfl : d = '#' := by simpa using hc
        have hx : '\n' ∉ x := fun hmem => hx (List.mem_cons_of_mem _ hmem)
        refine h.longest ('#' :: (x ++ ['\n'])) y (by simp) (by simp) 2 ⟨_, rfl, ?_⟩
        exact Layout.append hv (.comment hx .nil)
  · rintro ⟨⟨v, rfl, hv⟩, hrest⟩
    have only : ∀ {j u}, Denotes j ('\n' :: u) → j = 2 ∨ j = 8 ∧ u = [] := fun h => by
      left
      simpa [IsBlank, IsLetter, OpensName] using denotes_cons h
    refine cuts_of_only only ⟨v, rfl, hv⟩ ?_
    rintro u w rfl hne ⟨_, heq, hvu⟩
    obtain rfl := (List.cons.inj heq).2
    have := layout_le hv hrest hvu (by rw [List.append_assoc])
    have := List.length_pos_iff.mpr hne
    simp only [List.length_append] at *
    omega

/-! ## Keywords and identifiers -/

theorem toUpper_of_upper {l : Char} (h : l = '_' ∨ 'A' ≤ l ∧ l ≤ 'Z') : l.toUpper = l := by
  simp only [char_eq_iff, char_le_iff, show '_'.toNat = 95 from rfl,
    show 'A'.toNat = 65 from rfl, show 'Z'.toNat = 90 from rfl] at h
  rw [char_eq_iff, toNat_toUpper]
  split <;> omega

theorem spells_mem {name u : List Char} (h : Spells name u) {c : Char} (hc : c ∈ u) :
    ∃ l ∈ name, c.toUpper = l ∨ l = '_' ∧ c = ' ' := by
  induction h with
  | nil => simp at hc
  | cons hd _ ih =>
    rcases List.mem_cons.mp hc with rfl | hc
    · exact ⟨_, List.mem_cons_self, hd⟩
    · obtain ⟨l, hl, h⟩ := ih hc
      exact ⟨l, List.mem_cons_of_mem _ hl, h⟩

/-- Names hold no character that ends a line or that separates names. -/
theorem not_mem_name {d : Char} (hd : d ∈ ['\n', '\r', '#', ',']) {j : Nat} {u : List Char}
    (h : Denotes j u) (hj : j = 4 ∨ j = 7) : d ∉ u := by
  intro hmem
  obtain ⟨noLetter, noName⟩ : (d ≠ ' ' ∧ ¬ (d.toUpper = '_' ∨ 'A' ≤ d.toUpper ∧ d.toUpper ≤ 'Z')) ∧
      ¬ ContinuesName d := by
    simp only [List.mem_cons, List.not_mem_nil, or_false] at hd
    rcases hd with rfl | rfl | rfl | rfl <;> decide
  rcases hj with rfl | rfl
  · obtain ⟨k, hk, h⟩ := h
    obtain ⟨l, hl, hc | ⟨_, hc⟩⟩ := spells_mem h hmem
    · subst hc
      exact noLetter.2 (letters_of_mem (mem_keywordNames.mpr ⟨k, hk, rfl⟩) _ hl)
    · exact noLetter.1 hc
  · obtain ⟨c, v, rfl, hc, hv⟩ := h
    rcases List.mem_cons.mp hmem with rfl | hmem
    · exact noName (.inl hc)
    · exact noName (hv d hmem)

theorem break_not_mem {j : Nat} {u : List Char} (h : Denotes j u) (hj : j = 4 ∨ j = 7) :
    '\n' ∉ u := not_mem_name (by decide) h hj

theorem denotes_name {c : Char} (hc : IsLetter c ∨ OpensName c) {j : Nat} {u : List Char}
    (h : Denotes j (c :: u)) : j = 4 ∨ j = 7 ∨ j = 8 ∧ u = [] := by
  rcases denotes_cons h with ⟨_, rfl⟩ | ⟨_, rfl⟩ | ⟨_, rfl⟩ | ⟨_, rfl | rfl | rfl⟩ | ⟨h, _⟩ | ⟨_, rfl⟩ |
    ⟨_, rfl⟩ | ⟨h, _⟩ | ⟨h, _, hu⟩
  all_goals first | exact absurd hc (by decide) | simp_all

/-- What a name takes of the first text, if it goes on there, is in the second text as well. -/
def NamesWithin (back back' : List Char) : Prop :=
  ∀ ⦃j w u⦄, j = 4 ∨ j = 7 → Denotes j (w ++ u) → u <+: back → u <+: back'

/-- The same text in front of both. -/
theorem NamesWithin.append {back back' : List Char} (h : NamesWithin back back') (t : List Char) :
    NamesWithin (t ++ back) (t ++ back') := by
  intro j w u hj hd hu
  rcases List.prefix_or_prefix_of_prefix hu (List.prefix_append t back) with inside | ⟨v, rfl⟩
  · exact inside.trans (List.prefix_append _ _)
  · rw [← List.append_assoc] at hd
    rw [List.prefix_append_right_inj] at hu ⊢
    exact h hj hd hu

/-- No name goes on with a line break. -/
theorem namesWithin_of_break (behind back' : List Char) :
    NamesWithin ('\n' :: behind) back' := by
  intro j w u hj hd hu
  cases u with
  | nil => exact List.nil_prefix
  | cons c u =>
    obtain ⟨rfl, _⟩ := List.cons_prefix_cons.mp hu
    exact absurd (List.mem_append_right _ List.mem_cons_self) (break_not_mem hd hj)

/-- If a text goes on as a name in the second text, it goes on as a name in the first one. -/
def NamesEnd (text back back' : List Char) : Prop :=
  ∀ ⦃j v⦄, j = 4 ∨ j = 7 → Denotes j (text ++ v) → v ≠ [] → v <+: back' →
    ∃ j' v', Denotes j' (text ++ v') ∧ v' ≠ [] ∧ v' <+: back

theorem NamesWithin.ends {back back' : List Char} (h : NamesWithin back' back) (text : List Char) :
    NamesEnd text back back' :=
  fun j v hj hd hne hv => ⟨j, v, hd, hne, h hj hd hv⟩

/-- What is cut off as a keyword or an identifier depends only on how names could go on. -/
theorem Cuts.name {i : Nat} {rest' : List Char} (h : Cuts i t rest) (hi : i = 4 ∨ i = 7)
    (names : NamesEnd t rest rest') : Cuts i t rest' := by
  refine ⟨h.denotes, h.first, fun u v heq hne j hd => ?_⟩
  have hj : j = 4 ∨ j = 7 := by
    obtain ⟨c, t, rfl⟩ := List.exists_cons_of_ne_nil (denotes_ne_nil h.denotes)
    have kind : IsLetter c ∨ OpensName c := by
      rcases hi with rfl | rfl
      · exact .inl (by simpa using denotes_cons h.denotes)
      · exact .inr (by simpa using denotes_cons h.denotes)
    rcases denotes_name kind hd with hj | hj | ⟨_, hu⟩
    · exact .inl hj
    · exact .inr hj
    · exact absurd (List.append_eq_nil_iff.mp hu).2 hne
  obtain ⟨j', u', hd', hne', v', hv'⟩ := names hj hd hne ⟨v, heq.symm⟩
  exact h.longest u' v' hv'.symm hne' j' hd'

/-- A line break behind what is left does not change what is cut off as a keyword or an
identifier. -/
theorem Cuts.name_before_break {i : Nat} (h : Cuts i t rest) (hi : i = 4 ∨ i = 7)
    (behind : List Char) : Cuts i t (rest ++ '\n' :: behind) := by
  have names := (namesWithin_of_break behind []).append rest
  rw [List.append_nil] at names
  exact h.name hi (names.ends t)

theorem mem_head_before_break {behind : List Char} {c : Char}
    (hc : c ∈ (rest ++ '\n' :: behind).head?) : c ∈ rest.head? ∨ rest = [] ∧ c = '\n' := by
  cases rest with
  | nil => exact .inr ⟨rfl, (Option.some.inj hc).symm⟩
  | cons d rest => exact .inl hc

/-- A line break behind what is left does not change what is cut off, if that is neither layout nor
a comma at the end of the text nor a stray character. -/
theorem Cuts.before_break {i : Nat} (h : Cuts i t rest) (layout : i ≠ 2) (stray : i ≠ 8)
    (comma : i = 1 → rest ≠ []) (behind : List Char) : Cuts i t (rest ++ '\n' :: behind) := by
  match i with
  | 0 =>
    obtain ⟨ht, hrest⟩ := cuts_comment.mp h
    exact cuts_comment.mpr ⟨ht, fun c hc => (mem_head_before_break hc).elim (hrest c) (·.2)⟩
  | 1 =>
    obtain ⟨ht, hrest⟩ := cuts_comma.mp h
    exact cuts_comma.mpr ⟨ht, fun c hc =>
      (mem_head_before_break hc).elim (hrest c) fun ⟨hnil, _⟩ => absurd hnil (comma rfl)⟩
  | 2 => exact absurd rfl layout
  | 3 =>
    obtain ⟨ht, hrest⟩ := cuts_blanks.mp h
    refine cuts_blanks.mpr ⟨ht, fun c hc => (mem_head_before_break hc).elim (hrest c) ?_⟩
    rintro ⟨_, rfl⟩
    decide
  | 4 => exact h.name_before_break (.inl rfl) behind
  | 5 => exact cuts_dqString.mpr (cuts_dqString.mp h)
  | 6 => exact cuts_sqString.mpr (cuts_sqString.mp h)
  | 7 => exact h.name_before_break (.inr rfl) behind
  | 8 => exact absurd rfl stray
  | n + 9 => exact absurd (denotes_lt h.denotes) (by simp [exprs])

/-- No rule goes on further in the second text than in the first one, as far as it looks at the next
character: it is the same one, or the first text goes on with a blank, or both with letters. -/
structure Onward (back back' : List Char) : Prop where
  head : ∀ c ∈ back'.head?, ∃ d ∈ back.head?, d = c ∨ IsBlank d ∨ IsLetter d ∧ IsLetter c
  broken : '\n' ∈ back' → '\n' ∈ back

theorem Onward.forall_head {back back' : List Char} (h : Onward back back') {P : Char → Prop}
    (hP : ∀ c ∈ back.head?, P c) (blank : ∀ c, IsBlank c → ¬ P c)
    (letter : ∀ c d, IsLetter d → P d → IsLetter c → P c) : ∀ c ∈ back'.head?, P c := by
  intro c hc
  obtain ⟨d, hd, rfl | hblank | ⟨hd', hc'⟩⟩ := h.head c hc
  · exact hP d hd
  · exact absurd (hP d hd) (blank d hblank)
  · exact letter c d hd' (hP d hd) hc'

/-- The same text in front of both. -/
theorem Onward.append {back back' text : List Char} (h : Onward back back') (ne : text ≠ []) :
    Onward (text ++ back) (text ++ back') where
  head c hc := by
    rw [List.head?_append_of_ne_nil _ ne] at hc
    exact ⟨c, by rwa [List.head?_append_of_ne_nil _ ne], .inl rfl⟩
  broken hmem := by
    rw [List.mem_append] at hmem ⊢
    exact hmem.imp_right h.broken

theorem not_isSpace_of_isLetter {c : Char} (h : IsLetter c) : ¬ IsSpace c := by
  rintro ((rfl | rfl | rfl) | rfl) <;> exact absurd h (by decide)

/-- What is cut off in front of the first text is cut off in front of the second one. -/
theorem Cuts.onward {i : Nat} {rest' : List Char} (h : Cuts i t rest) (stray : i ≠ 8)
    (onward : Onward rest rest') (names : NamesEnd t rest rest') : Cuts i t rest' := by
  match i with
  | 0 =>
    obtain ⟨ht, hrest⟩ := cuts_comment.mp h
    refine cuts_comment.mpr ⟨ht, onward.forall_head hrest ?_ ?_⟩
    · rintro _ hb rfl
      exact absurd hb (by decide)
    · rintro _ _ hl rfl
      exact absurd hl (by decide)
  | 1 =>
    obtain ⟨ht, hrest⟩ := cuts_comma.mp h
    exact cuts_comma.mpr ⟨ht, onward.forall_head hrest (fun _ hb hs => hs (.inl hb))
      fun _ _ _ _ hl => not_isSpace_of_isLetter hl⟩
  | 2 =>
    -- A comment behind it would be layout only with a line break, and none was added.
    obtain ⟨ht, hrest⟩ := cuts_indent.mp h
    refine cuts_indent.mpr ⟨ht, onward.forall_head ?_ (fun _ hb hs => hs.1 (.inl hb)) ?_⟩
    · exact fun c hc => ⟨(hrest c hc).1, fun hash hmem => (hrest c hc).2 hash (onward.broken hmem)⟩
    · rintro c _ _ _ hl
      refine ⟨not_isSpace_of_isLetter hl, ?_⟩
      rintro rfl
      exact absurd hl (by decide)
  | 3 =>
    obtain ⟨ht, hrest⟩ := cuts_blanks.mp h
    exact cuts_blanks.mpr ⟨ht, onward.forall_head hrest (fun _ hb hs => hs hb)
      fun _ _ _ _ hl hb => not_isSpace_of_isLetter hl (.inl hb)⟩
  | 4 => exact h.name (.inl rfl) names
  | 5 => exact cuts_dqString.mpr (cuts_dqString.mp h)
  | 6 => exact cuts_sqString.mpr (cuts_sqString.mp h)
  | 7 => exact h.name (.inr rfl) names
  | 8 => exact absurd rfl stray
  | n + 9 => exact absurd (denotes_lt h.denotes) (by simp [exprs])

theorem spells_self {name : List Char} (h : name ∈ keywordNames) : Spells name name :=
  List.forall₂_same.mpr fun _ hl => .inl (toUpper_of_upper (letters_of_mem h _ hl))

theorem eq_of_spells {name u : List Char} (hu : ∀ c ∈ u, c = '_' ∨ 'A' ≤ c ∧ c ≤ 'Z')
    (h : Spells name u) : name = u := by
  induction h with
  | nil => rfl
  | @cons l c name u hd _ ih =>
    obtain ⟨hc, hu⟩ := List.forall_mem_cons.mp hu
    rw [ih hu]
    rcases hd with rfl | ⟨_, rfl⟩
    · rw [toUpper_of_upper hc]
    · exact absurd hc (by decide)

/-- Only keywords begin with a capital. -/
theorem denotes_capital {c : Char} (hc : 'A' ≤ c ∧ c ≤ 'Z') {j : Nat} {u : List Char}
    (h : Denotes j (c :: u)) : j = 4 ∨ j = 8 ∧ u = [] := by
  have letter : IsLetter c := by rwa [IsLetter, toUpper_of_upper (.inr hc)]
  rcases denotes_name (.inl letter) h with hj | rfl | hj
  · exact .inl hj
  · obtain ⟨_, _, heq, hd, _⟩ := h
    rw [← (List.cons.inj heq).1, OpensName] at hd
    simp only [char_eq_iff, char_le_iff, show 'a'.toNat = 97 from rfl,
      show 'Z'.toNat = 90 from rfl, show '_'.toNat = 95 from rfl] at hc hd
    omega
  · exact .inr hj

/-- No keyword goes on where another one ends. -/
theorem not_isKeyword_append {name : List Char} (h : name ∈ keywordNames) {d : Char}
    {u : List Char} (hd : d = ' ' ∨ d = ',' ∨ d = '\n') : ¬ IsKeyword (name ++ d :: u) := by
  rintro ⟨k, hk, hs⟩
  have hname := mem_keywordNames.mpr ⟨k, hk, rfl⟩
  have front := eq_of_spells (letters_of_mem h) (List.forall₂_take_append _ _ _ hs)
  obtain ⟨l, rest, hl, _, back⟩ :=
    List.forall₂_cons_right_iff.mp (List.forall₂_drop_append _ _ _ hs)
  -- It would go on with an underscore.
  have joint : l = '_' := by
    rcases hl with hl | ⟨hl, _⟩
    · have mem : l ∈ k.label.toList := List.mem_of_mem_drop (back ▸ List.mem_cons_self)
      rw [← hl] at mem
      have letter := letters_of_mem hname _ mem
      rcases hd with rfl | rfl | rfl <;> exact absurd letter (by decide)
    · exact hl
  have clash : (name ++ ['_']).isPrefixOf k.label.toList := by
    rw [List.isPrefixOf_iff_prefix, ← List.take_append_drop name.length k.label.toList, front,
      back, joint]
    exact ⟨rest, by simp⟩
  have noClash : ∀ a ∈ keywordNames, ∀ b ∈ keywordNames, (a ++ ['_']).isPrefixOf b = false := by
    decide +kernel
  exact Bool.false_ne_true ((noClash _ h _ hname).symm.trans clash)

/-- A keyword in capitals is cut off in front of a space, a comma or a line break. -/
theorem cuts_keyword {name : List Char} (h : name ∈ keywordNames)
    (hrest : ∀ c ∈ rest.head?, c = ' ' ∨ c = ',' ∨ c = '\n') : Cuts 4 name rest := by
  obtain ⟨k, hk, rfl⟩ := mem_keywordNames.mp h
  have denotes : Denotes 4 k.label.toList := ⟨k, hk, spells_self h⟩
  obtain ⟨c, t, hname, capital⟩ := exists_head_of_mem h
  rw [hname] at h denotes ⊢
  refine cuts_of_only (denotes_capital capital) denotes ?_
  rintro u v rfl hne
  obtain ⟨d, u, rfl⟩ := List.exists_cons_of_ne_nil hne
  exact not_isKeyword_append h (hrest d rfl)

/-- An identifier at the end of a document. -/
theorem cuts_last_identifier (h : IsIdentifier t) (other : ¬ IsKeyword t) : Cuts 7 t [] := by
  refine ⟨h, fun j hj hd => ?_, ?_⟩
  · obtain ⟨c, v, rfl, hc, _⟩ := h
    rcases denotes_name (.inr hc) hd with rfl | rfl | ⟨rfl, _⟩
    · exact other hd
    · exact absurd hj (by decide)
    · exact absurd hj (by decide)
  · rintro u v heq ne
    exact absurd (List.append_eq_nil_iff.mp heq.symm).1 ne

/-- What is cut off is no shorter than another text of a rule with which the document goes on. -/
theorem Cuts.length_le {i j : Nat} {u v : List Char} (h : Cuts i t rest) (hd : Denotes j u)
    (heq : t ++ rest = u ++ v) : u.length ≤ t.length := by
  rcases List.append_eq_append_iff.mp heq with ⟨x, rfl, hrest⟩ | ⟨x, rfl, _⟩
  · by_cases none : x = []
    · simp [none]
    · exact absurd hd (h.longest x v hrest none j)
  · simp

end

end ScrapeConfig.Rule
