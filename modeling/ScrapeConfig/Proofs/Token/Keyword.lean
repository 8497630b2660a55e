import ScrapeConfig.Proofs.Lexer.Cut
import ScrapeConfig.Token.Emission

/-!
# Keywords in the table

Whatever spelling of a keyword a document has, the keyword table finds the kind of this keyword.

Results:
1. `Keyword.normalizeChars_of_spells`: the spellings of a name are normalized to this name.
2. `Keyword.lookup_of_spells`: a spelling is looked up as the keyword it spells.
3. `Keyword.isKeyword_of_lookup`: an identifier that is looked up as a keyword spells it.
-/

namespace ScrapeConfig

open Lexical Rule

namespace Keyword

theorem not_isBlank_of_upper {c : Char} (h : c.toUpper = '_' ∨ 'A' ≤ c.toUpper ∧ c.toUpper ≤ 'Z') :
    Text.isBlank c = false := by
  simp only [char_eq_iff, char_le_iff, toNat_toUpper, show '_'.toNat = 95 from rfl,
    show 'A'.toNat = 65 from rfl, show 'Z'.toNat = 90 from rfl] at h
  simp only [Text.isBlank, Text.blankRanges, List.any_cons, List.any_nil, Bool.or_false,
    Bool.or_eq_false_iff, Bool.and_eq_false_iff, decide_eq_false_iff_not]
  split at h <;> omega

/-- Behind an underscore stands a character that is none. -/
def Joined (name : List Char) : Prop :=
  ∀ s ∈ name.tails, s.head? = some '_' → s.tail.head?.any (· ≠ '_')

/-- The words of a spelling, put together again, by induction on the spelling. -/
theorem splitWords_of_spells {name u : List Char}
    (letters : ∀ l ∈ name, l = '_' ∨ 'A' ≤ l ∧ l ≤ 'Z') (joined : Joined name) (h : Spells name u) :
    (List.intercalate ['_'] ((Text.splitWords u).1 :: (Text.splitWords u).2)).map Char.toUpper =
        name ∧ (name.head?.any (· ≠ '_') → (Text.splitWords u).1 ≠ []) := by
  induction h with
  | nil => simp [Text.splitWords]
  | @cons l c name u hd tail ih =>
    obtain ⟨hl, letters⟩ := List.forall_mem_cons.mp letters
    rw [Joined, List.tails_cons, List.forall_mem_cons] at joined
    obtain ⟨ih, front⟩ := ih letters joined.2
    rcases hd with rfl | ⟨rfl, rfl⟩
    · have split : Text.splitWords (c :: u) =
          (c :: (Text.splitWords u).1, (Text.splitWords u).2) := by
        rw [Text.splitWords, List.foldr_cons]
        simp only [not_isBlank_of_upper hl]
        rfl
      rw [split]
      refine ⟨?_, fun _ => List.cons_ne_nil _ _⟩
      rw [List.intercalate_cons_cons_left, List.map_cons, ih]
    · have inner : (Text.splitWords u).1 ≠ [] := front (joined.1 rfl)
      have split : Text.splitWords (' ' :: u) =
          ([], (Text.splitWords u).1 :: (Text.splitWords u).2) := by
        rw [Text.splitWords, List.foldr_cons]
        show (if Text.isBlank ' ' then _ else _) = _
        rw [if_pos (by decide)]
        show ([], if (Text.splitWords u).1.isEmpty then _ else _) = _
        rw [if_neg (by simpa using inner)]
        rfl
      rw [split]
      refine ⟨?_, by simp⟩
      rw [List.intercalate_cons_cons, List.nil_append, List.map_append, ih]
      rfl

theorem joined_of_mem {name : List Char} (hname : name ∈ keywordNames) :
    Joined name ∧ name.head?.any (· ≠ '_') := by
  have joined : ∀ name ∈ keywordNames, Joined name ∧ name.head?.any (· ≠ '_') := by
    unfold Joined
    decide +kernel
  exact joined name hname

theorem normalizeChars_of_spells {name u : List Char} (hname : name ∈ keywordNames)
    (h : Spells name u) : normalizeChars u = name := by
  obtain ⟨joined, opening⟩ := joined_of_mem hname
  obtain ⟨split, front⟩ := splitWords_of_spells (letters_of_mem hname) joined h
  rw [normalizeChars, Text.words]
  show List.map _ (List.intercalate _ (if (Text.splitWords u).1.isEmpty then _ else _)) = _
  rw [if_neg (by simpa using front opening)]
  exact split

/-- Behind white space within a keyword stands a letter. -/
theorem letter_of_isSpace {w u : List Char} {c : Char} (hc : IsSpace c)
    (h : IsKeyword (w ++ c :: u)) : ∃ d v, u = d :: v ∧ IsLetter d := by
  obtain ⟨k, hk, spells⟩ := h
  have hname := mem_keywordNames.mpr ⟨k, hk, rfl⟩
  obtain ⟨l, rest, hl, behind, back⟩ :=
    List.forall₂_cons_right_iff.mp (List.forall₂_drop_append _ _ _ spells)
  have letters : ∀ x ∈ l :: rest, x = '_' ∨ 'A' ≤ x ∧ x ≤ 'Z' := by
    rw [← back]
    exact fun x hx => letters_of_mem hname x (List.mem_of_mem_drop hx)
  obtain ⟨first, letters⟩ := List.forall_mem_cons.mp letters
  have joint : l = '_' := by
    rcases hl with rfl | ⟨rfl, _⟩
    · rcases hc with (rfl | rfl | rfl) | rfl <;> exact absurd first (by decide)
    · rfl
  have suffix : l :: rest ∈ k.label.toList.tails := by
    rw [← back, List.mem_tails]
    exact List.drop_suffix _ _
  have onward := (joined_of_mem hname).1 _ suffix (congrArg some joint)
  cases behind with
  | nil => cases onward
  | @cons l' d rest u hd _ =>
    have ne : l' ≠ '_' := of_decide_eq_true onward
    have upper : d.toUpper = l' := hd.resolve_right fun ⟨h, _⟩ => ne h
    refine ⟨d, u, rfl, ?_⟩
    rw [IsLetter, upper]
    exact (letters l' List.mem_cons_self).resolve_left ne

theorem lookup_of_spells {k : TokenKind} (hk : k ∈ TokenKind.keywords) {u : List Char}
    (h : Spells k.label.toList u) : lookup (String.ofList u) = some k := by
  have table : ∀ k ∈ TokenKind.keywords, table.lookup k.label = some k := by decide +kernel
  have normal := normalizeChars_of_spells (mem_keywordNames.mpr ⟨k, hk, rfl⟩) h
  rw [lookup, normalize, String.toList_ofList, normal, String.ofList_toList]
  exact table k hk

theorem lookup_comma : lookup "," = some .comma := by decide +kernel

theorem lookup_structural :
    lookup "BLOCK_OPEN" = some .blockOpen ∧ lookup "SAME_LEVEL" = some .sameLevel ∧
      lookup "BLOCK_CLOSE" = some .blockClose ∧ lookup "BAD_INDENT" = some .badIndent ∧
      lookup "CTX" = some .ctx ∧ lookup "EOF" = some .eof := by
  decide +kernel

theorem not_isStructural {k : TokenKind} (hk : k ∈ TokenKind.keywords) : k.isStructural = false :=
  (by decide : ∀ k ∈ TokenKind.keywords, k.isStructural = false) k hk

/-! ## Identifiers in the table -/

theorem not_isBlank_of_continuesName {c : Char} (h : ContinuesName c) : Text.isBlank c = false := by
  simp only [ContinuesName, OpensName, char_eq_iff, char_le_iff, show 'a'.toNat = 97 from rfl,
    show 'z'.toNat = 122 from rfl, show '_'.toNat = 95 from rfl, show '0'.toNat = 48 from rfl,
    show '9'.toNat = 57 from rfl] at h
  simp only [Text.isBlank, Text.blankRanges, List.any_cons, List.any_nil, Bool.or_false,
    Bool.or_eq_false_iff, Bool.and_eq_false_iff, decide_eq_false_iff_not]
  omega

theorem splitWords_of_not_isBlank {u : List Char} (h : ∀ c ∈ u, Text.isBlank c = false) :
    Text.splitWords u = (u, []) := by
  induction u with
  | nil => rfl
  | cons c u ih =>
    obtain ⟨hc, hu⟩ := List.forall_mem_cons.mp h
    have rest := ih hu
    rw [Text.splitWords] at rest ⊢
    rw [List.foldr_cons, rest]
    simp only [hc]
    rfl

/-- An identifier is one word. -/
theorem normalizeChars_of_isIdentifier {u : List Char} (h : IsIdentifier u) :
    normalizeChars u = u.map Char.toUpper := by
  obtain ⟨c, v, rfl, hc, hv⟩ := h
  have blanks : ∀ d ∈ c :: v, Text.isBlank d = false :=
    List.forall_mem_cons.mpr ⟨not_isBlank_of_continuesName (.inl hc),
      fun d hd => not_isBlank_of_continuesName (hv d hd)⟩
  rw [normalizeChars, Text.words, splitWords_of_not_isBlank blanks]
  show List.map Char.toUpper (List.intercalate ['_'] [c :: v]) = _
  rw [List.intercalate_singleton]

theorem mem_table {name : String} {k : TokenKind} (h : table.lookup name = some k) :
    (k ∈ TokenKind.keywords ∧ k.label = name) ∨ k.isStructural ∨ name = "," := by
  obtain ⟨front, back, split, _⟩ := List.lookup_eq_some_iff.mp h
  have entry : (name, k) ∈ table := split ▸ List.mem_append_right _ List.mem_cons_self
  rcases List.mem_append.mp entry with named | comma
  · obtain ⟨k, hk, heq⟩ := List.mem_map.mp named
    obtain ⟨rfl, rfl⟩ := Prod.mk.inj heq
    rcases List.mem_append.mp hk with hk | hk
    · exact .inl ⟨hk, rfl⟩
    · exact .inr (.inl (List.contains_iff_mem.mpr hk))
  · exact .inr (.inr (Prod.mk.inj (List.mem_singleton.mp comma)).1)

/-- Only spellings of keywords are identifiers that the table resolves to something other than
layout. -/
theorem isKeyword_of_lookup {u : List Char} (hu : IsIdentifier u) {k : TokenKind}
    (h : lookup (String.ofList u) = some k) : IsKeyword u ∨ k.isStructural := by
  rw [lookup, normalize, String.toList_ofList, normalizeChars_of_isIdentifier hu] at h
  rcases mem_table h with ⟨hk, label⟩ | structural | comma
  · refine .inl ⟨k, hk, ?_⟩
    rw [label, String.toList_ofList, Spells, List.forall₂_map_left_iff, List.forall₂_same]
    exact fun _ _ => .inl rfl
  · exact .inr structural
  · -- No capital is a comma.
    obtain ⟨c, v, rfl, hc, _⟩ := hu
    have capital : c.toUpper = ',' := by
      have chars := congrArg String.toList comma
      rw [String.toList_ofList, List.map_cons] at chars
      exact (List.cons.inj chars).1
    simp only [OpensName, char_eq_iff, char_le_iff, toNat_toUpper, show 'a'.toNat = 97 from rfl,
      show 'z'.toNat = 122 from rfl, show '_'.toNat = 95 from rfl,
      show ','.toNat = 44 from rfl] at hc capital
    split at capital <;> omega

end Keyword

end ScrapeConfig
