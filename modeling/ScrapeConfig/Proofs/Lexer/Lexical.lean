import Mathlib.Data.List.Forall2
import ScrapeConfig.Lexer.Rule
import ScrapeConfig.Proofs.Pattern.Language
import ScrapeConfig.Token.Kind

/-!
# The lexical classes of documents

Each rule of documents stands for a set of texts. The sets are written down here without patterns,
and shown to be what the pattern of each rule denotes.

Results:
1. `Lexical.Layout`: white space and whole comment lines, the texts behind a line break.
2. `Lexical.Spells`: the spellings of a keyword.
3. `Rule.has_exprs`: the expressions of the patterns of document rules.
4. `Rule.Denotes`: the texts of a rule, by its index.
5. `Rule.denotes_iff`: they are the texts that the expression of the rule's pattern denotes.
-/

namespace ScrapeConfig

namespace Lexical

/-! ## Characters -/

/-- White space that does not end a line. -/
def IsBlank (c : Char) : Prop := c = ' ' ∨ c = '\t' ∨ c = '\r'

def IsSpace (c : Char) : Prop := IsBlank c ∨ c = '\n'

def OpensName (c : Char) : Prop := 'a' ≤ c ∧ c ≤ 'z' ∨ c = '_'

def ContinuesName (c : Char) : Prop := OpensName c ∨ '0' ≤ c ∧ c ≤ '9'

instance : DecidablePred IsBlank := fun c => inferInstanceAs (Decidable (c = ' ' ∨ _))
instance : DecidablePred IsSpace := fun c => inferInstanceAs (Decidable (IsBlank c ∨ _))
instance : DecidablePred OpensName := fun c => inferInstanceAs (Decidable ('a' ≤ c ∧ _ ∨ _))
instance : DecidablePred ContinuesName := fun c => inferInstanceAs (Decidable (OpensName c ∨ _))

theorem char_eq_iff {c d : Char} : c = d ↔ c.toNat = d.toNat := Char.toNat_inj.symm

theorem char_le_iff {c d : Char} : c ≤ d ↔ c.toNat ≤ d.toNat := Iff.rfl

theorem toNat_le_last (c : Char) : c.toNat ≤ CodeRange.last := by
  have := c.valid
  simp only [UInt32.isValidChar, Nat.isValidChar] at this
  simp only [Char.toNat, CodeRange.last]
  omega

theorem toNat_toUpper (c : Char) :
    c.toUpper.toNat = if 97 ≤ c.toNat ∧ c.toNat ≤ 122 then c.toNat - 32 else c.toNat := by
  unfold Char.toUpper
  split
  · next h =>
    have lower : 97 ≤ c.toNat ∧ c.toNat ≤ 122 := h
    rw [if_pos lower]
    show (c.val + ('A'.val - 'a'.val)).toNat = c.val.toNat - 32
    have : 97 ≤ c.val.toNat ∧ c.val.toNat ≤ 122 := h
    rw [show 'A'.val - 'a'.val = (4294967264 : UInt32) from rfl, UInt32.toNat_add]
    simp only [UInt32.reduceToNat]
    omega
  · next h => exact (if_neg h).symm

theorem toNat_toLower (c : Char) :
    c.toLower.toNat = if 65 ≤ c.toNat ∧ c.toNat ≤ 90 then c.toNat + 32 else c.toNat := by
  unfold Char.toLower
  split
  · next h =>
    have upper : 65 ≤ c.toNat ∧ c.toNat ≤ 90 := ⟨h.1, h.2⟩
    rw [if_pos upper]
    show (c.val + ('a'.val - 'A'.val)).toNat = c.val.toNat + 32
    have : 65 ≤ c.val.toNat ∧ c.val.toNat ≤ 90 := ⟨h.1, h.2⟩
    rw [show 'a'.val - 'A'.val = (32 : UInt32) from rfl, UInt32.toNat_add]
    simp only [UInt32.reduceToNat]
    omega
  · next h => exact (if_neg h).symm

/-! ## Texts -/

def IsComment (u : List Char) : Prop := ∃ v, u = '#' :: v ∧ '\n' ∉ v

def IsComma (u : List Char) : Prop := ∃ v, u = ',' :: v ∧ ∀ c ∈ v, IsSpace c

/-- White space and whole comment lines. -/
inductive Layout : List Char → Prop
  | nil : Layout []
  | space {c : Char} {u : List Char} : IsSpace c → Layout u → Layout (c :: u)
  | comment {v u : List Char} : '\n' ∉ v → Layout u → Layout ('#' :: (v ++ '\n' :: u))

def IsIndent (u : List Char) : Prop := ∃ v, u = '\n' :: v ∧ Layout v

def IsBlanks (u : List Char) : Prop := u ≠ [] ∧ ∀ c ∈ u, IsBlank c

/-- A text spells a name in capitals if it has the same letters in any case, and underscores or
spaces where the name has underscores. -/
def Spells : (name u : List Char) → Prop :=
  List.Forall₂ fun l c => c.toUpper = l ∨ l = '_' ∧ c = ' '

def IsKeyword (u : List Char) : Prop := ∃ k ∈ TokenKind.keywords, Spells k.label.toList u

instance : DecidablePred IsKeyword := fun u => inferInstanceAs (Decidable
  (∃ k ∈ TokenKind.keywords, List.Forall₂ (fun l c => c.toUpper = l ∨ l = '_' ∧ c = ' ')
    k.label.toList u))

def IsQuoted (quote : Char) (u : List Char) : Prop := ∃ v, u = quote :: (v ++ [quote]) ∧ quote ∉ v

def IsIdentifier (u : List Char) : Prop :=
  ∃ c v, u = c :: v ∧ OpensName c ∧ ∀ d ∈ v, ContinuesName d

def IsStray (u : List Char) : Prop := ∃ c, u = [c] ∧ c ≠ '\n'

/-- Layout is what repeating white space and comment lines gives. -/
theorem layout_iff_flatten {u : List Char} :
    Layout u ↔ ∃ xs : List (List Char), u = xs.flatten ∧
      ∀ x ∈ xs, (∃ c, x = [c] ∧ IsSpace c) ∨ ∃ v, x = '#' :: (v ++ ['\n']) ∧ '\n' ∉ v := by
  constructor
  · intro h
    induction h with
    | nil => exact ⟨[], rfl, by simp⟩
    | @space c u hc _ ih =>
      obtain ⟨xs, rfl, hxs⟩ := ih
      exact ⟨[c] :: xs, rfl, List.forall_mem_cons.mpr ⟨.inl ⟨c, rfl, hc⟩, hxs⟩⟩
    | @comment v u hv _ ih =>
      obtain ⟨xs, rfl, hxs⟩ := ih
      exact ⟨('#' :: (v ++ ['\n'])) :: xs, by simp, List.forall_mem_cons.mpr ⟨.inr ⟨v, rfl, hv⟩, hxs⟩⟩
  · rintro ⟨xs, rfl, hxs⟩
    induction xs with
    | nil => exact .nil
    | cons x xs ih =>
      have ih := ih (List.forall_mem_cons.mp hxs).2
      rcases hxs x List.mem_cons_self with ⟨c, rfl, hc⟩ | ⟨v, rfl, hv⟩
      · exact .space hc ih
      · simpa using Layout.comment hv ih

end Lexical

/-! ## What the patterns of the rules denote -/

namespace Expr

variable {rs : List CodeRange} {e : Expr} {es : List Expr} {u : List Char}

theorem denotes_seq_symbols :
    (seq (.symbols rs :: es)).Denotes u ↔
      ∃ c v, u = c :: v ∧ CodeRange.covers rs c.toNat ∧ (seq es).Denotes v := by
  constructor
  · rintro ⟨_, v, rfl, ⟨c, rfl, hc⟩, hv⟩
    exact ⟨c, v, rfl, hc, hv⟩
  · rintro ⟨c, v, rfl, hc, hv⟩
    exact ⟨[c], v, rfl, ⟨c, rfl, hc⟩, hv⟩

theorem denotes_star_symbols :
    (star (.symbols rs)).Denotes u ↔ ∀ c ∈ u, CodeRange.covers rs c.toNat := by
  constructor
  · rintro ⟨xs, rfl, hxs⟩ c hc
    obtain ⟨x, hx, hcx⟩ := List.mem_flatten.mp hc
    obtain ⟨d, rfl, hd⟩ := hxs x hx
    rwa [List.mem_singleton.mp hcx]
  · intro h
    refine ⟨u.map ([·]), by rw [← List.flatMap_def, List.flatMap_singleton'], ?_⟩
    intro x hx
    obtain ⟨c, hc, rfl⟩ := List.mem_map.mp hx
    exact ⟨c, rfl, h c hc⟩

theorem denotes_plus_symbols :
    (plus (.symbols rs)).Denotes u ↔ u ≠ [] ∧ ∀ c ∈ u, CodeRange.covers rs c.toNat := by
  rw [← denotes_star_symbols]
  constructor
  · rintro ⟨xs, hne, rfl, hxs⟩
    refine ⟨?_, xs, rfl, hxs⟩
    cases xs with
    | nil => exact absurd rfl hne
    | cons x xs =>
      obtain ⟨c, rfl, _⟩ := hxs x List.mem_cons_self
      exact List.cons_ne_nil _ _
  · rintro ⟨hne, xs, rfl, hxs⟩
    refine ⟨xs, ?_, rfl, hxs⟩
    rintro rfl
    exact hne rfl

theorem denotes_seq_singleton : (seq [e]).Denotes u ↔ e.Denotes u := by
  simp [Denotes, DenotesInTurn]

theorem denotesOneOf_iff : DenotesOneOf es u ↔ ∃ e ∈ es, e.Denotes u := by
  induction es with
  | nil => simp [DenotesOneOf]
  | cons e es ih => rw [DenotesOneOf, ih, List.exists_mem_cons_iff]

theorem denotes_choice : (choice es).Denotes u ↔ ∃ e ∈ es, e.Denotes u := by
  match es with
  | [] => exact denotesOneOf_iff
  | [e] => simp [choice]
  | _ :: _ :: _ => exact denotesOneOf_iff

theorem denotes_sequence : (sequence es).Denotes u ↔ (seq es).Denotes u := by
  match es with
  | [] => exact Iff.rfl
  | [e] => exact denotes_seq_singleton.symm
  | _ :: _ :: _ => exact Iff.rfl

/-- A sequence of classes, one for each character of a text. -/
theorem denotes_classes {α : Type} {f : α → List CodeRange} {xs : List α} :
    (seq (xs.map fun x => .symbols (f x))).Denotes u ↔
      List.Forall₂ (fun x c => CodeRange.covers (f x) c.toNat = true) xs u := by
  induction xs generalizing u with
  | nil => exact List.forall₂_nil_left_iff.symm
  | cons x xs ih =>
    rw [List.map_cons, denotes_seq_symbols, List.forall₂_cons_left_iff]
    constructor
    · rintro ⟨c, v, rfl, hc, hv⟩
      exact ⟨c, v, hc, ih.mp hv, rfl⟩
    · rintro ⟨c, v, hc, hv, rfl⟩
      exact ⟨c, v, rfl, hc, ih.mpr hv⟩

end Expr

namespace Rule

open Lexical

/-- The names of the keywords in the order of their pattern, as lists of characters: evaluating
`String.toList` is slow. -/
def keywordNames : List (List Char) := [
  ['W', 'I', 'T', 'H', '_', 'O', 'P', 'T', 'I', 'O', 'N', 'S'], ['D', 'A', 'T', 'A', 'S', 'E', 'T'],
  ['F', 'O', 'R', '_', 'S', 'E', 'R', 'V', 'I', 'C', 'E'],
  ['F', 'O', 'R', '_', 'S', 'T', 'A', 'C', 'K'],
  ['D', 'E', 'F', 'I', 'N', 'E', '_', 'A', 'U', 'T', 'H'], ['A', 'S'], ['S', 'E', 'T'], ['T', 'O'],
  ['G', 'E', 'T'], ['P', 'O', 'S', 'T'], ['F', 'R', 'O', 'M'],
  ['E', 'X', 'T', 'R', 'A', 'C', 'T', '_', 'U', 'S', 'I', 'N', 'G'],
  ['M', 'E', 'T', 'R', 'I', 'C'], ['N', 'A', 'M', 'E'], ['T', 'Y', 'P', 'E'],
  ['G', 'A', 'U', 'G', 'E'], ['C', 'O', 'U', 'N', 'T', 'E', 'R'],
  ['H', 'I', 'S', 'T', 'O', 'G', 'R', 'A', 'M'], ['S', 'U', 'M', 'M', 'A', 'R', 'Y'],
  ['D', 'E', 'S', 'C', 'R', 'I', 'P', 'T', 'I', 'O', 'N'], ['L', 'A', 'B', 'E', 'L', 'S'],
  ['H', 'E', 'L', 'P']]

theorem mem_keywordNames {name : List Char} :
    name ∈ keywordNames ↔ ∃ k ∈ TokenKind.keywords, k.label.toList = name := by
  have forth : ∀ k ∈ TokenKind.keywords, ∃ name ∈ keywordNames, k.label = String.ofList name := by
    decide +kernel
  have back : ∀ name ∈ keywordNames, ∃ k ∈ TokenKind.keywords, k.label = String.ofList name := by
    decide +kernel
  constructor
  · intro h
    obtain ⟨k, hk, hl⟩ := back name h
    exact ⟨k, hk, by rw [hl, String.toList_ofList]⟩
  · rintro ⟨k, hk, rfl⟩
    obtain ⟨name, h, hl⟩ := forth k hk
    rwa [hl, String.toList_ofList]

-- The characters are compared by computable functions: with a quantifier over characters, `decide`
-- may go through all of Unicode.
theorem letters_of_mem {name : List Char} (h : name ∈ keywordNames) :
    ∀ l ∈ name, l = '_' ∨ 'A' ≤ l ∧ l ≤ 'Z' := by
  have letters : ∀ name ∈ keywordNames, name.all fun l => l = '_' ∨ 'A' ≤ l ∧ l ≤ 'Z' := by
    decide +kernel
  intro l hl
  exact of_decide_eq_true (List.all_eq_true.mp (letters name h) l hl)

theorem exists_head_of_mem {name : List Char} (h : name ∈ keywordNames) :
    ∃ l rest, name = l :: rest ∧ 'A' ≤ l ∧ l ≤ 'Z' := by
  have heads : ∀ name ∈ keywordNames, name.head?.any fun l => 'A' ≤ l ∧ l ≤ 'Z' := by
    decide +kernel
  obtain ⟨l, hl, capital⟩ := (Option.any_eq_true _ _).mp (heads name h)
  obtain ⟨rest, rfl⟩ := List.head?_eq_some_iff.mp hl
  exact ⟨l, rest, rfl, of_decide_eq_true capital⟩

/-- A character of a keyword: an underscore may be a space, a letter may have either case. -/
def letterRanges (l : Char) : List CodeRange :=
  if l = '_' then [.single ' ', .single '_'] else [.single l, .single l.toLower]

/-- How the pattern of keywords spells one of them. -/
def spelling (name : List Char) : List Char :=
  name.flatMap fun l => if l = '_' then ['[', ' ', '_', ']'] else [l.toLower]

theorem keywordSource_eq :
    keywordSource = String.ofList (List.intercalate ['|'] (keywordNames.map spelling)) := by
  decide +kernel

def anyBut (c : Char) : Expr := .symbols [⟨0, c.toNat - 1⟩, ⟨c.toNat + 1, CodeRange.last⟩]

def spaces : Expr := .symbols [⟨0x09, 0x0A⟩, .single '\r', .single ' ']

def keywords : Expr :=
  .choice (keywordNames.map fun name => .sequence (name.map fun l => .symbols (letterRanges l)))

def quoted (quote : Char) : Expr :=
  .seq [.symbols [.single quote], .star (anyBut quote), .symbols [.single quote]]

/-- The expressions of the patterns of document rules. -/
def exprs : List Expr := [
  .seq [.symbols [.single '#'], .star (anyBut '\n')],
  .seq [.symbols [.single ','], .star spaces],
  .seq [.symbols [.single '\n'], .star (.alt [spaces,
    .seq [.symbols [.single '#'], .star (anyBut '\n'), .symbols [.single '\n']]])],
  .plus (.symbols [.single '\t', .single '\r', .single ' ']),
  keywords,
  quoted '"',
  quoted '\'',
  .seq [.symbols [.single '_', ⟨0x61, 0x7A⟩],
    .star (.symbols [⟨0x30, 0x39⟩, .single '_', ⟨0x61, 0x7A⟩])],
  anyBut '\n']

/-- The expression of a rule's pattern. -/
def Has (r : Rule) (e : Expr) : Prop := Pattern.read r.source.toList r.foldsCase = .ok e

instance (r : Rule) (e : Expr) : Decidable (Has r e) :=
  inferInstanceAs (Decidable (Pattern.read r.source.toList r.foldsCase = .ok e))

theorem read_keywords : Pattern.read keywordSource.toList true = .ok keywords := by
  rw [keywordSource_eq, String.toList_ofList]
  decide +kernel

theorem has_exprs : List.Forall₂ Has documentRules exprs :=
  .cons (by decide +kernel) <| .cons (by decide +kernel) <| .cons (by decide +kernel) <|
    .cons (by decide +kernel) <| .cons read_keywords <| .cons (by decide +kernel) <|
    .cons (by decide +kernel) <| .cons (by decide +kernel) <| .cons (by decide +kernel) .nil

/-- The texts of a document rule, by its index. -/
def Denotes : Nat → List Char → Prop
  | 0 => IsComment
  | 1 => IsComma
  | 2 => IsIndent
  | 3 => IsBlanks
  | 4 => IsKeyword
  | 5 => IsQuoted '"'
  | 6 => IsQuoted '\''
  | 7 => IsIdentifier
  | 8 => IsStray
  | _ => fun _ => False

/-! ## Classes of characters -/

theorem covers_single {c d : Char} : CodeRange.covers [.single c] d.toNat ↔ d = c := by
  simp only [CodeRange.covers, CodeRange.contains, CodeRange.single, List.any_cons, List.any_nil,
    Bool.or_false, Bool.and_eq_true, decide_eq_true_iff, char_eq_iff]
  omega

theorem denotes_anyBut {c : Char} (hc : 0 < c.toNat) {u : List Char} :
    (Expr.star (anyBut c)).Denotes u ↔ c ∉ u := by
  rw [anyBut, Expr.denotes_star_symbols]
  have covers : ∀ d : Char,
      CodeRange.covers [⟨0, c.toNat - 1⟩, ⟨c.toNat + 1, CodeRange.last⟩] d.toNat ↔ d ≠ c := fun d => by
    have := toNat_le_last d
    simp only [CodeRange.covers, CodeRange.contains, List.any_cons, List.any_nil, Bool.or_false,
      Bool.or_eq_true, Bool.and_eq_true, decide_eq_true_iff, ne_eq, char_eq_iff]
    omega
  simp only [covers]
  exact ⟨fun h hcu => h c hcu rfl, fun h d hd hdc => h (hdc ▸ hd)⟩

theorem covers_spaces {c : Char} :
    CodeRange.covers [⟨0x09, 0x0A⟩, .single '\r', .single ' '] c.toNat ↔ IsSpace c := by
  simp only [CodeRange.covers, CodeRange.contains, CodeRange.single, List.any_cons, List.any_nil,
    Bool.or_false, Bool.or_eq_true, Bool.and_eq_true, decide_eq_true_iff, IsSpace, IsBlank,
    char_eq_iff, show ' '.toNat = 32 from rfl, show '\t'.toNat = 9 from rfl,
    show '\r'.toNat = 13 from rfl, show '\n'.toNat = 10 from rfl]
  omega

theorem covers_blanks {c : Char} :
    CodeRange.covers [.single '\t', .single '\r', .single ' '] c.toNat ↔ IsBlank c := by
  simp only [CodeRange.covers, CodeRange.contains, CodeRange.single, List.any_cons, List.any_nil,
    Bool.or_false, Bool.or_eq_true, Bool.and_eq_true, decide_eq_true_iff, IsBlank,
    char_eq_iff]
  omega

theorem covers_opensName {c : Char} :
    CodeRange.covers [.single '_', ⟨0x61, 0x7A⟩] c.toNat ↔ OpensName c := by
  simp only [CodeRange.covers, CodeRange.contains, CodeRange.single, List.any_cons, List.any_nil,
    Bool.or_false, Bool.or_eq_true, Bool.and_eq_true, decide_eq_true_iff, OpensName,
    char_eq_iff, char_le_iff, show 'a'.toNat = 97 from rfl, show 'z'.toNat = 122 from rfl]
  omega

theorem covers_continuesName {c : Char} :
    CodeRange.covers [⟨0x30, 0x39⟩, .single '_', ⟨0x61, 0x7A⟩] c.toNat ↔ ContinuesName c := by
  simp only [CodeRange.covers, CodeRange.contains, CodeRange.single, List.any_cons, List.any_nil,
    Bool.or_false, Bool.or_eq_true, Bool.and_eq_true, decide_eq_true_iff, ContinuesName, OpensName,
    char_eq_iff, char_le_iff, show 'a'.toNat = 97 from rfl, show 'z'.toNat = 122 from rfl,
    show '0'.toNat = 48 from rfl, show '9'.toNat = 57 from rfl]
  omega

theorem covers_letterRanges {l c : Char} (hl : l = '_' ∨ 'A' ≤ l ∧ l ≤ 'Z') :
    CodeRange.covers (letterRanges l) c.toNat ↔ c.toUpper = l ∨ l = '_' ∧ c = ' ' := by
  unfold letterRanges
  by_cases joint : l = '_'
  · subst joint
    rw [if_pos rfl]
    simp only [CodeRange.covers, CodeRange.contains, CodeRange.single, List.any_cons,
      List.any_nil, Bool.or_false, Bool.or_eq_true, Bool.and_eq_true, decide_eq_true_iff, true_and,
      char_eq_iff, toNat_toUpper, show ' '.toNat = 32 from rfl, show '_'.toNat = 95 from rfl]
    split <;> omega
  · obtain ⟨hA, hZ⟩ := hl.resolve_left joint
    rw [char_le_iff, show 'A'.toNat = 65 from rfl] at hA
    rw [char_le_iff, show 'Z'.toNat = 90 from rfl] at hZ
    rw [if_neg joint, or_iff_left fun h => joint h.1]
    simp only [CodeRange.covers, CodeRange.contains, CodeRange.single, List.any_cons,
      List.any_nil, Bool.or_false, Bool.or_eq_true, Bool.and_eq_true, decide_eq_true_iff,
      char_eq_iff, toNat_toUpper, toNat_toLower]
    split <;> split <;> omega

/-! ## The texts of the rules -/

theorem denotes_keywords {u : List Char} : keywords.Denotes u ↔ IsKeyword u := by
  have spells : ∀ name ∈ keywordNames,
      ((Expr.sequence (name.map fun l => .symbols (letterRanges l))).Denotes u ↔
        Spells name u) := fun name hname => by
    rw [Expr.denotes_sequence, Expr.denotes_classes, Spells]
    have upper := letters_of_mem hname
    constructor
    · intro h
      refine ((List.forall₂_and_left _ _).mpr ⟨upper, h⟩).imp ?_
      rintro l c ⟨hl, hc⟩
      exact (covers_letterRanges hl).mp hc
    · intro h
      refine ((List.forall₂_and_left _ _).mpr ⟨upper, h⟩).imp ?_
      rintro l c ⟨hl, hc⟩
      exact (covers_letterRanges hl).mpr hc
  rw [keywords, Expr.denotes_choice, IsKeyword]
  constructor
  · rintro ⟨e, he, hu⟩
    obtain ⟨name, hname, rfl⟩ := List.mem_map.mp he
    obtain ⟨k, hk, rfl⟩ := mem_keywordNames.mp hname
    exact ⟨k, hk, (spells _ hname).mp hu⟩
  · rintro ⟨k, hk, hu⟩
    have hname := mem_keywordNames.mpr ⟨k, hk, rfl⟩
    exact ⟨_, List.mem_map_of_mem hname, (spells _ hname).mpr hu⟩

theorem denotes_single {c : Char} {u : List Char} :
    (Expr.symbols [.single c]).Denotes u ↔ u = [c] := by
  simp only [Expr.Denotes, covers_single]
  constructor
  · rintro ⟨_, rfl, rfl⟩
    rfl
  · rintro rfl
    exact ⟨c, rfl, rfl⟩

theorem denotes_delimited {e : Expr} {c d : Char} {u : List Char} :
    (Expr.seq [.symbols [.single c], e, .symbols [.single d]]).Denotes u ↔
      ∃ v, u = c :: (v ++ [d]) ∧ e.Denotes v := by
  rw [Expr.denotes_seq_symbols]
  constructor
  · rintro ⟨_, _, rfl, hc, v, _, rfl, hv, hd⟩
    rw [covers_single.mp hc, denotes_single.mp (Expr.denotes_seq_singleton.mp hd)]
    exact ⟨v, rfl, hv⟩
  · rintro ⟨v, rfl, hv⟩
    have last := Expr.denotes_seq_singleton.mpr (denotes_single.mpr (Eq.refl [d]))
    exact ⟨c, _, rfl, covers_single.mpr rfl, v, [d], rfl, hv, last⟩

theorem denotes_after {e : Expr} {c : Char} {u : List Char} :
    (Expr.seq [.symbols [.single c], e]).Denotes u ↔ ∃ v, u = c :: v ∧ e.Denotes v := by
  simp only [Expr.denotes_seq_symbols, Expr.denotes_seq_singleton]
  constructor
  · rintro ⟨_, v, rfl, hc, hv⟩
    exact ⟨v, by rw [covers_single.mp hc], hv⟩
  · rintro ⟨v, rfl, hv⟩
    exact ⟨c, v, rfl, covers_single.mpr rfl, hv⟩

theorem denotes_layout {u : List Char} :
    (Expr.star (.alt [spaces, .seq [.symbols [.single '#'], .star (anyBut '\n'),
      .symbols [.single '\n']]])).Denotes u ↔ Layout u := by
  rw [layout_iff_flatten]
  refine exists_congr fun xs => and_congr_right fun _ => forall₂_congr fun x _ => ?_
  refine or_congr ?_ ((or_iff_left id).trans ?_)
  · exact exists_congr fun c => and_congr_right fun _ => covers_spaces
  · rw [denotes_delimited]
    exact exists_congr fun v => and_congr_right fun _ => denotes_anyBut (by decide)

theorem denotes_iff {i : Nat} {e : Expr} (he : exprs[i]? = some e) {u : List Char} :
    e.Denotes u ↔ Denotes i u := by
  match i with
  | 0 =>
    obtain rfl := Option.some.inj he
    refine denotes_after.trans (exists_congr fun v => and_congr_right fun _ => ?_)
    exact denotes_anyBut (by decide)
  | 1 =>
    obtain rfl := Option.some.inj he
    refine denotes_after.trans (exists_congr fun v => and_congr_right fun _ => ?_)
    rw [spaces, Expr.denotes_star_symbols]
    exact forall₂_congr fun c _ => covers_spaces
  | 2 =>
    obtain rfl := Option.some.inj he
    exact denotes_after.trans (exists_congr fun v => and_congr_right fun _ => denotes_layout)
  | 3 =>
    obtain rfl := Option.some.inj he
    rw [Expr.denotes_plus_symbols]
    exact and_congr_right fun _ => forall₂_congr fun c _ => covers_blanks
  | 4 =>
    obtain rfl := Option.some.inj he
    exact denotes_keywords
  | 5 =>
    obtain rfl := Option.some.inj he
    rw [quoted, denotes_delimited]
    exact exists_congr fun v => and_congr_right fun _ => denotes_anyBut (by decide)
  | 6 =>
    obtain rfl := Option.some.inj he
    rw [quoted, denotes_delimited]
    exact exists_congr fun v => and_congr_right fun _ => denotes_anyBut (by decide)
  | 7 =>
    obtain rfl := Option.some.inj he
    rw [Expr.denotes_seq_symbols]
    refine exists_congr fun c => exists_congr fun v => and_congr_right fun _ => ?_
    refine and_congr covers_opensName ?_
    rw [Expr.denotes_seq_singleton, Expr.denotes_star_symbols]
    exact forall₂_congr fun d _ => covers_continuesName
  | 8 =>
    obtain rfl := Option.some.inj he
    refine exists_congr fun c => and_congr_right fun _ => ?_
    have one := @denotes_anyBut '\n' (by decide) [c]
    rw [anyBut, Expr.denotes_star_symbols, List.forall_mem_singleton, List.mem_singleton] at one
    rw [one, ne_comm]
  | n + 9 => simp [exprs] at he

theorem plain_exprs : ∀ e ∈ exprs, e.Plain := by decide +kernel

end Rule

end ScrapeConfig
