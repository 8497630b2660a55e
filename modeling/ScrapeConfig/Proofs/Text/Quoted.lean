import Mathlib.Data.List.Basic
import ScrapeConfig.Text.Quoted

/-!
# Quoted text can be read back

How a character is written says where it ends, whatever comes behind it, and does not begin with the
closing quote. So a quoted text says where it ends and what it quotes, and it never breaks a line.

Results:
1. `Quoted.Writes.append_inj`: texts that begin with the same writing begin with the same character.
2. `Quoted.encodeChars_inj`: what is quoted can be told from the quoted text.
3. `Quoted.newline_notMem_encodeChars`: there is no line feed in a quoted text.
-/

namespace ScrapeConfig.Quoted

/-! ## Digits -/

section

variable {b m n : Nat}

theorem digitChar_inj (hm : m < 16) (hn : n < 16) (h : m.digitChar = n.digitChar) : m = n := by
  have small : ∀ i j : Fin 16, i.val.digitChar = j.val.digitChar → i = j := by decide
  exact congrArg Fin.val (small ⟨m, hm⟩ ⟨n, hn⟩ h)

theorem toDigits_concat (hb : 1 < b) (n : Nat) : Nat.toDigits b n =
    (if n < b then [] else Nat.toDigits b (n / b)) ++ [(n % b).digitChar] := by
  rw [Nat.toDigits_eq_if hb]
  split
  · next small => rw [Nat.mod_eq_of_lt small, List.nil_append]
  · rfl

/-- Digits determine their number, by induction on the first of the two numbers. -/
theorem toDigits_inj (hb : 1 < b) (hb' : b ≤ 16) (h : Nat.toDigits b m = Nat.toDigits b n) :
    m = n := by
  induction m using Nat.strongRecOn generalizing n with
  | ind m ih =>
    have digit (i : Nat) : i % b < 16 :=
      Nat.lt_of_lt_of_le (Nat.mod_lt i (Nat.zero_lt_of_lt hb)) hb'
    rw [toDigits_concat hb, toDigits_concat hb n] at h
    obtain ⟨fronts, lasts⟩ := List.append_inj' h rfl
    have last := digitChar_inj (digit m) (digit n) (List.singleton_inj.mp lasts)
    -- A number with a single digit is none with more of them.
    by_cases hm : m < b
    · by_cases hn : n < b
      · rwa [Nat.mod_eq_of_lt hm, Nat.mod_eq_of_lt hn] at last
      · rw [if_pos hm, if_neg hn] at fronts
        exact absurd fronts.symm Nat.toDigits_ne_nil
    · by_cases hn : n < b
      · rw [if_neg hm, if_pos hn] at fronts
        exact absurd fronts Nat.toDigits_ne_nil
      · rw [if_neg hm, if_neg hn] at fronts
        have front := ih _ (Nat.div_lt_self (by omega) hb) fronts
        rw [← Nat.div_add_mod m b, front, last, Nat.div_add_mod]

theorem notMem_toDigits {c : Char} (hb : 1 < b) (h : ∀ i : Nat, i.digitChar ≠ c) (n : Nat) :
    c ∉ Nat.toDigits b n := by
  induction n using Nat.strongRecOn with
  | ind n ih =>
    rw [toDigits_concat hb, List.mem_append, List.mem_singleton, not_or]
    refine ⟨?_, (h _).symm⟩
    split
    · exact List.not_mem_nil
    · exact ih _ (Nat.div_lt_self (by omega) hb)

end

/-! ## Characters -/

/-- Two texts that are cut at their first `c` agree on both sides of it. -/
theorem append_cons_inj {c : Char} {x y x' y' : List Char} (hx : c ∉ x) (hx' : c ∉ x')
    (h : x ++ c :: y = x' ++ c :: y') : x = x' ∧ y = y' := by
  induction x generalizing x' with
  | nil => cases x' with
    | nil => exact ⟨rfl, (List.cons.inj h).2⟩
    | cons d x' => exact absurd ((List.cons.inj h).1 ▸ List.mem_cons_self) hx'
  | cons d x ih => cases x' with
    | nil => exact absurd ((List.cons.inj h).1 ▸ List.mem_cons_self) hx
    | cons d' x' =>
      obtain ⟨rfl, behind⟩ := List.cons.inj h
      rw [List.mem_cons, not_or] at hx hx'
      obtain ⟨rfl, rfl⟩ := ih hx.2 hx'.2 behind
      exact ⟨rfl, rfl⟩

/-- The characters that are written as a backslash and another character. -/
def letters : List (Char × Char) :=
  [('"', '"'), ('\\', '\\'), ('\n', 'n'), ('\r', 'r'), ('\t', 't'), ('\x00', '0')]

/-- The ways in which a character is written. -/
inductive Writes : Char → List Char → Prop
  | letter {c l : Char} : (c, l) ∈ letters → Writes c ['\\', l]
  | number (c : Char) : Writes c ('\\' :: 'u' :: '\x7b' :: (hex c.toNat ++ ['\x7d']))
  | plain {c : Char} : c ∉ letters.map Prod.fst → Writes c [c]

theorem writes_escape (c : Char) : Writes c (escape c) := by
  unfold escape
  split
  any_goals exact .letter (by decide)
  · split
    · exact .number c
    · exact .plain (by simpa [letters] using ⟨‹_›, ‹_›, ‹_›, ‹_›, ‹_›, ‹_›⟩)

theorem hex_inj {m n : Nat} (h : hex m = hex n) : m = n :=
  toDigits_inj (by decide) (Nat.le_refl _) h

theorem brace_notMem_hex (n : Nat) : '\x7d' ∉ hex n :=
  notMem_toDigits (by decide) (fun _ => Nat.digitChar_ne _ (by decide)) n

theorem char_toNat_inj {c d : Char} (h : c.toNat = d.toNat) : c = d :=
  Char.ext (UInt32.toNat_inj.mp h)

namespace Writes

variable {c d : Char} {u v xs ys : List Char}

/-- A backslash is no writing of a character, and neither is a quote. -/
theorem plain_ne {l : Char} (h : c ∉ letters.map Prod.fst) (hl : l ∈ letters.map Prod.fst) : c ≠ l :=
  fun heq => h (heq ▸ hl)

theorem append_inj (h : Writes c u) (h' : Writes d v) (heq : u ++ xs = v ++ ys) :
    c = d ∧ xs = ys := by
  -- What is plain is no backslash, with which the other writings begin.
  have backslash : '\\' ∈ letters.map Prod.fst := by decide
  cases h with
  | letter hl =>
    cases h' with
    | letter hl' =>
      have determined : ∀ p ∈ letters, ∀ q ∈ letters, p.2 = q.2 → p.1 = q.1 := by decide
      obtain ⟨same, rest⟩ := List.cons.inj (List.cons.inj heq).2
      exact ⟨determined _ hl _ hl' same, rest⟩
    | number =>
      have unlettered : ∀ p ∈ letters, p.2 ≠ 'u' := by decide
      exact absurd (List.cons.inj (List.cons.inj heq).2).1 (unlettered _ hl)
    | plain hd => exact absurd (List.cons.inj heq).1.symm (plain_ne hd backslash)
  | number =>
    cases h' with
    | letter hl' =>
      have unlettered : ∀ p ∈ letters, p.2 ≠ 'u' := by decide
      exact absurd (List.cons.inj (List.cons.inj heq).2).1.symm (unlettered _ hl')
    | number =>
      simp only [List.cons_append, List.append_assoc, List.cons.injEq, true_and] at heq
      -- The digits end where the brace closes.
      obtain ⟨digits, rest⟩ := append_cons_inj (brace_notMem_hex _) (brace_notMem_hex _) heq
      exact ⟨char_toNat_inj (hex_inj digits), rest⟩
    | plain hd => exact absurd (List.cons.inj heq).1.symm (plain_ne hd backslash)
  | plain hc =>
    cases h' with
    | letter => exact absurd (List.cons.inj heq).1 (plain_ne hc backslash)
    | number => exact absurd (List.cons.inj heq).1 (plain_ne hc backslash)
    | plain => exact List.cons.inj heq

theorem ne_quote_cons (h : Writes c u) : u ++ xs ≠ '"' :: ys := by
  cases h with
  | letter => exact fun heq => absurd (List.cons.inj heq).1 (by decide)
  | number => exact fun heq => absurd (List.cons.inj heq).1 (by decide)
  | plain hc => exact fun heq => absurd (List.cons.inj heq).1 (plain_ne hc (by decide))

theorem newline_notMem (h : Writes c u) : '\n' ∉ u := by
  cases h with
  | letter hl =>
    have unbroken : ∀ p ∈ letters, '\n' ∉ ['\\', p.2] := by decide
    exact unbroken _ hl
  | number =>
    have digits : '\n' ∉ hex c.toNat :=
      notMem_toDigits (by decide) (fun _ => Nat.digitChar_ne _ (by decide)) _
    simp [digits]
  | plain hc => exact fun hmem => plain_ne hc (by decide) (List.mem_singleton.mp hmem).symm

end Writes

/-! ## Texts -/

variable {cs ds xs ys : List Char}

/-- By induction on the first of the two texts. -/
theorem flatMap_escape_inj (h : cs.flatMap escape ++ '"' :: xs = ds.flatMap escape ++ '"' :: ys) :
    cs = ds ∧ xs = ys := by
  induction cs generalizing ds with
  | nil =>
    cases ds with
    | nil => exact ⟨rfl, (List.cons.inj h).2⟩
    | cons d ds =>
      rw [List.flatMap_cons, List.append_assoc] at h
      exact absurd h.symm (writes_escape d).ne_quote_cons
  | cons c cs ih =>
    cases ds with
    | nil =>
      rw [List.flatMap_cons, List.append_assoc] at h
      exact absurd h (writes_escape c).ne_quote_cons
    | cons d ds =>
      simp only [List.flatMap_cons, List.append_assoc] at h
      obtain ⟨rfl, rest⟩ := (writes_escape c).append_inj (writes_escape d) h
      obtain ⟨rfl, behind⟩ := ih rest
      exact ⟨rfl, behind⟩

theorem encodeChars_inj (h : encodeChars cs = encodeChars ds) : cs = ds :=
  (flatMap_escape_inj (List.cons.inj h).2).1

theorem newline_notMem_encodeChars (cs : List Char) : '\n' ∉ encodeChars cs := by
  simp only [encodeChars, List.cons_append, List.mem_cons, List.mem_append, List.mem_flatMap,
    List.not_mem_nil, or_false, not_or, not_exists, not_and]
  exact ⟨by decide, fun c _ => (writes_escape c).newline_notMem, by decide⟩

end ScrapeConfig.Quoted
