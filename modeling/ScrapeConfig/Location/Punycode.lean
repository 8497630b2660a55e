import ScrapeConfig.Decimal.Power

/-!
# Punycode

Writing text in ASCII letters, digits and hyphens: the ASCII characters stand in front of the last
hyphen, and digits behind it tell which other characters are to be put where between them, in
ascending order. `decode` reads text that is written so.
-/

namespace ScrapeConfig.Punycode

/-- A digit of base 36: a letter, then a decimal digit. -/
def digit? (c : Char) : Option Nat :=
  if 'a' ≤ c ∧ c ≤ 'z' then some (c.toNat - 97)
  else if '0' ≤ c ∧ c ≤ '9' then some (c.toNat - 48 + 26)
  else none

/-- A digit below the threshold is the last one of its number. It depends on the position `k` of the
digit, counted in steps of 36, and on the bias. -/
def threshold (k bias : Nat) : Nat := min 26 (max 1 (k - bias))

/-- Reads a number whose digits weigh ever more, and what follows it; weights stay within 32 bits. -/
def readNumber (bias : Nat) : (k weight : Nat) → List Char → Option (Nat × List Char)
  | _, _, [] => none
  | k, weight, c :: cs => do
    let d ← digit? c
    let t := threshold k bias
    if d < t then some (d * weight, cs)
    else if twoTo 32 ≤ weight * (36 - t) then none
    else
      let (n, rest) ← readNumber bias (k + 36) (weight * (36 - t)) cs
      some (d * weight + n, rest)

theorem length_readNumber {bias : Nat} {cs rest : List Char} {k weight n : Nat}
    (h : readNumber bias k weight cs = some (n, rest)) : rest.length < cs.length := by
  induction cs generalizing k weight n rest with
  | nil => simp [readNumber] at h
  | cons c cs ih =>
    simp only [readNumber, Option.bind_eq_bind, Option.bind_eq_some_iff] at h
    obtain ⟨d, -, h⟩ := h
    split at h
    · simp_all
    · split at h
      · simp at h
      · obtain ⟨⟨m, r⟩, hr, h⟩ := Option.bind_eq_some_iff.1 h
        have := ih hr
        simp_all
        omega

/-- How often a number must be divided by 35 to be at most 455, and the quotient. -/
def damp (delta : Nat) : Nat × Nat :=
  if 455 < delta then
    let (times, quotient) := damp (delta / 35)
    (times + 1, quotient)
  else (0, delta)

/-- The bias behind a number `delta`, when there are `count` characters. -/
def adapt (delta count : Nat) (isFirst : Bool) : Nat :=
  let delta := if isFirst then delta / 700 else delta / 2
  let (times, quotient) := damp (delta + delta / count)
  36 * times + 36 * quotient / (quotient + 38)

/-- Puts the characters into `text` that the digits tell of. Characters from `code` on are still to
come, and this one in front of position `place` at the earliest. -/
def insertAll (code bias place : Nat) (text digits : List Char) : Option (List Char) :=
  if digits.isEmpty then some text
  else match h : readNumber bias 36 1 digits with
    | none => none
    | some (delta, rest) =>
      let count := text.length + 1
      let nextCode := code + (place + delta) / count
      let position := (place + delta) % count
      if nextCode.isValidChar then
        insertAll nextCode (adapt delta count (place = 0)) (position + 1)
          (text.insertIdx position (Char.ofNat nextCode)) rest
      else none
termination_by digits.length
decreasing_by exact length_readNumber h

/-- The text that Punycode stands for. Without digits it is no Punycode, and without ASCII characters
in front of them it has no hyphen. -/
def decode (cs : List Char) : Option (List Char) :=
  let digits := (cs.reverse.takeWhile (· ≠ '-')).reverse
  let text := cs.take (cs.length - digits.length - 1)
  if digits.isEmpty || (text.isEmpty && digits ≠ cs) then none
  else insertAll 128 72 0 text digits

end ScrapeConfig.Punycode
