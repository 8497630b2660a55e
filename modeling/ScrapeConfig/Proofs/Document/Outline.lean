import ScrapeConfig.Proofs.Document.Says

/-!
# Outlines and their text

An outline is lines with lines below them. Its text has one line of the outline on each line of text,
indented by some number of spaces for every level, and its words are those of the lines with the
boundaries of blocks between them. The tokens of the text, each at its place, are the words.

Results:
1. `Outline.tokenizes_text`: the text of outlines is cut into their tokens.
2. `Tracker.standing`: the tracker behind a line of some depth.
3. `Outline.map_word_tokens`: the tokens of outlines are their words.
-/

namespace ScrapeConfig

/-! ## Phrases -/

/-- What stands in front of a word in a line. -/
inductive Gap where
  | space
  | comma
  deriving DecidableEq

structure Phrase where
  first : Word
  rest : List (Gap × Word)

namespace Word

def chars : Word → List Char
  | .name text => '"' :: (text.toList ++ ['"'])
  | .mark k => k.label.toList

/-- The token of a word that begins at `p`. -/
def token (p : Position) (w : Word) : Token :=
  match w with
  | .name text => ⟨.strLiteral, .text text, .covering p w.chars⟩
  | .mark k => ⟨k, .none, .covering p w.chars⟩

/-- A keyword, or a name that can stand between double quotes. -/
def Printable : Word → Prop
  | .name text => '"' ∉ text.toList
  | .mark k => k ∈ TokenKind.keywords

instance : DecidablePred Printable
  | .name text => inferInstanceAs (Decidable ('"' ∉ text.toList))
  | .mark k => inferInstanceAs (Decidable (k ∈ TokenKind.keywords))

theorem word_token {w : Word} (hw : w.Printable) (p : Position) : (w.token p).word = w := by
  cases w with
  | name text => rfl
  | mark k =>
    have notName := (by decide : ∀ k ∈ TokenKind.keywords, ¬ k.IsName) k hw
    exact Token.word_eq_mark_iff.mpr ⟨rfl, notName⟩

end Word

namespace Gap

def chars : Gap → List Char
  | .space => [' ']
  | .comma => [',', ' ']

def words : Gap → List Word
  | .space => []
  | .comma => [.mark .comma]

def tokens (p : Position) : Gap → List Token
  | .space => []
  | .comma => [⟨.comma, .none, .covering p [',', ' ']⟩]

theorem map_word_tokens (g : Gap) (p : Position) : (g.tokens p).map Token.word = g.words := by
  cases g <;> rfl

end Gap

namespace Phrase

def restChars (rest : List (Gap × Word)) : List Char := rest.flatMap fun (g, w) => g.chars ++ w.chars

def restWords (rest : List (Gap × Word)) : List Word := rest.flatMap fun (g, w) => g.words ++ [w]

def chars (p : Phrase) : List Char := p.first.chars ++ restChars p.rest

def words (p : Phrase) : List Word := p.first :: restWords p.rest

/-- The tokens of what stands behind the first word of a line, from `p` on. -/
def restTokens (p : Position) : List (Gap × Word) → List Token
  | [] => []
  | (g, w) :: rest => g.tokens p ++ w.token (p.past g.chars) ::
      restTokens ((p.past g.chars).past w.chars) rest

/-- The tokens of a line that begins at `p`. -/
def tokens (p : Position) (line : Phrase) : List Token :=
  line.first.token p :: restTokens (p.past line.first.chars) line.rest

structure Printable (p : Phrase) : Prop where
  first : p.first.Printable
  rest : ∀ x ∈ p.rest, x.2.Printable

instance : DecidablePred Printable := fun p =>
  decidable_of_iff (p.first.Printable ∧ ∀ x ∈ p.rest, x.2.Printable)
    ⟨fun ⟨first, rest⟩ => ⟨first, rest⟩, fun ⟨first, rest⟩ => ⟨first, rest⟩⟩

theorem map_word_restTokens {rest : List (Gap × Word)} (h : ∀ x ∈ rest, x.2.Printable)
    (p : Position) : (restTokens p rest).map Token.word = restWords rest := by
  induction rest generalizing p with
  | nil => rfl
  | cons x rest ih =>
    obtain ⟨hx, hrest⟩ := List.forall_mem_cons.mp h
    rw [restTokens, List.map_append, List.map_cons, ih hrest, Gap.map_word_tokens,
      Word.word_token hx]
    simp [restWords]

theorem map_word_tokens {line : Phrase} (h : line.Printable) (p : Position) :
    (line.tokens p).map Token.word = line.words := by
  rw [tokens, List.map_cons, Word.word_token h.first, map_word_restTokens h.rest, words]

end Phrase

section

variable {p : Position} {t : Tracker} {r : Option (List Char)} {cs : List Char} {ts : List Token}

/-- What stands behind a word in a line. -/
def EndsWord (cs : List Char) : Prop := ∀ c ∈ cs.head?, c = ' ' ∨ c = ',' ∨ c = '\n'

theorem endsWord_break (cs : List Char) : EndsWord ('\n' :: cs) :=
  fun _ hc => .inr (.inr (Option.some.inj hc).symm)

theorem tokenizes_word {w : Word} (h : Tokenizes (p.past w.chars) (t.across r).settled none cs ts)
    (hw : w.Printable) (hcs : EndsWord cs) :
    Tokenizes p t r (w.chars ++ cs)
      ((t.across r).pending.map (Boundary.token (.covering p w.chars)) ++ w.token p :: ts) := by
  cases w with
  | name text =>
    have means : Rule.Means 5 (Word.name text).chars .strLiteral (.text text) := by
      rw [← String.ofList_toList (s := text)]
      simpa [Word.chars] using Rule.Means.dqString hw
    exact .token rfl (Rule.cuts_dqString.mpr ⟨text.toList, rfl, hw⟩) means h
  | mark k =>
    have name : k.label.toList ∈ Rule.keywordNames := Rule.mem_keywordNames.mpr ⟨k, hw, rfl⟩
    exact .token rfl (Rule.cuts_keyword name hcs) (.keyword hw (Rule.spells_self name)) h

/-- What a word begins with. -/
theorem head_chars {w : Word} (hw : w.Printable) :
    ∃ c cs, w.chars = c :: cs ∧ ¬ Lexical.IsSpace c ∧ c ≠ '#' := by
  cases w with
  | name text => exact ⟨'"', _, rfl, by decide⟩
  | mark k =>
    have name : k.label.toList ∈ Rule.keywordNames := Rule.mem_keywordNames.mpr ⟨k, hw, rfl⟩
    obtain ⟨c, cs, hcs, capital, _⟩ := Rule.exists_head_of_mem name
    refine ⟨c, cs, hcs, ?_, ?_⟩
    · rintro ((rfl | rfl | rfl) | rfl) <;> exact absurd capital (by decide)
    · rintro rfl
      exact absurd capital (by decide)

theorem tokenizes_gap {g : Gap} {w : Word} (ht : t.pending = [])
    (h : Tokenizes (p.past g.chars) t none (w.chars ++ cs) ts) (hw : w.Printable) :
    Tokenizes p t none (g.chars ++ (w.chars ++ cs)) (g.tokens p ++ ts) := by
  obtain ⟨c, chars, hchars, notSpace, _⟩ := head_chars hw
  have head : ∀ d ∈ (w.chars ++ cs).head?, ¬ Lexical.IsSpace d := by
    rw [hchars]
    rintro d hd
    rwa [← Option.some.inj hd]
  cases g with
  | space =>
    have blanks : Lexical.IsBlanks [' '] := ⟨nofun, List.forall_mem_singleton.mpr (.inl rfl)⟩
    have cut := Rule.cuts_blanks.mpr ⟨blanks, fun d hd blank => head d hd (.inl blank)⟩
    exact .skip rfl cut (.inr rfl) h
  | comma =>
    have comma : Lexical.IsComma [',', ' '] :=
      ⟨[' '], rfl, List.forall_mem_singleton.mpr (by decide)⟩
    have settled : Tokenizes (p.past [',', ' ']) (t.across none).settled none (w.chars ++ cs) ts :=
      (Tracker.settled_eq ht).symm ▸ h
    have cut := Tokenizes.token rfl (Rule.cuts_comma.mpr ⟨comma, head⟩) (.comma comma) settled
    rwa [Tracker.across, ht] at cut

/-- The words of a line behind its first one, by induction on them. -/
theorem tokenizes_rest {rest : List (Gap × Word)} (ht : t.pending = [])
    (h : Tokenizes (p.past (Phrase.restChars rest)) t none cs ts)
    (hrest : ∀ x ∈ rest, x.2.Printable) (hcs : EndsWord cs) :
    EndsWord (Phrase.restChars rest ++ cs) ∧
      Tokenizes p t none (Phrase.restChars rest ++ cs) (Phrase.restTokens p rest ++ ts) := by
  induction rest generalizing p with
  | nil => exact ⟨hcs, h⟩
  | cons x rest ih =>
    obtain ⟨g, w⟩ := x
    obtain ⟨hw, hrest⟩ := List.forall_mem_cons.mp hrest
    rw [Phrase.restChars, List.flatMap_cons, Position.past_append, Position.past_append] at h
    obtain ⟨ends, cut⟩ := ih h hrest
    have settled := (Tracker.settled_eq ht).symm ▸ cut
    have word := tokenizes_word (t := t) (r := none) settled hw ends
    rw [Tracker.across, ht] at word
    have gap := tokenizes_gap (g := g) ht word hw
    constructor
    · cases g
      · exact fun c hc => .inl (Option.some.inj hc).symm
      · exact fun c hc => .inr (.inl (Option.some.inj hc).symm)
    · simpa [Phrase.restChars, Phrase.restTokens] using gap

theorem tokenizes_phrase {line : Phrase} (hline : line.Printable)
    (h : Tokenizes (p.past line.chars) (t.across r).settled none cs ts) (hcs : EndsWord cs) :
    Tokenizes p t r (line.chars ++ cs)
      ((t.across r).pending.map (Boundary.token (.covering p line.first.chars)) ++
        (line.tokens p ++ ts)) := by
  rw [Phrase.chars, Position.past_append] at h
  obtain ⟨ends, cut⟩ := tokenizes_rest rfl h hline.rest hcs
  have word := tokenizes_word cut hline.first ends
  rwa [Phrase.chars, List.append_assoc]

end

/-! ## Lines of text -/

/-- A line of text: `k` spaces for every level, the words, and a line break. -/
def lineChars (k : Nat) (l : Nat × Phrase) : List Char :=
  List.replicate (k * l.1) ' ' ++ (l.2.chars ++ ['\n'])

/-- The break in front of a line of depth `e`, with the spaces of the line. -/
def breakChars (k e : Nat) : List Char := '\n' :: List.replicate (k * e) ' '

/-- The tokens of lines behind a line that ends at `p`, up to the end of the text. -/
def linesTokens (k : Nat) (t : Tracker) (p : Position) : List (Nat × Phrase) → List Token
  | [] =>
    let span := Span.covering (p.past ['\n']) []
    t.finish.pending.map (Boundary.token span) ++ [⟨.eof, .none, span⟩]
  | (e, line) :: ls =>
    let announced := t.indent (breakChars k e)
    let begin := p.past (breakChars k e)
    announced.pending.map (Boundary.token (.covering begin line.first.chars)) ++
      (line.tokens begin ++ linesTokens k announced.settled (begin.past line.chars) ls)

theorem layout_spaces (n : Nat) : Lexical.Layout (List.replicate n ' ') := by
  induction n with
  | zero => exact .nil
  | succ n ih => exact .space (.inl (.inl rfl)) ih

theorem stops_phrase {p : Phrase} (hp : p.Printable) (cs : List Char) : Rule.Stops (p.chars ++ cs) := by
  obtain ⟨c, chars, hchars, notSpace, notComment⟩ := head_chars hp.first
  rw [Phrase.chars, hchars]
  intro d hd
  rw [← Option.some.inj hd]
  exact ⟨notSpace, fun h => absurd h notComment⟩

/-- The lines behind a line that ends at `p`, by induction on them. -/
theorem tokenizes_lines {k : Nat} {ls : List (Nat × Phrase)} (printable : ∀ l ∈ ls, l.2.Printable)
    (t : Tracker) (p : Position) :
    Tokenizes p t none ('\n' :: ls.flatMap (lineChars k)) (linesTokens k t p ls) := by
  induction ls generalizing t p with
  | nil =>
    have cut : Rule.Cuts 2 ['\n'] [] := Rule.cuts_indent.mpr ⟨⟨[], rfl, .nil⟩, nofun⟩
    exact .indent rfl cut .finish
  | cons l ls ih =>
    obtain ⟨e, line⟩ := l
    obtain ⟨hline, printable⟩ := List.forall_mem_cons.mp printable
    have behind := ih printable (t.indent (breakChars k e)).settled
      ((p.past (breakChars k e)).past line.chars)
    have cut := tokenizes_phrase (r := some (breakChars k e)) hline behind (endsWord_break _)
    have text : '\n' :: List.flatMap (lineChars k) ((e, line) :: ls) =
        breakChars k e ++ (line.chars ++ '\n' :: List.flatMap (lineChars k) ls) := by
      simp [lineChars, breakChars]
    exact .indent text (Rule.cuts_indent.mpr ⟨⟨_, rfl, layout_spaces (k * e)⟩,
      stops_phrase hline _⟩) cut

/-! ## Depths -/

/-- The words between a line of depth `d` and one of depth `e`. -/
def passage (d e : Nat) : List Word :=
  if d < e then [.mark .blockOpen]
  else List.replicate (d - e) (.mark .blockClose) ++ [.mark .sameLevel]

namespace Tracker

/-- The tracker behind a line of some depth, where a step has `k` spaces. -/
def standing (k d : Nat) : Tracker where
  level := k * d
  enclosing := (List.range d).reverse.map (k * ·)

theorem waiting_eq (t : Tracker) : t.waiting = (t.pending.map Boundary.kind).map Word.mark := by
  rw [waiting, List.map_map]
  rfl

theorem level_standing (k d : Nat) : (standing k d).level = k * d := rfl

theorem pending_standing (k d : Nat) : (standing k d).pending = [] := rfl

theorem enclosing_succ (k d : Nat) :
    (standing k (d + 1)).enclosing = k * d :: (standing k d).enclosing := by
  simp [standing, List.range_succ]

theorem measure_spaces (n : Nat) : measure ('\n' :: List.replicate n ' ') = n := by
  have spaces : ∀ c ∈ List.replicate n ' ', (decide (c ≠ '\n')) = true := fun c hc => by
    rw [List.eq_of_mem_replicate hc]
    rfl
  rw [measure, if_pos List.mem_cons_self, List.reverse_cons, List.reverse_replicate,
    List.takeWhile_append_of_pos spaces]
  simp

theorem leave_standing {k d e : Nat} (hk : 1 ≤ k) (he : e ≤ d) :
    ∃ bs, leave (k * e) (k * d) (standing k d).enclosing =
        (bs, k * e, (standing k e).enclosing) ∧
      bs.map Boundary.kind = List.replicate (d - e) .blockClose := by
  induction d with
  | zero =>
    obtain rfl := Nat.le_zero.mp he
    exact ⟨[], rfl, rfl⟩
  | succ d ih =>
    rw [enclosing_succ, leave]
    rcases Nat.lt_or_ge e (d + 1) with hlt | hge
    · obtain ⟨bs, hleave, hbs⟩ := ih (Nat.lt_succ_iff.mp hlt)
      rw [if_pos (Nat.mul_lt_mul_of_pos_left hlt hk), hleave]
      refine ⟨.blockClose (k * (d + 1)) :: bs, rfl, ?_⟩
      rw [List.map_cons, hbs, Nat.succ_sub (Nat.lt_succ_iff.mp hlt)]
      rfl
    · obtain rfl := Nat.le_antisymm he hge
      rw [if_neg (lt_irrefl _), ← enclosing_succ]
      exact ⟨[], rfl, by simp⟩

/-- What a line of depth `e` announces behind one of depth `d`. -/
theorem indent_standing {k d e : Nat} (hk : 1 ≤ k) (he : e ≤ d + 1) :
    ((standing k d).indent (breakChars k e)).settled = standing k e ∧
      ((standing k d).indent (breakChars k e)).waiting = passage d e := by
  rw [indent, breakChars, measure_spaces, moveTo, level_standing, pending_standing, passage]
  rcases Nat.lt_trichotomy d e with hlt | rfl | hgt
  · obtain rfl : e = d + 1 := by omega
    rw [if_pos (Nat.mul_lt_mul_of_pos_left hlt hk), if_pos hlt]
    refine ⟨?_, rfl⟩
    rw [settled, ← enclosing_succ]
    rfl
  · rw [if_neg (lt_irrefl _), if_pos rfl, if_neg (lt_irrefl d), Nat.sub_self]
    exact ⟨rfl, rfl⟩
  · have above : k * e < k * d := Nat.mul_lt_mul_of_pos_left hgt hk
    obtain ⟨bs, hleave, hbs⟩ := leave_standing hk hgt.le
    rw [if_neg above.not_gt, if_neg above.ne, if_neg hgt.not_gt, hleave]
    refine ⟨rfl, ?_⟩
    rw [waiting_eq]
    simp only [List.nil_append, if_pos, List.map_append, List.map_cons, hbs, List.map_replicate]
    rfl

/-- What the end of the text announces behind a line of depth `d`. -/
theorem finish_standing (k d : Nat) :
    (standing k d).finish.waiting = List.replicate d (.mark .blockClose) := by
  have closed : ∀ d, (finish.closeAll (k * d) (standing k d).enclosing).1.map Boundary.kind =
      List.replicate d .blockClose := by
    intro d
    induction d with
    | zero => rfl
    | succ d ih =>
      rw [enclosing_succ, finish.closeAll, List.map_cons, ih]
      rfl
  rw [waiting_eq]
  show List.map Word.mark (([] ++ (finish.closeAll (k * d) (standing k d).enclosing).1).map _) = _
  rw [List.nil_append, closed, List.map_replicate]

end Tracker

/-! ## Words of lines -/

/-- The words of lines behind a line of depth `d`, up to the end of the text. -/
def wordsFrom : Nat → List (Nat × Phrase) → List Word
  | d, [] => List.replicate d (.mark .blockClose) ++ [.mark .eof]
  | d, (e, line) :: ls => passage d e ++ (line.words ++ wordsFrom e ls)

/-- No line is more than one level deeper than the one in front of it, which has depth `d`. -/
def Steady : Nat → List (Nat × Phrase) → Prop
  | _, [] => True
  | d, (e, _) :: ls => e ≤ d + 1 ∧ Steady e ls

theorem map_word_linesTokens {k d : Nat} {ls : List (Nat × Phrase)} (hk : 1 ≤ k)
    (steady : Steady d ls) (printable : ∀ l ∈ ls, l.2.Printable) (p : Position) :
    (linesTokens k (Tracker.standing k d) p ls).map Token.word = wordsFrom d ls := by
  induction ls generalizing d p with
  | nil =>
    rw [linesTokens, List.map_append, map_word_boundaries, wordsFrom, ← Tracker.finish_standing k d]
    rfl
  | cons l ls ih =>
    obtain ⟨e, line⟩ := l
    obtain ⟨he, steady⟩ := steady
    obtain ⟨hline, printable⟩ := List.forall_mem_cons.mp printable
    obtain ⟨settled, waiting⟩ := Tracker.indent_standing hk he
    rw [linesTokens, List.map_append, List.map_append, map_word_boundaries,
      Phrase.map_word_tokens hline, settled, ih steady printable, wordsFrom, ← waiting]
    rfl

/-! ## Outlines -/

/-- A line and the lines below it. -/
inductive Outline where
  | node (line : Phrase) (inner : List Outline)

namespace Outline

mutual

/-- The lines of an outline, each with its depth. -/
def lines (depth : Nat) : Outline → List (Nat × Phrase)
  | .node line inner => (depth, line) :: allLines (depth + 1) inner

def allLines (depth : Nat) : List Outline → List (Nat × Phrase)
  | [] => []
  | o :: os => o.lines depth ++ allLines depth os

end

mutual

def words : Outline → List Word
  | .node line inner => line.words ++ innerWords inner

/-- The words of the lines below a line, which are a block. -/
def innerWords : List Outline → List Word
  | [] => []
  | o :: os => .mark .blockOpen :: (o.words ++ behindWords os)

/-- The words behind the first line of a block. -/
def behindWords : List Outline → List Word
  | [] => [.mark .blockClose]
  | o :: os => .mark .sameLevel :: (o.words ++ behindWords os)

end

mutual

def Printable : Outline → Prop
  | .node line inner => line.Printable ∧ AllPrintable inner

def AllPrintable : List Outline → Prop
  | [] => True
  | o :: os => o.Printable ∧ AllPrintable os

end

mutual

def decidablePrintable : (o : Outline) → Decidable o.Printable
  | .node line inner =>
    @instDecidableAnd line.Printable (AllPrintable inner) _ (decidableAllPrintable inner)

def decidableAllPrintable : (os : List Outline) → Decidable (AllPrintable os)
  | [] => .isTrue trivial
  | o :: os =>
    @instDecidableAnd o.Printable (AllPrintable os) (decidablePrintable o) (decidableAllPrintable os)

end

instance : DecidablePred AllPrintable := decidableAllPrintable

/-- The text of outlines, with `k` spaces for every level. -/
def text (k : Nat) (os : List Outline) : String :=
  String.ofList ((allLines 0 os).flatMap (lineChars k))

/-- The tokens of outlines that are a whole document. -/
def tokens (k : Nat) : List Outline → List Token
  | [] => [⟨.eof, .none, .covering {} []⟩]
  | .node line inner :: os => line.tokens {} ++
      linesTokens k {} (({} : Position).past line.chars) (allLines 1 inner ++ allLines 0 os)

/-- The words of outlines that are a whole document. -/
def topWords : List Outline → List Word
  | [] => [.mark .eof]
  | o :: os => o.words ++ (os.flatMap (fun o => .mark .sameLevel :: o.words) ++ [.mark .eof])

mutual

theorem printable_lines (o : Outline) (depth : Nat) (h : o.Printable) :
    ∀ l ∈ o.lines depth, l.2.Printable := by
  cases o with
  | node line inner =>
    exact List.forall_mem_cons.mpr ⟨h.1, printable_allLines inner (depth + 1) h.2⟩

theorem printable_allLines (os : List Outline) (depth : Nat) (h : AllPrintable os) :
    ∀ l ∈ allLines depth os, l.2.Printable := by
  cases os with
  | nil => exact List.forall_mem_nil _
  | cons o os =>
    exact List.forall_mem_append.mpr
      ⟨printable_lines o depth h.1, printable_allLines os depth h.2⟩

end

mutual

theorem steady_lines (o : Outline) {d e : Nat} {ls : List (Nat × Phrase)} (he : e ≤ d + 1)
    (h : ∀ d', e ≤ d' → Steady d' ls) : Steady d (o.lines e ++ ls) := by
  cases o with
  | node line inner =>
    exact ⟨he, steady_allLines inner (le_refl _) fun d' hd' => h d' (Nat.le_of_succ_le_succ hd')⟩

theorem steady_allLines (os : List Outline) {d e : Nat} {ls : List (Nat × Phrase)} (he : e ≤ d + 1)
    (h : ∀ d', e ≤ d' + 1 → Steady d' ls) : Steady d (allLines e os ++ ls) := by
  cases os with
  | nil => exact h d he
  | cons o os =>
    rw [allLines, List.append_assoc]
    exact steady_lines o he fun d' hd' => steady_allLines os (Nat.le_succ_of_le hd') h

end

/-- The lines go on at depth `e` or above. -/
def Returns (e : Nat) (ls : List (Nat × Phrase)) : Prop := ∀ l ∈ ls.head?, l.1 ≤ e

theorem returns_allLines {e : Nat} {os : List Outline} {ls : List (Nat × Phrase)}
    (h : Returns e ls) : Returns e (allLines e os ++ ls) := by
  cases os with
  | nil => exact h
  | cons o os =>
    cases o with
    | node line inner => exact fun l hl => by rw [← Option.some.inj hl]

/-- A block is closed in front of lines that do not belong to it. -/
theorem wordsFrom_succ {e : Nat} {ls : List (Nat × Phrase)} (h : Returns e ls) :
    wordsFrom (e + 1) ls = .mark .blockClose :: wordsFrom e ls := by
  cases ls with
  | nil => rfl
  | cons l ls =>
    obtain ⟨f, line⟩ := l
    have hf : f ≤ e := h _ rfl
    rw [wordsFrom, wordsFrom, passage, passage, if_neg (by omega), if_neg (by omega),
      Nat.succ_sub hf, List.replicate_succ]
    rfl

mutual

theorem wordsFrom_lines (o : Outline) {d e : Nat} {ls : List (Nat × Phrase)} (h : Returns e ls) :
    wordsFrom d (o.lines e ++ ls) = passage d e ++ (o.words ++ wordsFrom e ls) := by
  cases o with
  | node line inner =>
    rw [lines, List.cons_append, wordsFrom, wordsFrom_inner inner h, words, List.append_assoc]

theorem wordsFrom_inner (os : List Outline) {e : Nat} {ls : List (Nat × Phrase)}
    (h : Returns e ls) :
    wordsFrom e (allLines (e + 1) os ++ ls) = innerWords os ++ wordsFrom e ls := by
  cases os with
  | nil => rfl
  | cons o os =>
    have hs : Returns (e + 1) ls := fun l hl => Nat.le_succ_of_le (h l hl)
    rw [allLines, List.append_assoc, wordsFrom_lines o (returns_allLines hs), wordsFrom_behind os h,
      innerWords]
    simp [passage]

theorem wordsFrom_behind (os : List Outline) {e : Nat} {ls : List (Nat × Phrase)}
    (h : Returns e ls) :
    wordsFrom (e + 1) (allLines (e + 1) os ++ ls) = behindWords os ++ wordsFrom e ls := by
  cases os with
  | nil => exact wordsFrom_succ h
  | cons o os =>
    have hs : Returns (e + 1) ls := fun l hl => Nat.le_succ_of_le (h l hl)
    rw [allLines, List.append_assoc, wordsFrom_lines o (returns_allLines hs), wordsFrom_behind os h,
      behindWords]
    simp [passage]

end

theorem returns_top (os : List Outline) : Returns 0 (allLines 0 os) := by
  rw [← List.append_nil (allLines 0 os)]
  exact returns_allLines nofun

theorem wordsFrom_top (os : List Outline) :
    wordsFrom 0 (allLines 0 os) =
      os.flatMap (fun o => .mark .sameLevel :: o.words) ++ [.mark .eof] := by
  induction os with
  | nil => rfl
  | cons o os ih =>
    rw [allLines, wordsFrom_lines o (returns_top os), ih, List.flatMap_cons, List.append_assoc]
    rfl

theorem topWords_cons (line : Phrase) (inner os : List Outline) :
    topWords (.node line inner :: os) =
      line.words ++ wordsFrom 0 (allLines 1 inner ++ allLines 0 os) := by
  rw [wordsFrom_inner inner (returns_top os), wordsFrom_top, topWords, words, List.append_assoc]

theorem steady_top (inner os : List Outline) : Steady 0 (allLines 1 inner ++ allLines 0 os) :=
  steady_allLines inner (le_refl _) fun d' _ => by
    rw [← List.append_nil (allLines 0 os)]
    exact steady_allLines os (Nat.zero_le _) fun _ _ => trivial

theorem printable_top {inner os : List Outline} (hinner : AllPrintable inner)
    (hos : AllPrintable os) : ∀ l ∈ allLines 1 inner ++ allLines 0 os, l.2.Printable :=
  List.forall_mem_append.mpr ⟨printable_allLines inner 1 hinner, printable_allLines os 0 hos⟩

/-- The text of outlines is cut into their tokens. -/
theorem tokenizes_text (k : Nat) {os : List Outline} (printable : AllPrintable os) :
    Tokenizes {} {} none (text k os).toList (tokens k os) := by
  rw [text, String.toList_ofList]
  match os, printable with
  | [], _ => exact .finish
  | .node line inner :: os, ⟨⟨hline, hinner⟩, hos⟩ =>
    have behind := tokenizes_lines (k := k) (printable_top hinner hos) {}
      (({} : Position).past line.chars)
    have cut := tokenizes_phrase (t := {}) (r := none) hline behind (endsWord_break _)
    simpa [allLines, lines, lineChars, tokens, Tracker.across] using cut

/-- The tokens of outlines are their words. -/
theorem map_word_tokens {k : Nat} (hk : 1 ≤ k) {os : List Outline} (printable : AllPrintable os) :
    (tokens k os).map Token.word = topWords os := by
  match os, printable with
  | [], _ => rfl
  | .node line inner :: os, ⟨⟨hline, hinner⟩, hos⟩ =>
    rw [tokens, List.map_append, Phrase.map_word_tokens hline, topWords_cons]
    exact congrArg (line.words ++ ·)
      (map_word_linesTokens hk (steady_top inner os) (printable_top hinner hos) _)

end Outline

end ScrapeConfig
