import ScrapeConfig.Proofs.Document.Concatenation
import ScrapeConfig.Proofs.Document.Relayout

/-!
# The top of a document

Blanks at the very beginning of a document are passed over. Behind a line break the same blanks are
measured, and open a block. So a document whose first line is indented is not read any more if blank
lines are put in front of it, and every other document is read as the same.

Results:
1. `says_front`: what a text says with blank lines in front.
2. `says_indented`: with blank lines in front, a first line that is indented says a block.
3. `Document.parse_opened`: which documents are read as the same with blank lines in front.
-/

namespace ScrapeConfig

open Lexical (IsSpace IsBlank Layout BlankLines)
open Rule (Cuts Stops)
open Syntax (sameLevels)

/-! ## Blank lines in front -/

theorem lastLine_cons_break (cs : List Char) : lastLine ('\n' :: cs) = lastLine cs :=
  lastLine_append_congr (show lastLine ['\n'] = lastLine [] from rfl) cs

/-- Blank lines in front of layout are collected with it, from their first line break on. -/
theorem says_front {t : Tracker} {lines space rest : List Char} {ws : List Word}
    (blank : BlankLines lines) (ne : lines ≠ []) (layout : Layout space) (stops : Stops rest)
    (said : ∀ x, Says t (some (x ++ '\n' :: space)) rest ws) :
    Says t none (lines ++ (space ++ rest)) ws := by
  cases blank with
  | nil => exact absurd rfl ne
  | @line blanks comment lines hblanks hcomment hlines =>
    obtain ⟨x, hx⟩ := hlines.exists_break
    have indent : Cuts 2 ('\n' :: (lines ++ space)) rest :=
      Rule.cuts_indent.mpr ⟨⟨_, rfl, Rule.Layout.append hlines.layout layout⟩, stops⟩
    have broken : Says t none ('\n' :: (lines ++ space) ++ rest) ws := by
      have collected : '\n' :: (lines ++ space) = x ++ '\n' :: space := by
        rw [← List.cons_append, hx, List.append_assoc]
        rfl
      exact says_indent (collected ▸ said x) indent
    have commented : Says t none (comment ++ ('\n' :: (lines ++ space) ++ rest)) ws := by
      rcases hcomment with rfl | hcomment
      · exact broken
      · exact says_skip broken
          (Rule.cuts_comment.mpr ⟨hcomment, fun c hc => (Option.some.inj hc).symm⟩) (.inl rfl)
    have whole : Says t none (blanks ++ (comment ++ ('\n' :: (lines ++ space) ++ rest))) ws := by
      by_cases none : blanks = []
      · rwa [none]
      · refine says_skip commented (Rule.cuts_blanks.mpr ⟨⟨none, hblanks⟩, fun c hc => ?_⟩) (.inr rfl)
        rcases hcomment with rfl | ⟨v, rfl, _⟩
        · exact Option.some.inj hc ▸ by decide
        · exact Option.some.inj hc ▸ by decide
    simpa using whole

/-! ## A first line that is indented -/

/-- Behind a line break it opens a block. -/
theorem Tracker.waiting_indented {space : List Char} (indented : lastLine space ≠ []) :
    (({} : Tracker).across (some ('\n' :: space))).waiting = [.mark .blockOpen] := by
  have positive : 0 < measure ('\n' :: space) := by
    rw [measure_eq List.mem_cons_self, lastLine_cons_break]
    exact List.length_pos_iff.mpr indented
  rw [across, indent, moveTo, if_pos positive]
  rfl

/-- A text without a word of its own has none that could stand elsewhere. -/
theorem atLineStart_of_trailing {p : Position} {r : Option (List Char)} {cs : List Char}
    {ts : List Token} (h : Tokenizes p {} r cs ts) (trailing : Trailing cs) : AtLineStart ts := by
  intro t ht
  have words : ts.map Token.word = [.mark .eof] := (says_trailing trailing {} r).eq_of_tokenizes h
  have word := List.mem_map_of_mem (f := Token.word) (List.mem_of_find?_eq_some ht)
  rw [words, List.mem_singleton] at word
  obtain ⟨eof, _⟩ := Token.word_eq_mark_iff.mp word
  exact absurd (List.find?_some ht) (by rw [eof]; decide)

/-- Its first word does not stand at the beginning of a line. -/
theorem says_indented {cs : List Char} {ts : List Token} (h : Tokenizes {} {} none cs ts)
    (start : ¬ AtLineStart ts) :
    ∃ space rest ws, cs = space ++ rest ∧ Layout space ∧ Stops rest ∧
      ∀ x, Says {} (some (x ++ '\n' :: space)) rest (.mark .blockOpen :: ws) := by
  obtain ⟨space, rest, rfl, layout, stops⟩ := exists_layout cs
  obtain ⟨r, behind, _⟩ := h.of_layout layout stops
  rcases stops.trailing_or with trailing | ⟨c, rest, rfl, hc, comment⟩
  · exact absurd (atLineStart_of_trailing behind trailing) start
  · obtain ⟨i, text, back, kind, payload, ts', heq, cut, meant, onward, rfl⟩ :=
      behind.of_word hc comment
    have indented : lastLine space ≠ [] := by
      intro flush
      refine start ((atLineStart_iff meant.not_isStructural).mpr ?_)
      show (({} : Position).past space).column = 1
      rw [← Position.behind_nil, Position.past_behind, List.nil_append, Position.behind, flush]
      rfl
    obtain ⟨_, given⟩ := onward.yields.elsewhere
      (({} : Tracker).across (some ('\n' :: space))).settled none
    obtain ⟨us, cuts, _⟩ := given.tokenizes {}
    refine ⟨space, _, (Token.mk kind payload {}).word :: us.map Token.word, rfl, layout, stops,
      fun x => ?_⟩
    have same : ({} : Tracker).across (some (x ++ '\n' :: space)) =
        ({} : Tracker).across (some ('\n' :: space)) :=
      ({} : Tracker).across_of_lastLine (by simp) (by simp) (lastLine_append List.mem_cons_self)
    have behind : Says (({} : Tracker).across (some (x ++ '\n' :: space))).settled none back _ :=
      same ▸ says_of_tokenizes cuts
    have said := says_token (w := (Token.mk kind payload {}).word) behind cut meant fun _ => rfl
    rwa [same, Tracker.waiting_indented indented, ← heq] at said

/-! ## Documents -/

namespace Syntax.Document

/-- No document begins with a block. -/
theorem words_ne_blockOpen (d : Document) (ws : List Word) :
    d.words ≠ .mark .ctx :: .mark .blockOpen :: ws := by
  intro h
  rcases of_sameLevels (n := 0) (w := .mark .blockOpen) (by decide) h.symm with
    ⟨eof, _⟩ | ⟨x, lines, behind, hx, _⟩
  · cases eof
  · obtain ⟨w, rest, words, content⟩ := Document.section_content x
    rw [words] at hx
    exact content.not_beginsLine (.inl (List.cons.inj hx).1.symm)

end Syntax.Document

namespace Document

variable {threaded : Bool} {context : Context} {lines source : String} {tokens : List Token}
  {c : Configuration}

/-- A document is read as the same with blank lines in front of it, if and only if its first token
stands at the beginning of a line. -/
theorem parse_opened (blank : BlankLines lines.toList) (ne : lines ≠ "")
    (hc : parse threaded context source = .ok c)
    (h : tokenize threaded context source = .ok tokens) :
    parse threaded context (lines ++ source) = .ok c ↔ AtLineStart tokens := by
  have some : lines.toList ≠ [] := fun hnil => ne (String.toList_eq_nil_iff.mp hnil)
  obtain ⟨ts, rfl, cuts⟩ := tokenize_eq_ok.mp h
  constructor
  · intro opened
    by_contra start
    obtain ⟨space, rest, ws, heq, layout, stops, next⟩ := says_indented cuts start
    obtain ⟨_, tokenized, hread⟩ := parse_eq_ok.mp opened
    obtain ⟨_, d, words, _⟩ := (parsed_iff tokenized).mp hread
    obtain ⟨us, rfl, cuts'⟩ := tokenize_eq_ok.mp tokenized
    rw [String.toList_append, heq] at cuts'
    have said := (says_front blank some layout stops next).eq_of_tokenizes cuts'
    rw [List.map_cons, said] at words
    exact d.words_ne_blockOpen ws words.symm
  · intro start
    obtain ⟨_, tokenized, hread⟩ := parse_eq_ok.mp hc
    obtain rfl := Except.ok.inj (h.symm.trans tokenized)
    obtain ⟨_, d, words, conditions, rfl⟩ := (parsed_iff h).mp hread
    obtain ⟨space, rest, ws, heq, layout, stops, next, hws⟩ := exists_beginning cuts start
    obtain ⟨us, cuts', said⟩ :=
      says_front blank some layout stops (fun x => next {} Tracker.grounded_empty x) {}
    obtain ⟨z, hz, sections⟩ :=
      @Syntax.Document.exists_joined ⟨0, none, 0⟩ d [] _ _ rfl words hws
    have tokenized : tokenize threaded context (lines ++ source) = .ok (.opening context :: us) :=
      tokenize_eq_ok.mpr ⟨us, rfl, by rwa [String.toList_append, heq]⟩
    have sections : z.sections = d.sections := sections
    have valid := valid_iff.mpr conditions
    rw [← sections] at valid
    refine parse_eq_ok.mpr ⟨_, tokenized, ?_⟩
    rw [parsed_of_words tokenized (by rw [List.map_cons, said]; exact hz) (valid_iff.mp valid),
      Syntax.Document.configuration, sections]
    rfl

theorem blankLines_break : BlankLines "\n".toList := @BlankLines.line [] [] [] nofun (.inl rfl) .nil

/-- A comment and a blank line in front of a document. -/
theorem parse_opened_api :
    let lines := " # notes\n\n"
    let c := (Syntax.Document.ofSections apiSections).configuration {}
    BlankLines lines.toList ∧ lines ≠ "" ∧ parse false {} apiText = .ok c ∧
      tokenize false {} apiText = .ok apiTokens ∧
        (parse false {} (lines ++ apiText) = .ok c ↔ AtLineStart apiTokens) ∧
          parse false {} (lines ++ apiText) = .ok c := by
  intro lines c
  have comment : Lexical.IsComment ['#', ' ', 'n', 'o', 't', 'e', 's'] := ⟨_, rfl, by decide⟩
  have blanks : ∀ c ∈ [' '], IsBlank c := List.forall_mem_singleton.mpr (.inl rfl)
  have blank : BlankLines " # notes\n\n".toList :=
    @BlankLines.line [' '] _ ['\n'] blanks (.inr comment) blankLines_break
  have opened := parse_opened blank (by decide) parse_api (tokenize_api false)
  refine ⟨blank, by decide, parse_api, tokenize_api false, opened, opened.mpr ?_⟩
  rintro t ⟨⟩
  rfl

/-- A document of one indented line is read, and it is not if a line break is put in front of it. -/
theorem parse_indented : BlankLines "\n".toList ∧ parse false {} "  DATASET" = .ok ⟨true, []⟩ ∧
    parse false {} ("\n" ++ "  DATASET") ≠ .ok ⟨true, []⟩ := by
  have name : ['D', 'A', 'T', 'A', 'S', 'E', 'T'] ∈ Rule.keywordNames := by decide
  have dataset : Cuts 4 ['D', 'A', 'T', 'A', 'S', 'E', 'T'] [] := Rule.cuts_keyword name nofun
  have means := Rule.Means.keyword (k := .dataset) (by decide) (Rule.spells_self name)
  refine ⟨blankLines_break, ?_, fun opened => ?_⟩
  · have blanks : Cuts 3 [' ', ' '] ['D', 'A', 'T', 'A', 'S', 'E', 'T'] :=
      Rule.cuts_blanks.mpr ⟨⟨by simp, by simp [IsBlank]⟩, by simp [IsBlank]⟩
    have cuts : Tokenizes {} {} none "  DATASET".toList _ :=
      .skip rfl blanks (.inr rfl) (.token rfl dataset means .finish)
    have tokenized : tokenize false {} "  DATASET" = .ok _ := tokenize_eq_ok.mpr ⟨_, rfl, cuts⟩
    exact parse_eq_ok.mpr ⟨_, tokenized, parsed_of_words tokenized (x := ⟨0, some ⟨.dataset, []⟩, 0⟩)
      rfl (valid_iff.mp ⟨trivial, trivial⟩)⟩
  · have blank : IsSpace ' ' := by decide
    have indent : Cuts 2 ['\n', ' ', ' '] ['D', 'A', 'T', 'A', 'S', 'E', 'T'] :=
      Rule.cuts_indent.mpr ⟨⟨_, rfl, .space blank (.space blank .nil)⟩, fun c hc => by
        rw [← Option.some.inj hc]
        exact ⟨by decide, fun h => absurd h (by decide)⟩⟩
    have cuts : Tokenizes {} {} none ("\n" ++ "  DATASET").toList _ :=
      .indent rfl indent (.token rfl dataset means .finish)
    obtain ⟨_, tokenized, hread⟩ := parse_eq_ok.mp opened
    obtain rfl := Except.ok.inj (tokenized.symm.trans (tokenize_eq_ok.mpr ⟨_, rfl, cuts⟩))
    obtain ⟨_, d, words, _⟩ := (parsed_iff tokenized).mp hread
    exact d.words_ne_blockOpen _ words.symm

end Document

end ScrapeConfig
