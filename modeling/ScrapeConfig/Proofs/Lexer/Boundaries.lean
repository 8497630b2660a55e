import ScrapeConfig.Proofs.Layout.Blocks
import ScrapeConfig.Proofs.Lexer.Tokens
import ScrapeConfig.Proofs.Text.Position

/-!
# Boundaries and where they stand

A level is not read off the column of a token. It is measured on white space, which is collected
from frames, goes through blank lines and comments, and waits for a token behind it. Yet the two
agree: by the time that a token comes, what was collected last ends right in front of it.

Results:
1. `Lead`: a token with the boundaries in front of it.
2. `LaidOut`: frames, and the leads that they stand for, with no white space collected.
3. `Tokenizes.exists_laidOut`: the tokens of a text are laid out so.
4. `Document.tokens_announced`: all boundaries of a document, and where they stand.
-/

namespace ScrapeConfig

open Boundary (crossing track)
open Lexical (IsSpace)
open Rule (Cuts Stops)

/-! ## Columns -/

theorem Tracker.measure_eq {space : List Char} (h : '\n' ∈ space) :
    measure space = (lastLine space).length := by
  rw [measure, if_pos h, lastLine, List.rtakeWhile, List.length_reverse]

/-- White space that ends behind a line break measures as many columns as were gone on. -/
theorem Tracker.measure_collected {text : List Char} (h : '\n' ∈ text) (p : Position)
    (space : List Char) : (p.past text).column = 1 + measure (space ++ text) := by
  rw [Position.column_past h, measure_eq (List.mem_append_right _ h), lastLine_append h]

/-! ## Gaps -/

namespace Frame

/-- A line break and the white space and comment lines behind it. -/
def IsIndent (f : Frame) : Prop := f.pattern = some 2

/-- What stands between the texts of tokens. -/
def IsGap (f : Frame) : Prop := f.pattern = some 0 ∨ f.pattern = some 3 ∨ f.IsIndent

instance : DecidablePred IsIndent := fun f => inferInstanceAs (Decidable (f.pattern = some 2))

end Frame

namespace Segments

variable {p : Position} {cs : List Char} {fs gap : List Frame}

/-- Of what stands between tokens, only indentation has line breaks. -/
theorem break_iff (h : Segments p cs fs) (sub : gap ⊆ fs) (hgap : ∀ g ∈ gap, g.IsGap) :
    '\n' ∈ gap.flatMap (·.text) ↔ ∃ g ∈ gap, g.IsIndent := by
  rw [List.mem_flatMap]
  refine exists_congr fun g => and_congr_right fun hg => ?_
  have denotes : ∀ {i}, g.pattern = some i → Rule.Denotes i g.text := fun hi =>
    have ⟨_, cut⟩ := h.exists_cut (sub hg) hi
    cut.denotes
  constructor
  · intro broken
    rcases hgap g hg with comment | blanks | indent
    · obtain ⟨v, hv, unbroken⟩ := denotes comment
      rw [hv] at broken
      exact absurd ((List.mem_cons.mp broken).resolve_left (by decide)) unbroken
    · exact absurd ((denotes blanks).2 _ broken) (by decide)
    · exact indent
  · intro indent
    obtain ⟨v, hv, _⟩ := denotes indent
    rw [hv]
    exact List.mem_cons_self

end Segments

/-! ## Leads -/

/-- A token and the boundaries in front of it. -/
structure Lead where
  boundaries : List Boundary
  token : Token

namespace Lead

def span (lead : Lead) : Span := lead.token.span

/-- Boundaries are given the span of the token that they stand in front of. -/
def tokens (lead : Lead) : List Token :=
  lead.boundaries.map (Boundary.token lead.span) ++ [lead.token]

/-- The open blocks behind a list of leads. -/
def openBlocks (blocks : List Nat) (leads : List Lead) : List Nat :=
  leads.foldl (fun blocks lead => lead.boundaries.foldl track blocks) blocks

/-- The boundaries in front of a token of level `n`, where `gap` stands between it and the token
before. -/
def across (gap : List Frame) (n : Nat) (blocks : List Nat) : List Boundary :=
  if ∃ g ∈ gap, g.IsIndent then crossing n blocks else []

theorem across_ne_nil {gap : List Frame} {n : Nat} {blocks : List Nat} :
    across gap n blocks ≠ [] ↔ ∃ g ∈ gap, g.IsIndent := by
  obtain ⟨closed, last, heq, _⟩ := Boundary.crossing_eq n blocks
  rw [across, heq]
  split <;> simp_all

end Lead

/-- The frames stand for the leads, with these blocks open in front of them. -/
inductive LaidOut : List Nat → List Frame → List Lead → Prop
  | close {blocks : List Nat} {gap : List Frame} {p : Position} :
      (∀ g ∈ gap, g.IsGap) → LaidOut blocks (gap ++ [.finish p]) []
  | lead {blocks : List Nat} {gap fs : List Frame} {f : Frame} {lead : Lead} {leads : List Lead} :
      (∀ g ∈ gap, g.IsGap) → lead.token.kind.isStructural = false → lead.span = f.span →
      lead.boundaries = Lead.across gap (lead.span.column - 1) blocks →
      LaidOut (lead.boundaries.foldl track blocks) fs leads →
      LaidOut blocks (gap ++ f :: fs) (lead :: leads)

/-! ## From texts to leads -/

/-- A gap that follows where layout stops is a comment at the very end. -/
theorem Rule.Stops.eq_nil {i : Nat} {text rest : List Char} (stops : Stops (text ++ rest))
    (cut : Cuts i text rest) (hi : i = 0 ∨ i = 3) : rest = [] := by
  rcases hi with rfl | rfl
  · obtain ⟨⟨v, rfl, _⟩, head⟩ := Rule.cuts_comment.mp cut
    cases rest with
    | nil => rfl
    | cons c rest =>
      obtain rfl := head c rfl
      exact absurd (by simp) ((stops '#' rfl).2 rfl)
  · obtain ⟨ne, blanks⟩ := cut.denotes
    obtain ⟨c, v, rfl⟩ := List.exists_cons_of_ne_nil ne
    exact absurd (.inl (blanks c List.mem_cons_self)) (stops c rfl).1

/-- What is to be said of collected white space: unless nothing follows, it ends right here, and
what follows is no more layout. -/
def Settles (p : Position) (run : Option (List Char)) (cs : List Char) : Prop :=
  ∀ space ∈ run, cs ≠ [] → Stops cs ∧ p.column = 1 + Tracker.measure space

namespace Settles

variable {p : Position} {run : Option (List Char)} {text rest : List Char}

theorem skip {i : Nat} (h : Settles p run (text ++ rest)) (cut : Cuts i text rest)
    (hi : i = 0 ∨ i = 3) : Settles (p.past text) run rest := fun space hspace hrest =>
  have ⟨stops, _⟩ := h space hspace (List.append_ne_nil_of_right_ne_nil _ hrest)
  absurd (stops.eq_nil cut hi) hrest

theorem indent (cut : Cuts 2 text rest) (p : Position) (run : Option (List Char)) :
    Settles (p.past text) (some (run.getD [] ++ text)) rest := fun space hspace _ => by
  obtain ⟨⟨v, rfl, _⟩, stops⟩ := Rule.cuts_indent.mp cut
  obtain rfl := Option.some.inj hspace
  exact ⟨stops, Tracker.measure_collected List.mem_cons_self p _⟩

end Settles

section

variable {t : Tracker} {run : Option (List Char)} {blocks : List Nat} {gap : List Frame} {n : Nat}

/-- Collected white space puts the boundaries in front of a token that its gap asks for. -/
theorem Tracker.Holds.across (h : t.Holds blocks) (collected : run.isSome ↔ ∃ g ∈ gap, g.IsIndent)
    (measured : ∀ space ∈ run, measure space = n) :
    (t.across run).pending = Lead.across gap n blocks ∧
      (t.across run).settled.Holds ((Lead.across gap n blocks).foldl track blocks) := by
  rw [Lead.across]
  cases run with
  | none =>
    rw [if_neg (collected.not.mp nofun)]
    exact ⟨h.pending, rfl, h.levels⟩
  | some space =>
    rw [if_pos (collected.mp rfl), Tracker.across, Tracker.indent, measured space rfl]
    exact ⟨pending_moveTo h n, rfl, levels_moveTo h n⟩

end

/-- The tokens at the end of a document: open blocks are closed. -/
def Token.ending (blocks : List Nat) (span : Span) : List Token :=
  blocks.map (fun level => (Boundary.blockClose level).token span) ++ [⟨.eof, .none, span⟩]

/-- The tokens of a text are laid out by its frames, by induction on how the text is cut. What is
kept up is that the tracker holds the open blocks, that something is collected just when there is
indentation in the gap so far, and that it settles. -/
theorem Tokenizes.exists_laidOut {p : Position} {t : Tracker} {run : Option (List Char)}
    {cs : List Char} {ts : List Token} (h : Tokenizes p t run cs ts) {blocks : List Nat}
    {gap : List Frame} (ht : t.Holds blocks) (hgap : ∀ g ∈ gap, g.IsGap)
    (collected : run.isSome ↔ ∃ g ∈ gap, g.IsIndent) (settles : Settles p run cs) :
    ∃ fs leads, Segments p cs fs ∧ LaidOut blocks (gap ++ fs) leads ∧
      ts = leads.flatMap Lead.tokens ++
        Token.ending (Lead.openBlocks blocks leads) (.covering (p.past cs) []) := by
  induction h generalizing blocks gap with
  | @finish p t run =>
    refine ⟨_, [], .finish, .close hgap, ?_⟩
    rw [Tracker.pending_finish ht, List.map_map]
    rfl
  | @skip p t run i cs text rest ts heq cut hi _ ih =>
    subst heq
    have skipped : (Frame.mk (some i) text p).IsGap :=
      hi.imp (congrArg some) fun hi => .inl (congrArg some hi)
    have collected' : run.isSome ↔ ∃ g ∈ gap ++ [⟨some i, text, p⟩], g.IsIndent := by
      rw [collected]
      rcases hi with rfl | rfl <;> simp [Frame.IsIndent]
    -- The gap grows at its end, and what was collected stays as it is.
    obtain ⟨fs, leads, segments, laid, hts⟩ := ih ht
      (List.forall_mem_append.mpr ⟨hgap, List.forall_mem_singleton.mpr skipped⟩) collected'
      (settles.skip cut hi)
    refine ⟨_, leads, .piece rfl cut segments, ?_, ?_⟩
    · rwa [List.append_cons]
    · rw [Position.past_append, hts]
  | @indent p t run cs text rest ts heq cut _ ih =>
    subst heq
    have indented : (Frame.mk (some 2) text p).IsGap := .inr (.inr rfl)
    obtain ⟨fs, leads, segments, laid, hts⟩ := ih ht
      (List.forall_mem_append.mpr ⟨hgap, List.forall_mem_singleton.mpr indented⟩)
      (by simp [Frame.IsIndent]) (.indent cut p run)
    refine ⟨_, leads, .piece rfl cut segments, ?_, ?_⟩
    · rwa [List.append_cons]
    · rw [Position.past_append, hts]
  | @token p t run i cs text rest ts kind payload heq cut meant _ ih =>
    subst heq
    have ne := List.append_ne_nil_of_left_ne_nil (Rule.denotes_ne_nil cut.denotes) rest
    -- Here the level that was measured is needed, and it is that of the column.
    obtain ⟨pending, holds⟩ := ht.across (n := p.column - 1) collected fun space hspace => by
      rw [(settles space hspace ne).2, Nat.add_sub_cancel_left]
    obtain ⟨fs, leads, segments, laid, hts⟩ := ih holds (List.forall_mem_nil _)
      (by simp) nofun
    let lead : Lead := ⟨Lead.across gap (p.column - 1) blocks, ⟨kind, payload, .covering p text⟩⟩
    refine ⟨⟨some i, text, p⟩ :: fs, lead :: leads, .piece rfl cut segments,
      .lead hgap meant.not_isStructural rfl rfl laid, ?_⟩
    rw [pending, hts, Position.past_append, List.flatMap_cons, Lead.tokens, List.append_assoc,
      List.append_assoc]
    rfl

/-! ## Where boundaries stand -/

/-- The frames between that of a token and that of the token before it, which is the last of
`front`. If there is none, they begin with the source. -/
def Lead.HasGap (fs : List Frame) (front : List Lead) (lead : Lead) (gap : List Frame) : Prop :=
  (∀ g ∈ gap, g.IsGap) ∧ ∃ done f rest, fs = done ++ gap ++ f :: rest ∧ f.span = lead.span ∧
    done.getLast?.map Frame.span = front.getLast?.map Lead.span

/-- How a token is announced behind those of `front`, by boundaries or by none. -/
structure Announced (fs : List Frame) (front : List Lead) (lead : Lead) : Prop where
  real : lead.token.kind.isStructural = false
  /-- Boundaries stand for indentation, which is to say, for a line break between two tokens. -/
  indented : ∃ gap, lead.HasGap fs front gap ∧ (lead.boundaries ≠ [] ↔ ∃ g ∈ gap, g.IsIndent) ∧
    (lead.boundaries ≠ [] ↔ '\n' ∈ gap.flatMap (·.text))
  ruled : lead.boundaries ≠ [] →
    lead.boundaries = crossing (lead.span.column - 1) (Lead.openBlocks [] front)
  arrives : ∀ b ∈ lead.boundaries.getLast?, b.Arrives (lead.span.column - 1)

/-- What the layout says of each lead, by induction on the leads in front of it. -/
theorem LaidOut.exists_gap {front back : List Lead} {lead : Lead} {blocks : List Nat}
    {fs : List Frame} (h : LaidOut blocks fs (front ++ lead :: back)) :
    lead.token.kind.isStructural = false ∧ ∃ gap, lead.HasGap fs front gap ∧
      lead.boundaries = Lead.across gap (lead.span.column - 1) (Lead.openBlocks blocks front) := by
  induction front generalizing blocks fs with
  | nil => cases h with
    | @lead _ gap _ f _ _ hgap real spanned boundaries _ =>
      exact ⟨real, gap, ⟨hgap, [], f, _, rfl, spanned.symm, rfl⟩, boundaries⟩
  | cons first front ih => cases h with
    | @lead _ gap _ f _ _ _ _ spanned _ behind =>
      obtain ⟨real, gap', ⟨hgap', done, f', rest, rfl, spanned', last⟩, boundaries⟩ := ih behind
      refine ⟨real, gap', ⟨hgap', gap ++ f :: done, f', rest, ?_, spanned', ?_⟩, boundaries⟩
      · simp only [List.append_assoc, List.cons_append]
      · rw [List.getLast?_append_of_ne_nil _ (List.cons_ne_nil _ _), List.getLast?_cons,
          List.getLast?_cons, Option.map_some, Option.map_some, ← Option.getD_map Frame.span, last,
          ← spanned, Option.getD_map]

theorem LaidOut.announced {front back : List Lead} {lead : Lead} {p : Position} {cs : List Char}
    {fs : List Frame} (h : LaidOut [] fs (front ++ lead :: back)) (segments : Segments p cs fs) :
    Announced fs front lead := by
  obtain ⟨real, gap, between, boundaries⟩ := h.exists_gap
  have indented : lead.boundaries ≠ [] ↔ ∃ g ∈ gap, g.IsIndent := by
    rw [boundaries, Lead.across_ne_nil]
  have ruled (ne : lead.boundaries ≠ []) : lead.boundaries =
      crossing (lead.span.column - 1) (Lead.openBlocks [] front) := by
    rw [boundaries, Lead.across, if_pos (indented.mp ne)]
  have sub : gap ⊆ fs := by
    obtain ⟨_, done, f, rest, rfl, _⟩ := between
    exact fun g hg => List.mem_append_left _ (List.mem_append_right _ hg)
  refine ⟨real, ⟨gap, between, indented, ?_⟩, ruled, fun b hb => ?_⟩
  · rw [indented, segments.break_iff sub between.1]
  · have ne : lead.boundaries ≠ [] := List.ne_nil_of_mem (List.mem_of_getLast? hb)
    obtain ⟨closed, last, heq, arrives⟩ := Boundary.crossing_eq
      (lead.span.column - 1) (Lead.openBlocks [] front)
    rw [ruled ne, heq, List.getLast?_concat] at hb
    obtain rfl := Option.some.inj hb
    exact arrives

/-- The tokens of a document: its context, tokens with their boundaries in front of them, and the
end, where all blocks that are still open are closed. A token has boundaries if and only if a line
break stands between it and the token before, and these are the ones that the rule of indentation
gives for its column. -/
theorem Document.tokens_announced {threaded : Bool} {context : Context} {source : String}
    {tokens : List Token} (h : tokenize threaded context source = .ok tokens) :
    ∃ set leads, Rule.documentPatterns = .ok set ∧
      tokens = .opening context :: (leads.flatMap Lead.tokens ++
        Token.ending (Lead.openBlocks [] leads) (.covering (.behind source.toList) [])) ∧
      ∀ front lead back, leads = front ++ lead :: back →
        Announced (frames set threaded source) front lead := by
  obtain ⟨set, hset, _⟩ := Rule.documentPatterns_eq_ok
  obtain ⟨ts, rfl, cuts⟩ := tokenize_eq_ok.mp h
  obtain ⟨fs, leads, segments, laid, hts⟩ :=
    cuts.exists_laidOut Tracker.holds_empty (List.forall_mem_nil _) (by simp) nofun
  obtain rfl := segments.unique (segments_frames hset threaded source)
  refine ⟨set, leads, hset, ?_, ?_⟩
  · rw [hts, ← Position.behind_nil, Position.past_behind, List.nil_append]
  · rintro front lead back rfl
    exact laid.announced segments

namespace Document

/-- Three lines, of which the second opens a block and the third is on no level. -/
theorem tokenize_stairs : tokenize false {} "DATASET\n  DATASET\n DATASET" = .ok [.opening {},
    ⟨.dataset, .none, ⟨0, 7, 1, 1⟩⟩,
    ⟨.blockOpen, .level 2, ⟨10, 17, 2, 3⟩⟩, ⟨.dataset, .none, ⟨10, 17, 2, 3⟩⟩,
    ⟨.blockClose, .level 2, ⟨19, 26, 3, 2⟩⟩, ⟨.badIndent, .level 0, ⟨19, 26, 3, 2⟩⟩,
    ⟨.dataset, .none, ⟨19, 26, 3, 2⟩⟩, ⟨.eof, .none, ⟨26, 26, 3, 9⟩⟩] := by
  have name : ['D', 'A', 'T', 'A', 'S', 'E', 'T'] ∈ Rule.keywordNames := by decide
  have means := Rule.Means.keyword (k := .dataset) (by decide) (Rule.spells_self name)
  have blank : IsSpace ' ' := by decide
  have stops (cs : List Char) : Stops ('D' :: cs) := fun c hc => by
    rw [← Option.some.inj hc]
    exact ⟨by decide, fun h => absurd h (by decide)⟩
  have one (rest : List Char) : Cuts 2 ['\n', ' '] ('D' :: rest) :=
    Rule.cuts_indent.mpr ⟨⟨_, rfl, .space blank .nil⟩, stops _⟩
  have two (rest : List Char) : Cuts 2 ['\n', ' ', ' '] ('D' :: rest) :=
    Rule.cuts_indent.mpr ⟨⟨_, rfl, .space blank (.space blank .nil)⟩, stops _⟩
  have cut : Tokenizes {} {} none "DATASET\n  DATASET\n DATASET".toList _ :=
    .token rfl (Rule.cuts_keyword name (by simp)) means <|
      .indent rfl (two _) <| .token rfl (Rule.cuts_keyword name (by simp)) means <|
      .indent rfl (one _) <| .token rfl (Rule.cuts_keyword name nofun) means .finish
  exact tokenize_eq_ok.mpr ⟨_, rfl, cut⟩

/-- The boundaries of the three lines. -/
theorem tokens_announced_stairs :
    ∃ tokens, tokenize false {} "DATASET\n  DATASET\n DATASET" = .ok tokens ∧
      ∃ set leads, Rule.documentPatterns = .ok set ∧
        tokens = .opening {} :: (leads.flatMap Lead.tokens ++ Token.ending
          (Lead.openBlocks [] leads) (.covering ⟨26, 3, 9⟩ [])) ∧
        ∀ front lead back, leads = front ++ lead :: back →
          Announced (frames set false "DATASET\n  DATASET\n DATASET") front lead :=
  ⟨_, tokenize_stairs, tokens_announced tokenize_stairs⟩

end Document

end ScrapeConfig
