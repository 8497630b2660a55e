import ScrapeConfig.Proofs.Document.Coverage
import ScrapeConfig.Proofs.Lexer.Contents

/-!
# Another layout

The tokens of a document stay the same when it is laid out in another way: with longer blanks, with
comments at the ends of lines, with more lines of blanks and comments, or with more of all this behind
its end. An edit can change how the text in front of it is cut, so the edited text is compared together
with the frame in front of it.

Results:
1. `Relaid`: the edits of a document.
2. `Swap`: a text that can stand for another one at the end of a text. `Swap.front` puts the same text
   in front of both.
3. `Swap.blanks`, `Swap.comment`, `Swap.lines`, `Yields.ending`: one lemma for each edit.
4. `Document.tokenize_relaid`: the tokens of a document that was laid out anew.
-/

namespace ScrapeConfig

open Lexical (IsSpace IsBlank IsBlanks IsComment IsComma IsIndent Layout)
open Rule (Cuts Stops Denotes IsLetter NamesWithin)

/-! ## Edits -/

namespace Lexical

/-- Lines that hold blanks and at most a comment. -/
inductive BlankLines : List Char → Prop
  | nil : BlankLines []
  | line {blanks comment lines : List Char} : (∀ c ∈ blanks, IsBlank c) →
      comment = [] ∨ IsComment comment → BlankLines lines →
      BlankLines (blanks ++ comment ++ '\n' :: lines)

/-- White space and comments in any order. -/
inductive Filling : List Char → Prop
  | nil : Filling []
  | space {c : Char} {u : List Char} : IsSpace c → Filling u → Filling (c :: u)
  | comment {v u : List Char} : IsComment v → Filling u → Filling (v ++ u)

end Lexical

open Lexical (BlankLines Filling)

theorem Lexical.BlankLines.layout {lines : List Char} (h : BlankLines lines) : Layout lines := by
  induction h with
  | nil => exact .nil
  | @line blanks comment lines hblanks hcomment _ ih =>
    rw [List.append_assoc]
    refine Rule.Layout.append (layout_of_blanks hblanks) ?_
    exact layout_trailing hcomment ih

/-- Blank lines end with a line break, if there are any. -/
theorem Lexical.BlankLines.exists_break {lines : List Char} (h : BlankLines lines) :
    ∃ x, '\n' :: lines = x ++ ['\n'] := by
  induction h with
  | nil => exact ⟨[], rfl⟩
  | @line blanks comment _ _ _ _ ih =>
    obtain ⟨x, hx⟩ := ih
    exact ⟨'\n' :: (blanks ++ comment ++ x), by rw [hx]; simp⟩

/-- The text that frames were cut out of. -/
def Frame.textOf (fs : List Frame) : List Char := fs.flatMap (·.text)

theorem Frame.textOf_cons (f : Frame) (fs : List Frame) : textOf (f :: fs) = f.text ++ textOf fs :=
  List.flatMap_cons

/-- The texts that a document with these frames can be edited to. -/
inductive Relaid (fs : List Frame) : List Char → Prop
  /-- Blanks are lengthened by further blanks. -/
  | blanks {done rest : List Frame} {text longer : List Char} {p : Position} :
      fs = done ++ ⟨some 3, text, p⟩ :: rest → text.Sublist longer → (∀ c ∈ longer, IsBlank c) →
      Relaid fs (Frame.textOf done ++ (longer ++ Frame.textOf rest))
  /-- A comment is inserted in front of a line break. -/
  | comment {done rest : List Frame} {text comment : List Char} {p : Position} :
      fs = done ++ ⟨some 2, text, p⟩ :: rest → '\n' ∉ comment →
      Relaid fs (Frame.textOf done ++ (' ' :: '#' :: comment ++ (text ++ Frame.textOf rest)))
  /-- Lines are inserted behind a line break. -/
  | lines {done rest : List Frame} {space lines : List Char} {p : Position} :
      fs = done ++ ⟨some 2, '\n' :: space, p⟩ :: rest → BlankLines lines →
      Relaid fs (Frame.textOf done ++ ('\n' :: (lines ++ space) ++ Frame.textOf rest))
  /-- A line break and more is appended. -/
  | ending {filling : List Char} : Filling filling →
      Relaid fs (Frame.textOf fs ++ '\n' :: filling)

/-! ## Names -/

/-- Behind white space within a name stands a letter. -/
theorem Rule.letter_of_isSpace {j : Nat} {w u : List Char} {c : Char} (hj : j = 4 ∨ j = 7)
    (h : Denotes j (w ++ c :: u)) (hc : IsSpace c) : ∃ d v, u = d :: v ∧ IsLetter d := by
  rcases hj with rfl | rfl
  · exact Keyword.letter_of_isSpace hc h
  · obtain ⟨d, v, heq, hd, hv⟩ := h
    have name : Lexical.ContinuesName c := by
      have mem : c ∈ d :: v := heq ▸ List.mem_append_right _ List.mem_cons_self
      rcases List.mem_cons.mp mem with rfl | mem
      · exact .inl hd
      · exact hv c mem
    rcases hc with (rfl | rfl | rfl) | rfl <;> exact absurd name (by decide)

theorem Rule.not_isLetter_of_isBlank {c : Char} (h : IsBlank c) : ¬ IsLetter c := by
  rcases h with rfl | rfl | rfl <;> decide

/-- No name goes on with a space and a comment. -/
theorem Rule.namesWithin_of_comment (rest back : List Char) :
    NamesWithin (' ' :: '#' :: rest) back := by
  intro j w u hj hd hu
  cases u with
  | nil => exact List.nil_prefix
  | cons c u =>
    obtain ⟨rfl, behind⟩ := List.cons_prefix_cons.mp hu
    obtain ⟨d, v, rfl, letter⟩ := letter_of_isSpace hj hd (by decide)
    obtain ⟨rfl, _⟩ := List.cons_prefix_cons.mp behind
    exact absurd letter (by decide)

theorem Rule.Cuts.head?_append {i : Nat} {text rest : List Char} (cut : Cuts i text rest)
    (u v : List Char) : (text ++ u).head? = (text ++ v).head? := by
  have ne := denotes_ne_nil cut.denotes
  rw [List.head?_append_of_ne_nil _ ne, List.head?_append_of_ne_nil _ ne]

/-! ## Swaps -/

/-- What is left of a text can be swapped for another text, and nothing in front of it is read in
another way. -/
structure Swap (back back' : List Char) : Prop where
  yields : ∀ {t run ws}, Yields t run back ws → Yields t run back' ws
  /-- They begin with the same character, or one with a blank, which is cut off with blanks or spaces
  in front of it. -/
  head : ∀ c ∈ back'.head?, c ∈ back.head? ∨ ∃ d ∈ back.head?, IsBlank d
  broken : '\n' ∈ back' → '\n' ∈ back
  names : NamesWithin back' back

namespace Swap

variable {back back' text : List Char} {i : Nat}

theorem onward (h : Swap back back') : Rule.Onward back back' where
  head c hc := by
    rcases h.head c hc with same | ⟨d, hd, blank⟩
    · exact ⟨c, same, .inl rfl⟩
    · exact ⟨d, hd, .inr (.inl blank)⟩
  broken := h.broken

/-- What is cut off in front of the one text is cut off in front of the other. -/
theorem cuts (h : Swap back back') (cut : Cuts i text back) (stray : i ≠ 8) :
    Cuts i text back' := cut.onward stray h.onward (h.names.ends text)

/-- The same text in front of both. -/
theorem front (h : Swap back back') (cut : Cuts i text back) (stray : i ≠ 8) :
    Swap (text ++ back) (text ++ back') where
  yields given := given.recut cut (h.cuts cut stray) h.yields
  head c hc := .inl (cut.head?_append _ _ ▸ hc)
  broken hmem := by
    rw [List.mem_append] at hmem ⊢
    exact hmem.imp_right h.broken
  names := h.names.append text

/-! ## Edits within a document -/

variable {rest : List Char}

theorem blanks {longer : List Char} (cut : Cuts 3 text rest) (sub : text.Sublist longer)
    (hlonger : ∀ c ∈ longer, IsBlank c) : Swap (text ++ rest) (longer ++ rest) := by
  obtain ⟨⟨ne, htext⟩, hrest⟩ := Rule.cuts_blanks.mp cut
  obtain ⟨c, text, rfl⟩ := List.exists_cons_of_ne_nil ne
  obtain ⟨d, longer, rfl⟩ := List.exists_cons_of_ne_nil fun hnil : longer = [] => ne
    (List.sublist_nil.mp (hnil ▸ sub))
  have cut' : Cuts 3 (d :: longer) rest :=
    Rule.cuts_blanks.mpr ⟨⟨List.cons_ne_nil _ _, hlonger⟩, hrest⟩
  refine ⟨fun given => .skip cut' (.inr rfl) (given.of_skip cut (.inr rfl)), fun _ _ => .inr
    ⟨c, rfl, htext c List.mem_cons_self⟩, fun hmem => ?_, ?_⟩
  · have unbroken : '\n' ∉ d :: longer := fun hmem => absurd (hlonger _ hmem) (by decide)
    exact List.mem_append_right _ ((List.mem_append.mp hmem).resolve_left unbroken)
  · -- A name goes on with a single blank at most.
    rintro j w (_ | ⟨e, u⟩) hj hd hu
    · exact List.nil_prefix
    · obtain ⟨rfl, behind⟩ := List.cons_prefix_cons.mp hu
      obtain ⟨f, v, rfl, letter⟩ :=
        Rule.letter_of_isSpace hj hd (.inl (hlonger _ List.mem_cons_self))
      cases longer with
      | nil =>
        -- Nothing was added.
        obtain ⟨rfl, rfl⟩ : c = e ∧ text = [] := by simpa using sub
        exact hu
      | cons g longer =>
        obtain ⟨rfl, _⟩ := List.cons_prefix_cons.mp behind
        exact absurd letter (Rule.not_isLetter_of_isBlank (hlonger f (by simp)))

end Swap

section

variable {t : Tracker} {run : Option (List Char)} {rest comment : List Char} {ws : List Content}

/-- A comment up to a line break, with blanks in front of it. -/
theorem Yields.blanks_comment {blanks : List Char} (h : Yields t run ('\n' :: rest) ws)
    (hblanks : IsBlanks blanks) (hc : '\n' ∉ comment) :
    Yields t run (blanks ++ '#' :: (comment ++ '\n' :: rest)) ws := by
  have inserted : Cuts 0 ('#' :: comment) ('\n' :: rest) :=
    Rule.cuts_comment.mpr ⟨⟨comment, rfl, hc⟩, fun c hc => (Option.some.inj hc).symm⟩
  have space : Cuts 3 blanks ('#' :: comment ++ '\n' :: rest) :=
    Rule.cuts_blanks.mpr ⟨hblanks, fun c hc => Option.some.inj hc ▸ by decide⟩
  exact .skip space (.inr rfl) (.skip inserted (.inl rfl) h)

theorem Yields.commented (h : Yields t run ('\n' :: rest) ws) (hc : '\n' ∉ comment) :
    Yields t run (' ' :: '#' :: (comment ++ '\n' :: rest)) ws :=
  h.blanks_comment ⟨List.cons_ne_nil ' ' [], List.forall_mem_singleton.mpr (by decide)⟩ hc

end

namespace Swap

variable {text rest : List Char} {i : Nat}

/-- A token at the end of a line stays what it is if a comment follows. -/
theorem cuts_commented {rest' : List Char} (cut : Cuts i text rest)
    (hi : i = 4 ∨ i = 5 ∨ i = 6 ∨ i = 7) : Cuts i text (' ' :: '#' :: rest') := by
  have names := (Rule.namesWithin_of_comment rest' rest).ends text
  rcases hi with rfl | rfl | rfl | rfl
  · exact cut.name (.inl rfl) names
  · exact Rule.cuts_dqString.mpr (Rule.cuts_dqString.mp cut)
  · exact Rule.cuts_sqString.mpr (Rule.cuts_sqString.mp cut)
  · exact cut.name (.inr rfl) names

theorem comment {comment : List Char} (cut : Cuts i text ('\n' :: rest)) (stray : i ≠ 8)
    (hc : '\n' ∉ comment) :
    Swap (text ++ '\n' :: rest) (text ++ ' ' :: '#' :: (comment ++ '\n' :: rest)) where
  yields := by
    intro t run ws given
    match i with
    | 0 =>
      -- The comment that is there grows.
      obtain ⟨⟨v, rfl, hv⟩, onward⟩ := Rule.cuts_comment.mp cut
      have longer : Cuts 0 ('#' :: (v ++ ' ' :: '#' :: comment)) ('\n' :: rest) :=
        Rule.cuts_comment.mpr ⟨⟨_, rfl, by simp [hv, hc]⟩, onward⟩
      have grown := Yields.skip longer (.inl rfl) (given.of_skip cut (.inl rfl))
      simpa using grown
    -- A comma and layout would have taken the line break in.
    | 1 => exact absurd (.inr rfl) ((Rule.cuts_comma.mp cut).2 '\n' rfl)
    | 2 => exact absurd (.inr rfl) ((Rule.cuts_indent.mp cut).2 '\n' rfl).1
    | 3 =>
      -- The blanks in front of the line break grow by one.
      obtain ⟨⟨_, blanks⟩, _⟩ := Rule.cuts_blanks.mp cut
      have longer : IsBlanks (text ++ [' ']) :=
        ⟨by simp, List.forall_mem_append.mpr ⟨blanks, List.forall_mem_singleton.mpr (by decide)⟩⟩
      simpa using (given.of_skip cut (.inr rfl)).blanks_comment longer hc
    | 4 | 5 | 6 | 7 =>
      exact given.recut cut (cuts_commented cut (by decide)) fun given => given.commented hc
    | 8 => exact absurd rfl stray
    | n + 9 => exact absurd (Rule.denotes_lt cut.denotes) (by simp [Rule.exprs])
  head c hc := .inl (cut.head?_append _ _ ▸ hc)
  broken _ := List.mem_append_right _ List.mem_cons_self
  names := (Rule.namesWithin_of_comment _ _).append text

theorem lines {space lines : List Char} (cut : Cuts 2 ('\n' :: space) rest)
    (hlines : BlankLines lines) :
    Swap ('\n' :: space ++ rest) ('\n' :: (lines ++ space) ++ rest) where
  yields := by
    intro t run ws given
    obtain ⟨⟨v, hv, layout⟩, stops⟩ := Rule.cuts_indent.mp cut
    obtain ⟨_, rfl⟩ := List.cons.inj hv
    have cut' : Cuts 2 ('\n' :: (lines ++ space)) rest :=
      Rule.cuts_indent.mpr ⟨⟨_, rfl, Rule.Layout.append hlines.layout layout⟩, stops⟩
    obtain ⟨x, hx⟩ := hlines.exists_break
    have split : '\n' :: (lines ++ space) = x ++ '\n' :: space := by
      rw [← List.cons_append, hx, List.append_assoc]
      rfl
    -- What is measured is the last line, and this one stays.
    refine .indent cut' ((given.of_indent cut).of_lastLine (by simp) (by simp) ?_)
    rw [split, ← List.append_assoc, lastLine_append List.mem_cons_self,
      lastLine_append List.mem_cons_self]
  head c hc := .inl hc
  broken _ := List.mem_cons_self
  names := Rule.namesWithin_of_break _ _

end Swap

/-! ## The end of a document -/

namespace Lexical

/-- Layout goes on behind its line breaks. -/
theorem Layout.of_break {x y u : List Char} (h : Layout u) (hu : u = x ++ '\n' :: y)
    (hx : '\n' ∉ x) : Layout y := by
  induction h generalizing x with
  | nil => simp at hu
  | @space c u hc layout ih => cases x with
    | nil => exact (List.cons.inj hu).2 ▸ layout
    | cons d x => exact ih (List.cons.inj hu).2 fun hmem => hx (List.mem_cons_of_mem _ hmem)
  | @comment v u hv layout _ =>
    have hv' : '\n' ∉ '#' :: v := by simpa using hv
    obtain ⟨rfl, rfl⟩ := Quoted.append_cons_inj hv' hx hu
    exact layout

/-- A comment goes on up to the first line break behind it. -/
theorem Filling.lastGap {filling : List Char} (h : Filling filling) : LastGap filling := by
  induction h with
  | nil => exact ⟨[], [], rfl, .nil, .inl rfl⟩
  | space hc _ ih =>
    obtain ⟨space, comment, rfl, layout, trailing⟩ := ih
    exact ⟨_ :: space, comment, rfl, .space hc layout, trailing⟩
  | comment hv _ ih =>
    obtain ⟨x, rfl, hx⟩ := hv
    obtain ⟨space, comment, rfl, layout, trailing⟩ := ih
    by_cases broken : '\n' ∈ space
    · -- It takes in what stands in front of the line break.
      obtain ⟨y, z, rfl, hy⟩ := List.eq_append_cons_of_mem broken
      refine ⟨'#' :: (x ++ y ++ '\n' :: z), comment, by simp,
        .comment ?_ (layout.of_break rfl hy), trailing⟩
      simp [hx, hy]
    · refine ⟨[], _, rfl, .nil, .inr ⟨x ++ (space ++ comment), rfl, ?_⟩⟩
      rcases trailing with rfl | ⟨y, rfl, hy⟩
      · simp [hx, broken]
      · simp [hx, broken, hy]

end Lexical

theorem Trailing.stops {rest : List Char} (h : Trailing rest) : Stops rest := by
  intro c hc
  rcases h with rfl | ⟨v, rfl, hv⟩
  · cases hc
  · rw [← Option.some.inj hc]
    exact ⟨by decide, fun _ => by simpa using hv⟩

namespace Yields

variable {t : Tracker} {run : Option (List Char)} {cs rest filling : List Char}
  {ws : List Content}

/-- What the end of a document gives. -/
theorem of_trailing (h : Trailing rest) :
    Yields t run rest (t.finish.contents ++ [(.eof, .none)]) := by
  rcases h with rfl | comment
  · exact .finish
  · have cut : Cuts 0 rest [] := Rule.cuts_comment.mpr ⟨comment, nofun⟩
    have given : Yields t run (rest ++ []) _ := .skip cut (.inl rfl) .finish
    rwa [List.append_nil] at given

/-- Nothing behind a last line break is a token. -/
theorem of_break (gap : LastGap filling) :
    Yields t run ('\n' :: filling) (t.finish.contents ++ [(.eof, .none)]) := by
  obtain ⟨space, comment, rfl, layout, trailing⟩ := gap
  have cut : Cuts 2 ('\n' :: space) comment :=
    Rule.cuts_indent.mpr ⟨⟨space, rfl, layout⟩, trailing.stops⟩
  exact .indent cut (of_trailing trailing)

/-- Nor is anything that begins with a comment. -/
theorem of_layout {space comment : List Char} (layout : Layout space)
    (head : ∀ c ∈ space.head?, ¬ IsSpace c) (trailing : Trailing comment) :
    Yields t run (space ++ comment) (t.finish.contents ++ [(.eof, .none)]) := by
  cases layout with
  | nil => exact of_trailing trailing
  | space hc _ => exact absurd hc (head _ rfl)
  | @comment v u hv layout =>
    have cut : Cuts 0 ('#' :: v) ('\n' :: (u ++ comment)) :=
      Rule.cuts_comment.mpr ⟨⟨v, rfl, hv⟩, fun c hc => (Option.some.inj hc).symm⟩
    have given : Yields t run _ _ := .skip cut (.inl rfl)
      (of_break ⟨u, comment, rfl, layout, trailing⟩)
    simpa using given

/-- A comma at the end takes in the line break and the white space behind it. -/
theorem of_comma {text : List Char} (comma : IsComma text) (gap : LastGap filling) :
    Yields t run (text ++ '\n' :: filling) ((t.across run).contents ++
      (.comma, .none) :: ((t.across run).settled.finish.contents ++ [(.eof, .none)])) := by
  obtain ⟨v, rfl, hv⟩ := comma
  obtain ⟨space, comment, rfl, layout, trailing⟩ := gap
  obtain ⟨front, back, rfl, hfront, head, hback⟩ :=
    layout.exists_front (P := IsSpace) (by decide)
  have grown : IsComma (',' :: (v ++ '\n' :: front)) :=
    ⟨_, rfl, List.forall_mem_append.mpr ⟨hv, List.forall_mem_cons.mpr ⟨.inr rfl, hfront⟩⟩⟩
  have cut : Cuts 1 (',' :: (v ++ '\n' :: front)) (back ++ comment) := by
    refine Rule.cuts_comma.mpr ⟨grown, fun c hc => ?_⟩
    cases back with
    | nil => exact (trailing.stops c hc).1
    | cons d back => exact head c hc
  have given : Yields t run _ _ := .token cut (.comma grown) (of_layout hback head trailing)
  simpa using given

/-- A line break and more is appended, by induction on how the text in front of it is cut. It can only
add to a comma or to layout at the end of this text. -/
theorem ending (h : Yields t run cs ws) (gap : LastGap filling) :
    Yields t run (cs ++ '\n' :: filling) ws := by
  induction h with
  | finish => exact of_break gap
  | skip cut hi _ ih =>
    rw [List.append_assoc]
    exact .skip (cut.before_break (by omega) (by omega) (by omega) _) hi ih
  | @indent t run text rest ws cut behind ih =>
    obtain ⟨⟨v, rfl, hlayout⟩, stopsHere⟩ := Rule.cuts_indent.mp cut
    by_cases further : Stops (rest ++ '\n' :: filling)
    · rw [List.append_assoc]
      exact .indent (Rule.cuts_indent.mpr ⟨⟨v, rfl, hlayout⟩, further⟩) ih
    · -- Here the layout goes on through the line break.
      have trailingHere := trailing_of_stops stopsHere further
      obtain ⟨space, comment, rfl, layout, trailing⟩ := gap
      have joined : LastGap (v ++ (rest ++ '\n' :: space) ++ comment) :=
        ⟨_, comment, rfl, Rule.Layout.append hlayout (layout_trailing trailingHere layout), trailing⟩
      have given : Yields t run _ _ := of_break joined
      rw [behind.unique (of_trailing trailingHere)]
      simpa using given
  | @token t run i text rest ws kind payload cut meant behind ih =>
    by_cases last : i = 1 ∧ rest = []
    · obtain ⟨rfl, rfl⟩ := last
      cases meant with
      | comma comma =>
        rw [behind.unique .finish, List.append_nil]
        exact of_comma comma gap
    · have cut' := cut.before_break (by rintro rfl; cases meant) (by rintro rfl; cases meant)
        (fun hi hrest => last ⟨hi, hrest⟩) filling
      rw [List.append_assoc]
      exact .token cut' meant ih

end Yields

/-! ## Frames -/

namespace Segments

variable {p : Position} {cs : List Char} {done fs : List Frame} {f g : Frame}

theorem textOf (h : Segments p cs fs) : Frame.textOf fs = cs := h.flatMap_text

/-- A frame with others behind it. -/
theorem of_cons (h : Segments p cs (f :: fs)) (hfs : fs ≠ []) :
    ∃ i rest, f.pattern = some i ∧ Cuts i f.text rest ∧ cs = f.text ++ rest ∧
      Segments (p.past f.text) rest fs := by
  cases h with
  | finish => exact absurd rfl hfs
  | piece heq cut behind => exact ⟨_, _, rfl, cut, heq, behind⟩

/-- The frames from one of them on. -/
theorem of_append (h : Segments p cs (done ++ fs)) (hfs : fs ≠ []) :
    ∃ q rest, Segments q rest fs := by
  induction done generalizing p cs with
  | nil => exact ⟨p, cs, h⟩
  | cons g done ih =>
    obtain ⟨_, _, _, _, _, behind⟩ := of_cons h (List.append_ne_nil_of_right_ne_nil _ hfs)
    exact ih behind

/-- A frame with others behind it was cut off in front of their text. -/
theorem exists_cuts (h : Segments p cs (done ++ f :: g :: fs)) :
    ∃ i, f.pattern = some i ∧ Cuts i f.text (Frame.textOf (g :: fs)) := by
  obtain ⟨_, _, here⟩ := h.of_append (List.cons_ne_nil f _)
  obtain ⟨i, rest, hi, cut, _, behind⟩ := here.of_cons (List.cons_ne_nil g fs)
  exact ⟨i, hi, behind.textOf ▸ cut⟩

/-- So was a frame with a pattern. -/
theorem cuts (h : Segments p cs (done ++ f :: fs)) {i : Nat} (hi : f.pattern = some i) :
    Cuts i f.text (Frame.textOf fs) := by
  cases fs with
  | nil =>
    obtain ⟨_, _, here⟩ := h.of_append (List.cons_ne_nil f [])
    cases here with
    | finish => cases hi
    | piece _ _ behind => cases behind
  | cons g fs =>
    obtain ⟨j, hj, cut⟩ := h.exists_cuts
    rwa [← Option.some.inj (hj.symm.trans hi)]

end Segments

/-- What can be swapped can be swapped behind other frames, by induction on these. -/
theorem Swap.behind {p : Position} {cs back' : List Char} {done fs : List Frame} {f : Frame}
    (h : Swap (f.text ++ Frame.textOf fs) back') (segments : Segments p cs (done ++ f :: fs))
    (plain : ∀ g ∈ done, g.pattern ≠ some 8) : Swap cs (Frame.textOf done ++ back') := by
  induction done generalizing p cs with
  | nil =>
    rw [List.nil_append] at segments
    rwa [← Frame.textOf_cons, segments.textOf] at h
  | cons g done ih =>
    obtain ⟨here, plain⟩ := List.forall_mem_cons.mp plain
    obtain ⟨i, rest, hi, cut, rfl, behind⟩ :=
      segments.of_cons (List.append_ne_nil_of_right_ne_nil done (List.cons_ne_nil f fs))
    rw [Frame.textOf_cons, List.append_assoc]
    exact (ih behind plain).front cut fun stray => here (hi.trans (congrArg some stray))

/-- A document that was laid out anew gives the same. -/
theorem Yields.relaid {p : Position} {t : Tracker} {run : Option (List Char)}
    {cs edited : List Char} {ws : List Content} {fs : List Frame} (h : Yields t run cs ws)
    (segments : Segments p cs fs) (edit : Relaid fs edited) : Yields t run edited ws := by
  have plain := h.ne_stray segments
  cases edit with
  | blanks heq sub hlonger =>
    subst heq
    have swap := Swap.blanks (segments.cuts rfl) sub hlonger
    exact (swap.behind segments (List.forall_mem_append.mp plain).1).yields h
  | lines heq hlines =>
    subst heq
    have swap := Swap.lines (segments.cuts rfl) hlines
    exact (swap.behind segments (List.forall_mem_append.mp plain).1).yields h
  | @comment done rest text comment _ heq hc =>
    subst heq
    obtain ⟨⟨v, rfl, _⟩, _⟩ := Rule.cuts_indent.mp (segments.cuts rfl)
    rcases done.eq_nil_or_concat with rfl | ⟨done, g, rfl⟩
    · rw [← segments.textOf, List.nil_append, Frame.textOf_cons] at h
      exact h.commented hc
    · -- The frame in front of the line break has the comment put behind it.
      rw [List.concat_eq_append] at segments plain ⊢
      rw [List.append_assoc, List.singleton_append] at segments plain
      obtain ⟨front, here⟩ := List.forall_mem_append.mp plain
      obtain ⟨i, hi, cut⟩ := segments.exists_cuts
      rw [Frame.textOf_cons, List.cons_append] at cut
      have stray : i ≠ 8 := fun stray => here g List.mem_cons_self (hi.trans (congrArg some stray))
      have swapped := ((Swap.comment cut stray hc).behind segments front).yields h
      simpa [Frame.textOf] using swapped
  | ending hfilling =>
    rw [segments.textOf]
    exact h.ending hfilling.lastGap

namespace Document

variable {threaded : Bool} {context : Context} {source : String}

/-- A document that was laid out anew has the same tokens, with the same payloads. -/
theorem tokenize_relaid {set : PatternSet} {edited : String} {tokens : List Token}
    (hset : Rule.documentPatterns = .ok set) (h : tokenize threaded context source = .ok tokens)
    (edit : Relaid (frames set threaded source) edited.toList) :
    ∃ tokens', tokenize threaded context edited = .ok tokens' ∧
      tokens'.map Token.content = tokens.map Token.content := by
  obtain ⟨ts, rfl, cuts⟩ := tokenize_eq_ok.mp h
  have relaid := cuts.yields.relaid (segments_frames hset threaded source) edit
  obtain ⟨ts', cuts', same⟩ := relaid.tokenizes {}
  exact ⟨_, tokenize_eq_ok.mpr ⟨ts', rfl, cuts'⟩, by rw [List.map_cons, List.map_cons, same]⟩

/-- Two lines, and a comment that is put behind the first one. -/
theorem tokenize_relaid_commented : ∃ set tokens, Rule.documentPatterns = .ok set ∧
    tokenize false {} "SET\nSET" = .ok tokens ∧
      Relaid (frames set false "SET\nSET") "SET # it's\nSET".toList ∧
        ∃ tokens', tokenize false {} "SET # it's\nSET" = .ok tokens' ∧
          tokens'.map Token.content = tokens.map Token.content := by
  obtain ⟨set, hset, _⟩ := Rule.documentPatterns_eq_ok
  have name : ['S', 'E', 'T'] ∈ Rule.keywordNames := by decide
  have set_ := Rule.Means.keyword (k := .set) (by decide) (Rule.spells_self name)
  have first : Cuts 4 ['S', 'E', 'T'] ['\n', 'S', 'E', 'T'] := Rule.cuts_keyword name (by simp)
  have last : Cuts 4 ['S', 'E', 'T'] [] := Rule.cuts_keyword name nofun
  have indent : Cuts 2 ['\n'] ['S', 'E', 'T'] :=
    Rule.cuts_indent.mpr ⟨⟨[], rfl, .nil⟩, fun c hc => by
      rw [← Option.some.inj hc]
      exact ⟨by decide, fun h => absurd h (by decide)⟩⟩
  have segments : Segments {} "SET\nSET".toList _ :=
    .piece rfl first (.piece rfl indent (.piece rfl last .finish))
  have cuts : Tokenizes {} {} none "SET\nSET".toList _ :=
    .token rfl first set_ (.indent rfl indent (.token rfl last set_ .finish))
  have tokenized : tokenize false {} "SET\nSET" = .ok _ := tokenize_eq_ok.mpr ⟨_, rfl, cuts⟩
  have comment : '\n' ∉ [' ', 'i', 't', '\'', 's'] := by decide
  have edit : Relaid (frames set false "SET\nSET") "SET # it's\nSET".toList := by
    rw [← segments.unique (segments_frames hset false _)]
    exact .comment (List.singleton_append ..).symm comment
  exact ⟨set, _, hset, tokenized, edit, tokenize_relaid hset tokenized edit⟩

end Document

end ScrapeConfig
