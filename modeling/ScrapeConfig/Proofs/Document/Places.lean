import ScrapeConfig.Proofs.Document.Grammar
import ScrapeConfig.Proofs.Document.Nesting

/-!
# Places of services

A document with a gap where service sections stand behind each other, at the top level or in a
stack. What stands in front of the gap and behind it is the same whatever is put there.

Results:
1. `Syntax.Place`: places, and `Syntax.Place.document`, the documents that have sections there.
2. `Syntax.Document.exists_place`: wherever the keyword of services comes in a document, there is a
   place, and a section there.
3. `Syntax.Place.exists_gathered`: sections behind a place belong to the place.
-/

namespace ScrapeConfig.Syntax

open ScrapeConfig.Document (behindWords behindWords_cons words_of_lines)

variable {α : Type}

/-! ## Items above others -/

/-- A series with more items above it. -/
def Series.under (s : Series α) : List α → Series α
  | [] => s
  | x :: above => ⟨x, (s.under above).toList⟩

theorem Series.toList_under (s : Series α) (above : List α) :
    (s.under above).toList = above ++ s.toList := by
  induction above with
  | nil => rfl
  | cons x above ih => exact congrArg (List.cons x) ih

theorem Series.words_under (words : α → List Word) (s : Series α) (above : List α) :
    (s.under above).block words = .mark .blockOpen ::
      (above.flatMap (fun x => words x ++ [.mark .sameLevel]) ++
        (words s.first ++ linesWords words s.rest)) := by
  rw [block]
  refine congrArg (List.cons _) ?_
  induction above with
  | nil => rfl
  | cons x above ih =>
    rw [under, toList, List.flatMap_cons, List.flatMap_cons, List.append_assoc, List.append_assoc,
      ← ih]
    simp

namespace Lines

def sections (l : Lines) : List Section := l.first :: l.rest.map (·.2)

/-- Lines with more sections above them, each with the number of same-level tokens behind it, which
is one at least. -/
def under (l : Lines) : List (Section × Nat) → Lines
  | [] => l
  | (x, n) :: above => ⟨x, (n, (l.under above).first) :: (l.under above).rest⟩

theorem sections_under (l : Lines) (above : List (Section × Nat)) :
    (l.under above).sections = above.map (·.1) ++ l.sections := by
  induction above with
  | nil => rfl
  | cons x above ih => exact congrArg (List.cons x.1) ih

theorem words_under (l : Lines) (above : List (Section × Nat)) :
    (l.under above).words =
      above.flatMap (fun x => x.1.words ++ sameLevels (x.2 + 1)) ++ l.words := by
  induction above with
  | nil => rfl
  | cons x above ih =>
    rw [List.flatMap_cons, List.append_assoc, ← ih]
    simp [under, words]

/-- Every section stands below those in front of it. By induction on these. -/
theorem exists_under {l : Lines} {above below : List Section} {x : Section}
    (h : l.sections = above ++ x :: below) :
    ∃ above' below', l = under ⟨x, below'⟩ above' ∧ above'.map (·.1) = above ∧
      below'.map (·.2) = below := by
  induction above generalizing l with
  | nil =>
    obtain ⟨first, rest⟩ := l
    obtain ⟨rfl, rfl⟩ := List.cons.inj h
    exact ⟨[], rest, rfl, rfl, rfl⟩
  | cons y above ih =>
    obtain ⟨first, rest⟩ := l
    obtain ⟨rfl, behind⟩ := List.cons.inj h
    cases rest with
    | nil => simp at behind
    | cons line rest =>
      obtain ⟨above', below', same, rfl, rfl⟩ := ih (l := ⟨line.2, rest⟩) behind
      refine ⟨(first, line.1) :: above', below', ?_, rfl, rfl⟩
      rw [under, ← same]

end Lines

/-! ## Places -/

/-- The stack around a place, and its items above the place and below it. -/
structure Enclosure where
  name : String
  above : List StackItem
  below : List StackItem

/-- A place for service sections in a document: the sections above it, each with the number of
same-level tokens behind it, the stack around it if it is in one, and the sections below it. -/
structure Place where
  above : List (Section × Nat)
  around : Option Enclosure
  below : List (Nat × Section)
  behind : Nat

/-- The words of service sections behind each other. -/
def serviceLines (s : Series ServiceSection) : List Word :=
  s.first.words ++ s.rest.flatMap fun x => .mark .sameLevel :: x.words

theorem ServiceSection.serviceLines_single (x : ServiceSection) : serviceLines ⟨x, []⟩ = x.words :=
  List.append_nil _

/-- Lines for single names behind another line. -/
def apartBehind (names : List String) (tail : List Word) : List Word :=
  names.flatMap fun n => .mark .sameLevel :: listed ⟨n, []⟩ tail

/-- `FOR_SERVICE` with every name by itself, one line behind the other. -/
def apart (names : Series String) (tail : List Word) : List Word :=
  listed ⟨names.first, []⟩ tail ++ apartBehind names.rest tail

theorem behindLine_apartBehind {back : List Word} (h : BehindLine back)
    (names : List String) (tail : List Word) : BehindLine (apartBehind names tail ++ back) := by
  cases names with
  | nil => exact h
  | cons n names => exact ⟨.mark .sameLevel, _, rfl, by decide⟩

namespace Enclosure

def opening (e : Enclosure) : List Word :=
  .mark .forStack :: .name e.name :: .mark .blockOpen ::
    e.above.flatMap fun x => x.words ++ [.mark .sameLevel]

def closing (e : Enclosure) : List Word := linesWords StackItem.words e.below

def items (e : Enclosure) (s : Series ServiceSection) : Series StackItem :=
  .under ⟨.service s.first, s.rest.map .service ++ e.below⟩ e.above

theorem toList_items (e : Enclosure) (s : Series ServiceSection) :
    (e.items s).toList = e.above ++ (s.toList.map .service ++ e.below) := by
  rw [items, Series.toList_under]
  rfl

theorem words_items (e : Enclosure) (s : Series ServiceSection) :
    (Section.stack e.name (e.items s)).words = e.opening ++ (serviceLines s ++ e.closing) := by
  rw [Section.words, items, Series.words_under]
  simp [opening, closing, serviceLines, linesWords, StackItem.words, List.flatMap_map]

end Enclosure

namespace Place

def opening (p : Place) : List Word :=
  p.above.flatMap (fun x => x.1.words ++ sameLevels (x.2 + 1)) ++
    p.around.elim [] Enclosure.opening

def closing (p : Place) : List Word :=
  p.around.elim [] Enclosure.closing ++ behindWords p.below p.behind

/-- The lines at a place and below it, with sections put there. -/
def filling (p : Place) (s : Series ServiceSection) : Lines :=
  match p.around with
  | none => ⟨.service s.first, s.rest.map (fun x => (0, .service x)) ++ p.below⟩
  | some e => ⟨.stack e.name (e.items s), p.below⟩

/-- The document with sections put at a place, and with a number of same-level tokens in front. -/
def document (p : Place) (before : Nat) (s : Series ServiceSection) : Document :=
  ⟨before, some ((p.filling s).under p.above), p.behind⟩

theorem words_filling (p : Place) (s : Series ServiceSection) :
    (p.filling s).words ++ (sameLevels p.behind ++ [.mark .eof]) =
      p.around.elim [] Enclosure.opening ++ (serviceLines s ++ p.closing) := by
  obtain ⟨above, _ | e, below, behind⟩ := p
  · simp [filling, Lines.words, closing, behindWords, serviceLines, Section.words, sameLevels,
      List.flatMap_map]
  · simp [filling, Lines.words, closing, behindWords, Enclosure.words_items]

theorem words_document (p : Place) (before : Nat) (s : Series ServiceSection) :
    (p.document before s).words =
      .mark .ctx :: (sameLevels before ++ (p.opening ++ (serviceLines s ++ p.closing))) := by
  rw [document, Document.words, Option.elim_some, Lines.words_under, List.append_assoc,
    words_filling, opening, List.append_assoc]

theorem lineEnd_closing (p : Place) : LineEnd p.closing := by
  obtain ⟨above, _ | e, below, behind⟩ := p
  · cases below with
    | nil => cases behind with
      | zero => exact ⟨.eof, [], rfl, by simp⟩
      | succ n => exact ⟨.sameLevel, _, rfl, by simp⟩
    | cons x below => exact ⟨.sameLevel, _, behindWords_cons x.1 x.2 below behind, by simp⟩
  · exact Stream.lineEnd_linesWords StackItem.words e.below _

end Place

/-! ## Finding places -/

variable {front rest more : List Word}

/-- The keyword of services in a service section and what stands behind it: the section begins with
it, or it comes behind the section. -/
theorem ServiceSection.forService_cases (x : ServiceSection)
    (h : x.words ++ more = front ++ .mark .forService :: rest) :
    (front = [] ∧ .mark .forService :: rest = x.words ++ more) ∨
      ∃ front', front = x.words ++ front' ∧ more = front' ++ .mark .forService :: rest := by
  cases front with
  | nil => exact .inl ⟨rfl, h.symm⟩
  | cons w front =>
    obtain ⟨rfl, inside⟩ := List.cons.inj h
    have inner : Inner (x.names.names ++ x.clause) := x.names.plain_names.inner.line x.inner_clause
    obtain ⟨front', rfl, behind⟩ := exists_behind_of_notMem inner.forService_notMem inside
    exact .inr ⟨front', rfl, behind⟩

theorem StackItem.forService_cases (x : StackItem)
    (h : x.words ++ more = front ++ .mark .forService :: rest) :
    (∃ y, x = .service y ∧ front = [] ∧ .mark .forService :: rest = y.words ++ more) ∨
      ∃ front', front = x.words ++ front' ∧ more = front' ++ .mark .forService :: rest := by
  cases x with
  | service x => exact (x.forService_cases h).imp_left fun here => ⟨x, rfl, here⟩
  | auth x => exact .inr (exists_behind_of_notMem x.forService_notMem h)

/-- By induction on the items behind the first one. -/
theorem exists_item {x : StackItem} {xs : List StackItem}
    (h : x.words ++ (linesWords StackItem.words xs ++ more) = front ++ .mark .forService :: rest) :
    (∃ above y below, x :: xs = above ++ .service y :: below ∧
      front = above.flatMap (fun x => x.words ++ [.mark .sameLevel]) ∧
      .mark .forService :: rest = y.words ++ (linesWords StackItem.words below ++ more)) ∨
      ∃ front', front = x.words ++ (linesWords StackItem.words xs ++ front') ∧
        more = front' ++ .mark .forService :: rest := by
  induction xs generalizing x front with
  | nil =>
    rcases x.forService_cases h with ⟨y, rfl, rfl, here⟩ | ⟨_, rfl, closing⟩
    · exact .inl ⟨[], y, [], rfl, rfl, here⟩
    · -- The last item ends without the keyword, and then the block does.
      have close : Word.mark .forService ∉ linesWords StackItem.words [] := by decide
      obtain ⟨front', rfl, behind⟩ := exists_behind_of_notMem close closing
      exact .inr ⟨front', rfl, behind⟩
  | cons x' xs ih =>
    rcases x.forService_cases h with ⟨y, rfl, rfl, here⟩ | ⟨_, rfl, next⟩
    · exact .inl ⟨[], y, x' :: xs, rfl, rfl, here⟩
    · rw [Stream.linesWords_cons] at next
      obtain ⟨_, rfl, item⟩ :=
        exists_behind_of_notMem (v := [.mark .sameLevel]) (by decide) next
      rcases ih item with ⟨above, y, below, items, rfl, here⟩ | ⟨front', rfl, behind⟩
      · refine .inl ⟨x :: above, y, below, congrArg (List.cons x) items, ?_, here⟩
        rw [List.flatMap_cons, List.append_assoc]
      · refine .inr ⟨front', ?_, behind⟩
        rw [Stream.linesWords_cons]
        rfl

theorem Series.toList_injective : Function.Injective (toList : Series α → List α) := by
  rintro ⟨x, xs⟩ ⟨y, ys⟩ h
  obtain ⟨rfl, rfl⟩ := List.cons.inj h
  rfl

theorem Section.forService_cases (x : Section) {lines : List (Nat × Section)} {behind : Nat}
    (h : x.words ++ behindWords lines behind = front ++ .mark .forService :: rest) :
    (∃ p : Place, ∃ y, p.above = [] ∧ p.filling ⟨y, []⟩ = ⟨x, lines⟩ ∧ p.behind = behind ∧
      front = p.opening ∧ .mark .forService :: rest = y.words ++ p.closing) ∨
      ∃ front', front = x.words ++ front' ∧
        behindWords lines behind = front' ++ .mark .forService :: rest := by
  cases x with
  | dataset => exact .inr (exists_behind_of_notMem (by decide) h)
  | auth x => exact .inr (exists_behind_of_notMem x.forService_notMem h)
  | service x =>
    refine (x.forService_cases h).imp_left fun ⟨here, there⟩ => ?_
    exact ⟨⟨[], none, lines, behind⟩, x, rfl, rfl, rfl, here, there⟩
  | stack name items =>
    obtain ⟨first, items⟩ := items
    have begins : Section.words (.stack name ⟨first, items⟩) =
        [.mark .forStack, .name name, .mark .blockOpen] ++
          (first.words ++ linesWords StackItem.words items) := rfl
    rw [begins, List.append_assoc, List.append_assoc] at h
    obtain ⟨_, rfl, inside⟩ := exists_behind_of_notMem (by simp) h
    rcases exists_item inside with ⟨above, y, below, split, rfl, here⟩ | ⟨front', rfl, next⟩
    · have same : Enclosure.items ⟨name, above, below⟩ ⟨y, []⟩ = ⟨first, items⟩ :=
        Series.toList_injective ((Enclosure.toList_items _ _).trans split.symm)
      refine .inl ⟨⟨[], some ⟨name, above, below⟩, lines, behind⟩, y, rfl, ?_, rfl, rfl, ?_⟩
      · exact congrArg (fun items => Lines.mk (.stack name items) lines) same
      · rw [here, Place.closing, Option.elim_some, Enclosure.closing]
    · refine .inr ⟨front', ?_, next⟩
      rw [begins, List.append_assoc, List.append_assoc]

theorem forService_notMem_behind (n : Nat) : .mark .forService ∉ behindWords [] n := by
  simp [behindWords, sameLevels]

/-- By induction on the lines behind the first one. -/
theorem exists_line {x : Section} {lines : List (Nat × Section)} {behind : Nat}
    (h : x.words ++ behindWords lines behind = front ++ .mark .forService :: rest) :
    ∃ p : Place, ∃ y, (p.filling ⟨y, []⟩).under p.above = ⟨x, lines⟩ ∧ p.behind = behind ∧
      front = p.opening ∧ .mark .forService :: rest = y.words ++ p.closing := by
  induction lines generalizing x front with
  | nil =>
    rcases x.forService_cases h with ⟨p, y, above, filling, here⟩ | ⟨_, rfl, none⟩
    · exact ⟨p, y, by rw [above, filling]; rfl, here⟩
    · exact absurd (none ▸ List.mem_append_right _ List.mem_cons_self)
        (forService_notMem_behind behind)
  | cons line lines ih =>
    obtain ⟨n, x'⟩ := line
    rcases x.forService_cases h with ⟨p, y, above, filling, here⟩ | ⟨_, rfl, next⟩
    · exact ⟨p, y, by rw [above, filling]; rfl, here⟩
    · have split : behindWords ((n, x') :: lines) behind =
          sameLevels (n + 1) ++ (x'.words ++ behindWords lines behind) :=
        behindWords_cons n x' lines behind
      rw [split] at next
      have noService : Word.mark .forService ∉ sameLevels (n + 1) := by simp [sameLevels]
      obtain ⟨_, rfl, inside⟩ := exists_behind_of_notMem noService next
      obtain ⟨p, y, found, rfl, rfl, there⟩ := ih inside
      -- The place is found below the first line, with this line put above it.
      refine ⟨{ p with above := (x, n) :: p.above }, y, ?_, rfl, ?_, there⟩
      · have found' : (Place.filling { p with above := (x, n) :: p.above } ⟨y, []⟩).under p.above =
            ⟨x', lines⟩ := found
        rw [Lines.under, found']
      · simp [Place.opening]

/-- Where the keyword of services comes in a document, there is a service section. -/
theorem Document.exists_place {d : Document}
    (h : d.words = front ++ .mark .forService :: rest) :
    ∃ before p y, d = Place.document p before ⟨y, []⟩ ∧
      front = .mark .ctx :: (sameLevels before ++ p.opening) ∧
      .mark .forService :: rest = y.words ++ p.closing := by
  obtain ⟨before, lines, behind⟩ := d
  have noService : Word.mark .forService ∉ .mark .ctx :: sameLevels before := by simp [sameLevels]
  cases lines with
  | none =>
    have mem : Word.mark .forService ∈ Document.words ⟨before, none, behind⟩ :=
      h ▸ List.mem_append_right _ List.mem_cons_self
    simp [words, sameLevels] at mem
  | some lines =>
    obtain ⟨x, lines⟩ := lines
    rw [words_of_lines, ← List.cons_append] at h
    obtain ⟨_, rfl, inside⟩ := exists_behind_of_notMem noService h
    obtain ⟨p, y, found, rfl, rfl, there⟩ := exists_line inside
    exact ⟨before, p, y, by rw [Place.document, found], rfl, there⟩

/-! ## Sections behind each other -/

theorem Section.eq_service {x : Section} (h : x.words ++ more = .mark .forService :: rest) :
    ∃ y, x = .service y := by
  cases x with
  | service y => exact ⟨y, rfl⟩
  | dataset | auth _ | stack _ _ => cases h

theorem StackItem.eq_service {x : StackItem} (h : x.words ++ more = .mark .forService :: rest) :
    ∃ y, x = .service y := by
  cases x with
  | service y => exact ⟨y, rfl⟩
  | auth _ => cases h

namespace Place

/-- A section below a place may be put at the place too. -/
theorem exists_next {p : Place}
    (h : p.closing = .mark .sameLevel :: .mark .forService :: rest) :
    ∃ q x, opening q = p.opening ∧ x.words ++ q.closing = .mark .forService :: rest ∧
      ∀ before s, p.document before s = q.document before ⟨s.first, s.rest ++ [x]⟩ := by
  obtain ⟨above, _ | e, below, behind⟩ := p
  · cases below with
    | nil =>
      refine absurd (?_ : .mark .forService ∈ behindWords [] behind) (forService_notMem_behind behind)
      rw [show behindWords [] behind = _ from h]
      exact List.mem_cons_of_mem _ List.mem_cons_self
    | cons line below =>
      obtain ⟨n, x⟩ := line
      have next : sameLevels n ++ (x.words ++ behindWords below behind) = .mark .forService :: rest :=
        (List.cons.inj ((behindWords_cons n x below behind).symm.trans h)).2
      cases n with
      | succ n => cases next
      | zero =>
        obtain ⟨y, rfl⟩ := x.eq_service next
        refine ⟨⟨above, none, below, behind⟩, y, rfl, next, fun before s => ?_⟩
        simp [document, filling]
  · obtain ⟨name, itemsAbove, items⟩ := e
    cases items with
    | nil => cases h
    | cons x items =>
      rw [closing, Option.elim_some, Enclosure.closing, Stream.linesWords_cons] at h
      obtain ⟨y, rfl⟩ := x.eq_service (List.cons.inj h).2
      refine ⟨⟨above, some ⟨name, itemsAbove, items⟩, below, behind⟩, y, rfl, ?_, fun before s => ?_⟩
      · rw [← (List.cons.inj h).2, closing, Option.elim_some, Enclosure.closing]
        rfl
      · simp [document, filling, Enclosure.items]

/-- By induction on the names. -/
theorem exists_gathered {p : Place} {names : List String} {tail back : List Word}
    (htail : Enclosed Word.IsContent 0 tail) (comma : tail.head? ≠ some (.mark .comma))
    (ends : BehindLine back) (h : p.closing = apartBehind names tail ++ back) :
    ∃ q xs, opening q = p.opening ∧ q.closing = back ∧
      ∀ before s, p.document before s = q.document before ⟨s.first, s.rest ++ xs⟩ := by
  induction names generalizing p with
  | nil => exact ⟨p, [], rfl, h, fun before s => by rw [List.append_nil]⟩
  | cons n names ih =>
    rw [apartBehind, List.flatMap_cons, List.append_assoc] at h
    obtain ⟨q, x, opened, next, same⟩ := exists_next h
    have next : x.words ++ q.closing = listed ⟨n, []⟩ tail ++ (apartBehind names tail ++ back) :=
      next
    obtain ⟨_, _, closed⟩ := ServiceSection.words_cancel htail comma
      (behindLine_apartBehind ends names tail) q.lineEnd_closing next
    obtain ⟨q', xs, opened', closed', same'⟩ := ih closed
    refine ⟨q', x :: xs, opened'.trans opened, closed', fun before s => ?_⟩
    rw [same, same', List.append_assoc]
    rfl

end Place

end ScrapeConfig.Syntax
