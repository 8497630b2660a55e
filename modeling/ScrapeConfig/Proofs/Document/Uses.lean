import ScrapeConfig.Proofs.Document.Definitions

/-!
# Where auths are named

An `AS` that belongs to no definition stands in a service section, and the section uses the auth
that is named behind it.

Results:
1. `Syntax.ServiceSection.cites_words`: the auths that are named in a service section.
2. `Syntax.Document.exists_use`: the section in which an auth is used.
-/

namespace ScrapeConfig.Syntax

open ScrapeConfig.Document (behindWords words_of_lines words_of_none)

variable {front rest ws : List Word}

/-! ## Names in service sections -/

/-- Behind every `AS` one of the names stands. -/
def Cites (names : List String) : List Word → Prop :=
  Around .as fun _ v => ∃ n ∈ names, ∃ rest, v = .name n :: rest

theorem widens_cites (names : List String) :
    Widens fun _ v => ∃ n ∈ names, ∃ rest, v = .name n :: rest := by
  rintro _ _ ⟨n, hn, rest, rfl⟩ _ behind
  exact ⟨n, hn, rest ++ behind, rfl⟩

theorem Cites.mono {names names' : List String} (h : Cites names ws) (sub : ∀ n ∈ names, n ∈ names') :
    Cites names' ws := by
  intro u v heq
  obtain ⟨n, hn, named⟩ := h u v heq
  exact ⟨n, sub n hn, named⟩

theorem cites_asWords (o : Option String) : Cites o.toList (asWords o) := by
  cases o with
  | none => exact around_of_notMem List.not_mem_nil
  | some name =>
    intro u v heq
    cases u with
    | nil => exact ⟨name, List.mem_singleton_self name, [], (List.cons.inj heq).2.symm⟩
    | cons w u => simp [asWords, List.cons_eq_append_iff] at heq

theorem cites_of_plain {names : List String} (h : Plain ws) : Cites names ws :=
  around_of_notMem h.as_notMem

theorem cites_optionalBlock {α : Type} {words : α → List Word} (names : List String)
    {o : Option (Series α)} (h : ∀ x ∈ itemsOf o, Cites names (words x)) :
    Cites names (optionalBlock words o) := by
  cases o with
  | none => exact around_of_notMem List.not_mem_nil
  | some s => exact Around.block (widens_cites names) (by decide) h

theorem ResourceSection.cites_words (r : ResourceSection) : Cites r.auth.toList r.words := by
  have opened : Plain [.mark (methodKeyword r.method), .name r.uri] :=
    .word (by cases r.method <;> decide) (.word (Word.isPlain_name _) .nil)
  have items : Cites r.auth.toList (optionalBlock ResourceItem.words r.items) :=
    cites_optionalBlock _ fun x _ => cites_of_plain x.plain_words
  have widens := widens_cites r.auth.toList
  exact (cites_of_plain opened).append widens ((cites_asWords r.auth).append widens items)

theorem ServiceItem.cites_words (x : ServiceItem) : Cites x.uses x.words := by
  cases x with
  | option o => exact cites_of_plain o.plain_words
  | metric m => exact cites_of_plain m.plain_words
  | resource r => exact r.cites_words
  | extract e => exact cites_of_plain e.plain_words

theorem ServiceSection.cites_words (x : ServiceSection) : Cites x.uses x.words := by
  have widens := widens_cites x.uses
  have keyword : Cites x.uses [.mark .forService] := around_of_notMem (by decide)
  have names : Cites x.uses x.names.names := cites_of_plain x.names.plain_names
  have auth : Cites x.uses (asWords x.auth) :=
    (cites_asWords x.auth).mono fun _ => List.mem_append_left _
  have items : Cites x.uses (optionalBlock ServiceItem.words x.items) :=
    cites_optionalBlock _ fun i hi => i.cites_words.mono fun n hn =>
      List.mem_append_right _ (List.mem_flatMap.mpr ⟨i, hi, hn⟩)
  exact keyword.append widens (names.append widens (auth.append widens items))

/-! ## Names outside of them -/

/-- Every `AS` is in a definition or stands behind the keyword of services. -/
def Headed : List Word → Prop := Around .as fun u _ => .mark .forService ∈ u ∨ ¬ Uses u

theorem widens_headed : Widens fun u _ => .mark .forService ∈ u ∨ ¬ Uses u := by
  intro u _ h before _
  exact h.imp (List.mem_append_right before) (mt Uses.of_append)

theorem headed_of_notMem (h : .mark .as ∉ ws) : Headed ws := around_of_notMem h

theorem AuthSection.headed_words (a : AuthSection) : Headed a.words := by
  have header : Headed (header a.scheme a.name) := by
    intro u v heq
    match u, heq with
    | [.mark .defineAuth, .name scheme], _ => exact .inr fun uses => uses [] scheme rfl
    | [], heq | [_], heq | _ :: _ :: _ :: u, heq =>
      simp [ScrapeConfig.header, List.cons_eq_append_iff] at heq
  exact header.append widens_headed (headed_of_notMem a.plain_block.as_notMem)

theorem ServiceSection.headed_words (x : ServiceSection) : Headed x.words := by
  intro u v heq
  cases u with
  | nil => simp [words] at heq
  | cons w u => exact .inl ((List.cons.inj heq).1 ▸ List.mem_cons_self)

theorem StackItem.headed_words (x : StackItem) : Headed x.words := by
  cases x with
  | service x => exact x.headed_words
  | auth a => exact a.headed_words

theorem Section.headed_words (x : Section) : Headed x.words := by
  cases x with
  | dataset => exact headed_of_notMem (by decide)
  | auth a => exact a.headed_words
  | service x => exact x.headed_words
  | stack name items =>
    have keyword : Headed [.mark .forStack, .name name] := headed_of_notMem (by simp)
    refine keyword.append widens_headed (Around.block widens_headed (by decide) fun x _ => ?_)
    exact x.headed_words

theorem headed_behindWords (lines : List (Nat × Section)) (behind : Nat) :
    Headed (behindWords lines behind) := by
  have levels (n : Nat) : Headed (sameLevels n) := headed_of_notMem (by simp [sameLevels])
  refine Around.append widens_headed (Around.flatMap widens_headed fun line _ => ?_) ?_
  · exact (levels _).append widens_headed line.2.headed_words
  · exact (levels behind).append widens_headed (headed_of_notMem (by decide))

theorem Place.headed_closing (p : Place) : Headed p.closing := by
  obtain ⟨above, _ | e, below, behind⟩ := p
  · exact headed_behindWords below behind
  · have lines : Headed (linesWords StackItem.words e.below) := by
      refine Around.append widens_headed (Around.flatMap widens_headed fun x _ => ?_)
        (headed_of_notMem (by decide))
      have level : Headed [.mark .sameLevel] := headed_of_notMem (by decide)
      exact level.append widens_headed x.headed_words
    exact lines.append widens_headed (headed_behindWords below behind)

theorem Document.headed_words (d : Document) : Headed d.words := by
  obtain ⟨before, lines, behind⟩ := d
  have opened : Headed (.mark .ctx :: sameLevels before) := headed_of_notMem (by simp [sameLevels])
  cases lines with
  | none =>
    rw [words_of_none]
    exact headed_of_notMem (by simp [sameLevels])
  | some lines =>
    rw [words_of_lines, ← List.cons_append]
    exact opened.append widens_headed
      (lines.first.headed_words.append widens_headed (headed_behindWords lines.rest behind))

theorem exists_last_of_mem {w : Word} (h : w ∈ ws) : ∃ u v, ws = u ++ w :: v ∧ w ∉ v := by
  obtain ⟨u, v, heq, notMem⟩ := List.eq_append_cons_of_mem (List.mem_reverse.mpr h)
  refine ⟨v.reverse, u.reverse, ?_, mt List.mem_reverse.mp notMem⟩
  rw [← List.reverse_reverse ws, heq]
  simp

/-- Where an auth is used, there is a service section that uses it. -/
theorem Document.exists_use {d : Document} (h : d.words = front ++ .mark .as :: rest)
    (uses : Uses front) :
    ∃ before p x part n rest', d = Place.document p before ⟨x, []⟩ ∧
      front = .mark .ctx :: (sameLevels before ++ p.opening) ++ part ∧
      x.words = part ++ .mark .as :: .name n :: rest' ∧ n ∈ x.uses := by
  have service : .mark .forService ∈ front :=
    (d.headed_words front rest h).resolve_right (not_not.mpr uses)
  -- The section is the last one that begins in front.
  obtain ⟨above, within, rfl, last⟩ := exists_last_of_mem service
  rw [List.append_assoc, List.cons_append] at h
  obtain ⟨before, p, x, rfl, rfl, here⟩ := exists_place h
  refine ⟨before, p, x, .mark .forService :: within, ?_⟩
  rw [← List.cons_append] at here
  rcases append_eq_cases here.symm with ⟨behind, words, _⟩ | ⟨within', passed, closing⟩
  · obtain ⟨n, hn, rest', rfl⟩ := x.cites_words _ _ words
    exact ⟨n, rest', rfl, rfl, words, hn⟩
  · -- The section has ended in front, and behind it only a definition could name an auth.
    rw [passed, ← List.append_assoc] at uses
    rcases p.headed_closing within' rest closing with again | defined
    · rw [(List.cons.inj passed).2] at last
      exact absurd (List.mem_append_right _ again) last
    · exact absurd uses.of_append defined

end ScrapeConfig.Syntax
