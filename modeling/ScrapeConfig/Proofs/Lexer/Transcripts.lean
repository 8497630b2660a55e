import Mathlib.Data.List.Infix
import ScrapeConfig.Lexer.Transcript
import ScrapeConfig.Proofs.Lexer.Emissions

/-!
# Transcripts of documents

A transcript listens to the same lexer as a handler that builds tokens, and either of them makes it
stop: one at every token, the other where the line of a token does not fit. What they are told is the
same, so the lines can be given by the replies to the first. How much of them is written, counted and
reported depends on the room alone.

Results:
1. a write to a sink that may run out of room, `Sink.write_eq`
2. what a transcript has to tell once it took down some replies, `Transcript.tells_foldl`
3. it takes down all events of a lexer, however often it makes it stop, `Lexer.run_transcript`
4. what it tells of a document, `Document.transcript_tells`
-/

namespace ScrapeConfig

/-! ## Sinks -/

/-- The way the library makes a list of bytes, by induction along its loop. -/
theorem byteArray_toList (b : ByteArray) : b.toList = b.data.toList := by
  have loop (i : Nat) (front : List UInt8) :
      ByteArray.toList.loop b i front = front.reverse ++ b.data.toList.drop i := by
    fun_induction ByteArray.toList.loop b i front with
    | case1 i front more ih =>
      have inside : i < b.data.toList.length := more
      have byte : b.get! i = b.data.toList[i] := getElem!_pos b.data i more
      rw [ih, List.drop_eq_getElem_cons inside, List.reverse_cons, List.append_assoc, byte]
      rfl
    | case2 i front exceeds =>
      rw [List.drop_of_length_le (Nat.le_of_not_lt exceeds), List.append_nil]
  exact loop 0 []

namespace Sink

/-- The bytes all fit. -/
def Fits (room : Option Nat) (bytes : List UInt8) : Prop := ∀ n ∈ room, bytes.length ≤ n

instance (room : Option Nat) (bytes : List UInt8) : Decidable (Fits room bytes) :=
  inferInstanceAs (Decidable (∀ n ∈ room, _))

/-- As many of the bytes as fit. -/
def cut (room : Option Nat) (bytes : List UInt8) : List UInt8 :=
  match room with
  | none => bytes
  | some n => bytes.take n

variable {room : Option Nat} {bytes bytes' : List UInt8}

theorem cut_of_fits (h : Fits room bytes) : cut room bytes = bytes := by
  cases room with
  | none => rfl
  | some n => exact List.take_of_length_le (h n rfl)

theorem cut_append (room : Option Nat) (bytes bytes' : List UInt8) :
    cut room (bytes ++ bytes') =
      cut room bytes ++ cut (room.map (· - bytes.length)) bytes' := by
  cases room with
  | none => rfl
  | some n => exact List.take_append

theorem fits_append (some : bytes' ≠ []) : Fits room (bytes ++ bytes') ↔
    Fits (room.map (· - bytes.length)) bytes' := by
  have positive := List.length_pos_iff.mpr some
  cases room with
  | none => exact iff_of_true nofun nofun
  | some n =>
    simp only [Fits, Option.map_some, Option.mem_some_iff, forall_eq', List.length_append]
    omega

theorem write_eq (s : Sink) (text : String) :
    s.write text = (decide (Fits s.room text.toUTF8.toList),
      ⟨s.room.map (· - text.toUTF8.toList.length), cut s.room text.toUTF8.toList :: s.chunks⟩) := by
  obtain ⟨room, chunks⟩ := s
  cases room with
  | none => simp [write, Fits, cut]
  | some n => simp [write, Fits, cut]

end Sink

/-! ## Lines -/

namespace Token

/-- What is shown of a token behind its name: its level, or its text in quotes. -/
def details : Payload → String
  | .none => ""
  | .context _ => ""
  | .level n => "(" ++ toString n ++ ")"
  | .text s => "(" ++ Quoted.encode s ++ ")"

theorem display_eq (t : Token) : t.display = t.kind.label ++ details t.payload := by
  obtain ⟨kind, payload, span⟩ := t
  cases payload with
  | none | context => exact String.append_empty.symm
  | level n => simp [display, details, String.append_assoc, toString]
  | text s => simp [display, details, String.append_assoc]

end Token

namespace Transcript

open Sink (Fits cut)

/-- The line for a reply: line and column, a tab, and a token with its details or the message of an
error. -/
def line : Reply Token → String
  | .output t => s!"{t.span.line}:{t.span.column}\t{t.kind.label}{Token.details t.payload}\n"
  | .error e => s!"{e.line}:{e.column}\tERROR {e.problem.message}\n"
  | _ => ""

theorem line_output (t : Token) : tokenLine t = line (.output t) := by
  rw [tokenLine, line, Token.display_eq]
  simp only [toString, String.append_assoc]

theorem line_error (e : ParseError) : faultLine e = line (.error e) := rfl

/-- The bytes of the lines for some replies, one behind the other. -/
def bytes (rs : List (Reply Token)) : List UInt8 := rs.flatMap fun r => (line r).toUTF8.toList

/-- The last of the replies is a token. -/
def EndsInToken (rs : List (Reply Token)) : Prop := (rs.getLast?.bind Reply.output?).isSome

instance : DecidablePred EndsInToken := fun rs =>
  inferInstanceAs (Decidable ((rs.getLast?.bind Reply.output?).isSome = true))

/-- Takes down what is replied. -/
def hear (t : Transcript) : Reply Token → Transcript
  | .output token => (t.writeToken token).2
  | .error e => (handler.fault e t).2
  | _ => t

/-- What a transcript is once it has taken down some replies, with so much room in front of them. The
line of a token is complete if everything up to its end fits. -/
structure Tells (room : Option Nat) (rs : List (Reply Token)) (t : Transcript) : Prop where
  left : t.sink.room = room.map (· - (bytes rs).length)
  written : t.sink.written = cut room (bytes rs)
  count : t.count = rs.inits.countP fun front => EndsInToken front ∧ Fits room (bytes front)
  failed : t.failed = true ↔ ∃ front ∈ rs.inits, EndsInToken front ∧ ¬ Fits room (bytes front)

/-! ## Reply by reply -/

theorem bytes_concat (rs : List (Reply Token)) (r : Reply Token) :
    bytes (rs ++ [r]) = bytes rs ++ (line r).toUTF8.toList := by
  rw [bytes, List.flatMap_append, List.flatMap_singleton]
  rfl

theorem endsInToken_concat (rs : List (Reply Token)) (r : Reply Token) :
    EndsInToken (rs ++ [r]) ↔ r.output?.isSome := by
  rw [EndsInToken, List.getLast?_concat, Option.bind_some]

theorem inits_concat {α : Type} (xs : List α) (x : α) :
    (xs ++ [x]).inits = xs.inits ++ [xs ++ [x]] :=
  List.inits_append xs [x]

theorem line_ne_nil {r : Reply Token} (token : r.output?.isSome) :
    (line r).toUTF8.toList ≠ [] := by
  intro none
  cases r with
  | output t =>
    have size : (line (.output t)).utf8ByteSize = 0 := by
      rw [byteArray_toList] at none
      exact congrArg List.length none
    simp [line, String.utf8ByteSize_append] at size
  | _ => cases token

theorem writeToken_eq (t : Transcript) (token : Token) : t.writeToken token =
    if Fits t.sink.room (line (.output token)).toUTF8.toList then
      (none, { t with sink := (t.sink.write (line (.output token))).2, count := t.count + 1 })
    else (some (), { t with sink := (t.sink.write (line (.output token))).2, failed := true }) := by
  rw [writeToken, line_output, Sink.write_eq]
  by_cases fits : Fits t.sink.room (line (.output token)).toUTF8.toList
  · rw [if_pos fits, decide_eq_true fits]
  · rw [if_neg fits, decide_eq_false fits]

section

variable (t : Transcript) (r : Reply Token)

theorem sink_hear : (t.hear r).sink.room = t.sink.room.map (· - (line r).toUTF8.toList.length) ∧
    (t.hear r).sink.written = t.sink.written ++ cut t.sink.room (line r).toUTF8.toList := by
  have written (text : String) :
      (t.sink.write text).2.room = t.sink.room.map (· - text.toUTF8.toList.length) ∧
      (t.sink.write text).2.written = t.sink.written ++ cut t.sink.room text.toUTF8.toList :=
    ⟨by rw [Sink.write_eq], t.sink.written_write text⟩
  cases r with
  | output token =>
    have sink : (t.hear (.output token)).sink = (t.sink.write (line (.output token))).2 := by
      rw [hear, writeToken_eq]
      split <;> rfl
    rw [sink]
    exact written _
  | error e =>
    rw [hear, ← line_error]
    exact written _
  | _ =>
    cases room : t.sink.room <;> simp [hear, line, cut, room, byteArray_toList]

theorem count_hear : (t.hear r).count =
    t.count + if r.output?.isSome ∧ Fits t.sink.room (line r).toUTF8.toList then 1 else 0 := by
  cases r with
  | output token =>
    have isToken : (Reply.output token).output?.isSome = true := rfl
    rw [hear, writeToken_eq]
    simp only [isToken, true_and]
    split <;> rfl
  | _ => rfl

theorem failed_hear : (t.hear r).failed = true ↔ t.failed = true ∨
    r.output?.isSome ∧ ¬ Fits t.sink.room (line r).toUTF8.toList := by
  cases r with
  | output token =>
    have isToken : (Reply.output token).output?.isSome = true := rfl
    rw [hear, writeToken_eq]
    simp only [isToken, true_and]
    split
    · next fits => exact (or_iff_left (not_not_intro fits)).symm
    · next exceeds => exact iff_of_true rfl (.inr exceeds)
  | _ => simp [hear, Reply.output?, handler]

end

variable {room : Option Nat} {rs : List (Reply Token)} {t : Transcript}

theorem tells_nil (room : Option Nat) : Tells room [] { sink := { room } } where
  left := by cases room <;> rfl
  written := by cases room <;> simp [Sink.written, cut, bytes]
  count := rfl
  failed := by simp [EndsInToken]

theorem Tells.hear (h : Tells room rs t) (r : Reply Token) : Tells room (rs ++ [r]) (t.hear r) := by
  obtain ⟨sinkRoom, sinkWritten⟩ := t.sink_hear r
  have token : r.output?.isSome → (Fits room (bytes (rs ++ [r])) ↔
      Fits t.sink.room (line r).toUTF8.toList) := fun token => by
    rw [h.left, bytes_concat, Sink.fits_append (line_ne_nil token)]
  refine ⟨?_, ?_, ?_, ?_⟩
  · rw [sinkRoom, h.left, bytes_concat, Option.map_map, List.length_append]
    exact congrArg (room.map ·) (funext fun n => (Nat.sub_add_eq n _ _).symm)
  · rw [sinkWritten, h.written, h.left, bytes_concat, Sink.cut_append]
  · rw [count_hear, h.count, inits_concat, List.countP_append, List.countP_singleton]
    simp only [decide_eq_true_eq, endsInToken_concat, and_congr_right token]
  · rw [failed_hear, h.failed, inits_concat]
    simp only [List.mem_append, List.mem_singleton, or_and_right, exists_or, exists_eq_left,
      endsInToken_concat]
    exact or_congr_right (and_congr_right fun some => not_congr (token some).symm)

/-- By induction on the replies, the latest one last. -/
theorem tells_foldl (room : Option Nat) (rs : List (Reply Token)) :
    Tells room rs (rs.foldl Transcript.hear { sink := { room } }) := by
  induction rs using List.reverseRecOn with
  | nil => exact tells_nil room
  | append_singleton rs r ih =>
    rw [List.foldl_append]
    exact ih.hear r

end Transcript

/-! ## Lexers -/

/-- A handler that builds tokens or takes them down can do so. -/
def Event.Plain : Event → Prop
  | .emit emission span => ∃ t, Token.ofEmission emission span = .ok t
  | .fault _ => True
  | .abort => False

namespace Lexer

open Transcript (hear)

variable {es : List Event}

theorem emit_transcript {emission : Emission} {span : Span} (plain : (Event.emit emission span).Plain)
    (t : Transcript) :
    ∃ stop, Transcript.handler.emit emission span t =
      (.ok stop, t.hear (Event.emit emission span).reply) := by
  obtain ⟨token, made⟩ := plain
  refine ⟨(t.writeToken token).1, ?_⟩
  rw [Event.reply, made]
  simp only [Transcript.handler, made]
  rfl

/-- Up to a reply some of the events are taken down. -/
theorem feed_transcript (plain : ∀ e ∈ es, e.Plain) (t : Transcript) :
    ∃ front, es = front ++ (feed Transcript.handler es t).2.1 ∧
      (feed Transcript.handler es t).2.2 = (front.map Event.reply).foldl hear t ∧
      (feed Transcript.handler es t).1 ≠ .aborted := by
  induction es generalizing t with
  | nil => exact ⟨[], rfl, rfl, by simp [feed]⟩
  | cons e es ih =>
    obtain ⟨first, others⟩ := List.forall_mem_cons.mp plain
    cases e with
    | abort => exact first.elim
    | fault e => exact ⟨[.fault e], rfl, rfl, by simp [feed]⟩
    | emit emission span =>
      obtain ⟨stop, told⟩ := emit_transcript first t
      rw [feed, told]
      cases stop with
      | some o => exact ⟨[.emit emission span], rfl, rfl, by simp⟩
      | none =>
        obtain ⟨front, split, taken, goesOn⟩ := ih others (t.hear (Event.emit emission span).reply)
        exact ⟨.emit emission span :: front, congrArg _ split, taken, goesOn⟩

/-- A transcript takes down all that there is to say, by induction on what is left of it. -/
theorem run_transcript {l : Lexer} (plain : ∀ e ∈ l.events, e.Plain) (t : Transcript) :
    (∀ call ∈ (l.run Transcript.handler t).1, call.1 ≠ .aborted) ∧
      (l.run Transcript.handler t).2.1 = (l.events.map Event.reply).foldl hear t := by
  induction hn : l.events.length using Nat.strongRecOn generalizing l t with
  | ind length ih =>
    obtain ⟨next, asked, further⟩ := l.lex_eq Transcript.handler t
    obtain ⟨front, split, taken, goesOn⟩ := feed_transcript plain t
    have shorter := @length_feed _ _ Transcript.handler l.events t
    have finished := @feed_finished _ _ Transcript.handler l.events t
    generalize feed Transcript.handler l.events t = fed at *
    obtain ⟨reply, rest, t'⟩ := fed
    dsimp only at *
    have onward : reply ≠ .finished →
        (∀ call ∈ (next.run Transcript.handler t').1, call.1 ≠ .aborted) ∧
          (next.run Transcript.handler t').2.1 = (l.events.map Event.reply).foldl hear t := by
      intro unfinished
      have behind : ∀ e ∈ next.events, e.Plain := fun e he =>
        plain e (split ▸ List.mem_append_right _ (further ▸ he))
      obtain ⟨calls, told⟩ :=
        ih _ (hn ▸ shorter unfinished) behind t' (congrArg List.length further)
      refine ⟨calls, ?_⟩
      rw [told, taken, further, ← List.foldl_append, ← List.map_append, ← split]
    rw [run, asked]
    cases reply with
    | finished =>
      rw [finished rfl, List.append_nil] at split
      exact ⟨List.forall_mem_nil _, by rw [split]; exact taken⟩
    | aborted => exact absurd rfl goesOn
    | output o =>
      obtain ⟨calls, told⟩ := onward (by simp)
      exact ⟨List.forall_mem_cons.mpr ⟨by simp, calls⟩, told⟩
    | error e =>
      obtain ⟨calls, told⟩ := onward (by simp)
      exact ⟨List.forall_mem_cons.mpr ⟨by simp, calls⟩, told⟩

/-- The replies of a lexer to a handler that builds tokens, up to the end. -/
def replies (l : Lexer) : List (Reply Token) := (l.run Token.handler ()).1.map (·.1)

theorem replies_eq {l : Lexer} (goesOn : .abort ∉ l.events) :
    l.replies = l.events.map Event.reply := by
  generalize hes : l.events = es at goesOn
  induction es generalizing l with
  | nil =>
    obtain ⟨l', asked, _⟩ := l.lex_eq Token.handler ()
    rw [hes] at asked
    rw [replies, run, asked]
    rfl
  | cons e es ih =>
    obtain ⟨l', asked, further⟩ := lex_of_events hes
    rw [List.mem_cons, not_or] at goesOn
    have behind := ih further goesOn.2
    rw [List.map_cons, ← behind, replies, run, asked]
    rcases e.reply_eq_output_or_error (Ne.symm goesOn.1) with ⟨t, ht⟩ | ⟨error, he⟩
    · rw [ht]
      rfl
    · rw [he]
      rfl

end Lexer

/-! ## Documents -/

open Rule (Cuts documentRules)

/-- What a frame of a document adds becomes tokens or is a fault. -/
theorem Rule.Cuts.adds {i : Nat} {text rest : List Char} (cut : Cuts i text rest) (p : Position)
    (t : Tracker) (run : Option (List Char)) :
    ∃ es t' run', Event.Adds documentRules t run ⟨some i, text, p⟩ es t' run' ∧
      ∀ e ∈ es, e.Plain := by
  have boundaries : ∀ e ∈ (t.across run).pending.map (Event.boundary (.covering p text)),
      e.Plain := List.forall_mem_map.mpr fun b _ => ⟨_, b.ofEmission_eq _⟩
  rcases Rule.exists_means cut.denotes with ⟨kind, payload, meant⟩ | rfl | rfl | rfl | rfl
  · obtain ⟨r, emission, hr, skip, indent, emits, made⟩ := meant.emits (.covering p text)
    refine ⟨_, _, _, .token rfl hr skip indent (emits ▸ nofun), ?_⟩
    refine List.forall_mem_append.mpr ⟨boundaries, List.forall_mem_singleton.mpr ?_⟩
    show (Event.ofFrame r.action text (.covering p text)).Plain
    rw [emits]
    exact ⟨_, made⟩
  · exact ⟨_, _, _, .skip rfl rfl rfl, nofun⟩
  · exact ⟨_, _, _, .indent rfl rfl rfl, nofun⟩
  · exact ⟨_, _, _, .skip rfl rfl rfl, nofun⟩
  · refine ⟨_, _, _, .token rfl rfl (by decide) (by decide) nofun, ?_⟩
    exact List.forall_mem_append.mpr ⟨boundaries, List.forall_mem_singleton.mpr trivial⟩

/-- So it is with all frames, and the end of the document comes last. By induction on how the text is
cut. -/
theorem Segments.plain {p : Position} {cs : List Char} {fs : List Frame} (h : Segments p cs fs)
    (t : Tracker) (run : Option (List Char)) (span : Span) :
    ∃ es span', Event.ofFrames documentRules t run span fs = es ++ [.eof span'] ∧
      ∀ e ∈ es, e.Plain := by
  induction h generalizing t run span with
  | @finish p =>
    refine ⟨_, _, rfl, ?_⟩
    exact List.forall_mem_map.mpr fun b _ => ⟨_, b.ofEmission_eq _⟩
  | @piece p i cs text rest fs _ cut _ ih =>
    obtain ⟨es, t', run', adds, plain⟩ := cut.adds p t run
    obtain ⟨es', span', behind, plain'⟩ := ih t' run' (.covering p text)
    refine ⟨es ++ es', span', ?_, List.forall_mem_append.mpr ⟨plain, plain'⟩⟩
    rw [adds.ofFrames_eq, List.append_assoc, ← behind]
    rfl

namespace Transcript

open Sink (Fits cut_of_fits)

/-- The bytes of the lines are those of their text. -/
theorem bytes_eq (rs : List (Reply Token)) :
    bytes rs = (String.join (rs.map line)).toByteArray.data.toList := by
  induction rs with
  | nil => rfl
  | cons r rs ih =>
    rw [bytes, List.flatMap_cons, ← bytes, ih, List.map_cons, String.join_cons,
      String.toByteArray_append, ByteArray.toList_data_append, byteArray_toList]
    rfl

/-- Unless it failed, a transcript whose last line is that of a token is the text of all its lines. -/
theorem Tells.text?_eq {room : Option Nat} {rs : List (Reply Token)} {t : Transcript}
    (h : Tells room rs t) (token : EndsInToken rs) :
    t.text? = if t.failed then none else some (String.join (rs.map line)) := by
  rw [text?]
  split
  · rfl
  · next unfailed =>
    have fits : Fits room (bytes rs) := by
      by_contra exceeds
      exact unfailed (h.failed.mpr ⟨rs, List.mem_inits rs rs |>.mpr List.prefix_rfl, token, exceeds⟩)
    rw [h.written, cut_of_fits fits, bytes_eq, Array.toArray_toList]
    exact dif_pos (String.join (rs.map line)).isValidUTF8

end Transcript

namespace Document

/-- However much room there is for it, the transcript of a document comes to its end. What fits of the
lines is written, which are the tokens of the document and the errors between them; the tokens whose
lines are complete are counted, and it is a failure if the line of a token is not. -/
theorem transcript_tells (threaded : Bool) (context : Context) (source : String)
    (room : Option Nat) :
    ∃ l, lexer threaded context source = .ok l ∧
      (∀ call ∈ (l.run Transcript.handler { sink := { room } }).1, call.1 ≠ .aborted) ∧
      Transcript.Tells room l.replies (l.run Transcript.handler { sink := { room } }).2.1 ∧
      (l.run Transcript.handler { sink := { room } }).2.1.text? =
        if (l.run Transcript.handler { sink := { room } }).2.1.failed then none
        else some (String.join (l.replies.map Transcript.line)) := by
  obtain ⟨set, hset, _⟩ := Rule.documentPatterns_eq_ok
  refine ⟨.new documentRules context (frames set threaded source), by rw [lexer, hset]; rfl, ?_⟩
  obtain ⟨es, span, behind, framed⟩ := (segments_frames hset threaded source).plain {} none {}
  have events := Lexer.events_new documentRules context (frames set threaded source)
  rw [behind] at events
  generalize Lexer.new documentRules context (frames set threaded source) = l at events
  have plain : ∀ e ∈ l.events, e.Plain := by
    rw [events]
    refine List.forall_mem_cons.mpr ⟨⟨_, Token.ofEmission_opening context⟩, ?_⟩
    exact List.forall_mem_append.mpr
      ⟨framed, List.forall_mem_singleton.mpr ⟨_, Token.ofEmission_eof span⟩⟩
  have replies := Lexer.replies_eq fun abort => plain .abort abort
  have last : Transcript.EndsInToken l.replies := by
    rw [replies, events, List.map_cons, List.map_append, ← List.cons_append]
    refine (Transcript.endsInToken_concat _ _).mpr ?_
    rw [Event.eof, Event.reply, Token.ofEmission_eof]
    rfl
  obtain ⟨goesOn, told⟩ := Lexer.run_transcript plain { sink := { room } }
  have tells := Transcript.tells_foldl room l.replies
  rw [replies, ← told, ← replies] at tells
  exact ⟨goesOn, tells, tells.text?_eq last⟩

end Document

end ScrapeConfig
