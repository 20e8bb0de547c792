import IncrementalJson.Proofs.Reading.Linked
import IncrementalJson.Proofs.Reading.Nesting
import IncrementalJson.Proofs.Reading.Scratch

/-!
# Documents that are cut short

The beginning of a document that is accepted is read without an error.  At its end
every frame but one turns the end of the input into an error, the same one, and so
the document is reported as cut short.  The exception is a number: the end of the
document ends its literal as well, which may not be complete, or which may be too
large without the exponent that was to come.
-/

set_option autoImplicit false

namespace IncrementalJson

open Ascii

/-! ## Turns behind the end of the document -/

/-- What a turn behind the end of the document may lead to: a value, or an error of some kind. -/
def Expires {β : Type} (yields : β → Prop) (fails : ParseError → Prop) :
    Except ParseError (Advance β) → Prop
  | .error error => fails error
  | .ok ⟨body, _, _, .complete⟩ => yields body
  | .ok _ => False

theorem Expires.mono {β : Type} {yields : β → Prop} {fails fails' : ParseError → Prop}
    {advance : Except ParseError (Advance β)} (expires : Expires yields fails advance)
    (weaker : ∀ error, fails error → fails' error) : Expires yields fails' advance := by
  rcases advance with error | ⟨body, rest, scratch, step⟩
  · exact weaker error expires
  · cases step with
    | pause | call | complete => exact expires

theorem Expires.map {β γ : Type} {yields : β → Prop} {yields' : γ → Prop}
    {fails : ParseError → Prop} {advance : Except ParseError (Advance β)} {f : β → γ}
    (expires : Expires yields fails advance) (passes : ∀ body, yields body → yields' (f body)) :
    Expires yields' fails (advance.map (.map f)) := by
  rcases advance with error | ⟨body, rest, scratch, step⟩
  · exact expires
  · cases step with
    | pause | call => exact expires
    | complete => exact passes body expires

def FrameBody.Yields (body : FrameBody) : Prop := ∃ value, body.result = .ok value

/-- Nothing but a broken invariant keeps the value of the frame from being handed over. -/
def Frame.Yields (frame : Frame) : Prop :=
  ∀ slot error, frame.deliver slot = .error error → error.kind = .internal

def FrameBody.Quiet : FrameBody → Prop
  | .number _ lexer .. => lexer.part = .nothing
  | _ => True

variable {schema : Schema} {shape : Shape} {offset : Nat} {scratch : Scratch}

namespace FrameBody

/-- A body that is in no number is cut short, or has read all but what completes it. -/
theorem expires_resume {body : FrameBody} (quiet : body.Quiet) :
    Expires FrameBody.Yields (· = .endOfData)
      (body.resume schema ⟨[], offset, true⟩ scratch) := by
  cases body with
  | null rest =>
    rcases rest with _ | _ | ⟨byte, more⟩
    · exact rfl
    · exact ⟨.null, rfl⟩
    · exact rfl
  | bool value rest =>
    rcases rest with _ | _ | ⟨byte, more⟩
    · exact rfl
    · exact ⟨.bool value, rfl⟩
    · exact rfl
  | string lexer octets => cases lexer <;> exact rfl
  | number type lexer spilled result =>
    have nothing : lexer.part = .nothing := quiet
    rw [resume, startNumber, if_pos nothing]
    exact rfl
  | array item phase items => cases phase <;> exact rfl
  | object table phase target members presence extras => cases phase <;> exact rfl
  | variant held =>
    cases held with
    | none => exact rfl
    | some value => exact ⟨.held value, rfl⟩

theorem expires_spilled {type : NumberType} {lexer : NumberLexer} (result : Option NumberValue)
    (begun : lexer.part ≠ .nothing) :
    Expires FrameBody.Yields (fun error => type.read lexer scratch.toList = .error error)
      (resume schema ⟨[], offset, true⟩ scratch (.number type lexer true result)) := by
  rw [resume, startNumber, if_neg begun, resumeNumber, NumberLexer.scan, NumberLexer.scanBytes]
  simp only [if_true, endNumber, Array.append_empty]
  cases read : type.read lexer scratch.toList with
  | error error => exact rfl
  | ok value => exact ⟨.number value, rfl⟩

end FrameBody

namespace Frame

theorem kind_of_deliverInto {slot shape : Shape} {value : Value} {error : ParseError}
    (refused : deliverInto slot shape value = .error error) : error.kind = .internal := by
  rw [deliverInto] at refused
  split at refused <;> cases refused
  rfl

theorem yields_core (shape : Shape) {body : FrameBody} (yields : body.Yields) :
    (core shape body).Yields := by
  intro slot error refused
  obtain ⟨value, read⟩ := yields
  simp only [deliver, read] at refused
  exact kind_of_deliverInto refused

theorem yields_around {item : Shape} {inner : Frame} (yields : inner.Yields) :
    (box item inner).Yields ∧ (present item inner).Yields := by
  constructor
  all_goals
    intro slot error refused
    rw [deliver] at refused
    cases given : inner.deliver item with
    | error error' =>
      rw [given] at refused
      cases refused
      exact yields item _ given
    | ok value =>
      rw [given] at refused
      exact kind_of_deliverInto refused

def Quiet (frame : Frame) : Prop :=
  ∀ body, frame.body? = some body → body.Quiet

theorem expires_resume {frame : Frame} (quiet : frame.Quiet) :
    Expires Yields (· = .endOfData) (frame.resume schema ⟨[], offset, true⟩ scratch) := by
  induction frame with
  | core shape body => exact (FrameBody.expires_resume (quiet body rfl)).map fun _ => yields_core shape
  | box item inner ih => exact (ih quiet).map fun later yields => (yields_around yields).1
  | present item inner ih => exact (ih quiet).map fun later yields => (yields_around yields).2
  | undecided item => exact rfl
  | absent item rest =>
    cases rest with
    | nil => exact fun slot error refused => kind_of_deliverInto refused
    | cons byte more => exact rfl

theorem expires_literal {frame : Frame} {type : NumberType} {lexer : NumberLexer}
    (collects : frame.Collects (.literal type lexer)) :
    Expires Yields (fun error => type.read lexer scratch.toList = .error error)
      (frame.resume schema ⟨[], offset, true⟩ scratch) := by
  obtain ⟨body, works, ⟨begun⟩⟩ := collects
  induction frame with
  | core shape body =>
    cases works
    exact (FrameBody.expires_spilled _ begun).map fun _ => yields_core shape
  | box item inner ih => exact (ih works).map fun later yields => (yields_around yields).1
  | present item inner ih => exact (ih works).map fun later yields => (yields_around yields).2
  | undecided | absent => cases works

theorem quiet_of_idle {frame : Frame} (idle : frame.Idle) : frame.Quiet := by
  intro body works
  have idle := idle body works
  cases body with
  | number type lexer spilled result =>
    obtain ⟨rfl, -⟩ := idle
    rfl
  | _ => trivial

theorem Placed.quiet_or_literal {frame : Frame} (placed : frame.Placed scratch) :
    frame.Quiet ∨ ∃ type lexer, frame.Collects (.literal type lexer) := by
  cases placed with
  | idle idle => exact .inl (quiet_of_idle idle)
  | collects collects =>
    obtain ⟨body, works, collects⟩ := collects
    cases collects with
    | literal begun => exact .inr ⟨_, _, _, works, .literal begun⟩
    | name =>
      refine .inl fun other same => ?_
      cases works.symm.trans same
      trivial

theorem Placed.collects_of_literal {frame : Frame} (placed : frame.Placed scratch)
    {type : NumberType} {lexer : NumberLexer} (held : frame.holding = .literal type lexer) :
    frame.Collects (.literal type lexer) := by
  cases placed with
  | idle idle => cases held.symm.trans (holding_of_idle idle)
  | collects collects =>
    cases held.symm.trans collects.holding
    exact collects

theorem quiet_of_received {frame : Frame} (received : frame.Received) : frame.Quiet := by
  obtain ⟨body, works, received⟩ := received
  intro other same
  cases works.symm.trans same
  cases body with
  | number => exact received.elim
  | _ => trivial

theorem kind_of_accept {parent child : Frame} (yields : child.Yields) {error : ParseError}
    (refused : parent.accept child = .error error) : error.kind = .internal := by
  have failed {α β : Type} {result : Except ParseError α} {f : α → β}
      (refused : result.map f = .error error) : result = .error error := by
    cases result with
    | error error => exact congrArg Except.error (Except.error.inj refused)
    | ok value => cases refused
  induction parent with
  | core shape body =>
    rcases body.accept_cases child with ⟨state, stray⟩ | ⟨slot, take, same, -⟩
    · cases stray.symm.trans (failed refused)
      rfl
    · exact yields slot error (failed (same ▸ failed refused))
  | box item inner ih | present item inner ih => exact ih (failed refused)
  | undecided | absent =>
    cases refused
    rfl

end Frame

/-! ## Runs behind the end of the document -/

theorem Stack.kind_of_handOver {reading reading' : Reading} {done : Frame}
    {stack stack' : Stack Frame} {error : ParseError} (yields : done.Yields)
    (handed : stack.handOver (readDriver schema shape) reading done =
      (reading', stack', .error error)) : error.kind = .internal := by
  obtain ⟨frames, fresh, limit, scratch⟩ := stack
  cases frames with
  | nil =>
    simp only [handOver, readDriver] at handed
    split at handed
    · cases handed
    · rename_i refused
      cases handed
      exact yields _ _ refused
  | cons parent below =>
    simp only [handOver, readDriver] at handed
    split at handed
    · cases handed
    · rename_i refused
      cases handed
      exact Frame.kind_of_accept yields refused

theorem Expires.turn {fails : ParseError → Prop} {reading reading' : Reading} {top top' : Frame}
    {scratch' : Scratch} {result : Except ParseError (Step Frame)}
    (ended : reading.input = ⟨[], offset, true⟩)
    (expires : Expires Frame.Yields fails (top.resume schema ⟨[], offset, true⟩ scratch))
    (resumed : (readDriver schema shape).resume reading top scratch =
      ⟨reading', top', scratch', result⟩) :
    match result with
    | .error error => fails error
    | .ok .complete => reading'.input = ⟨[], offset, true⟩ ∧ top'.Yields
    | .ok _ => False := by
  simp only [readDriver, ended] at resumed
  rcases turned : top.resume schema ⟨[], offset, true⟩ scratch with
    error | ⟨later, rest, scratch'', step⟩
  · rw [turned] at expires
    simp only [turned] at resumed
    cases resumed
    exact expires
  · have exhausted : rest = _ := Frame.resume_exhausted turned
    rw [turned] at expires
    simp only [turned] at resumed
    cases resumed
    cases step with
    | pause | call => exact expires
    | complete => exact ⟨exhausted, expires⟩

/-- Behind the end of the document a run does not wait.  Where the newest frame does not fail, those
beneath it are cut short, or take the value over. -/
theorem Runs.expires {fails : ParseError → Prop} (short : fails .endOfData) {reading : Reading}
    {stack : Stack Frame} {run : Run Reading Frame ParseError}
    (runs : Runs (readDriver schema shape) reading stack run)
    (ended : reading.input = ⟨[], offset, true⟩)
    (expires : ∀ newest ∈ stack.frames.head?,
      Expires Frame.Yields fails (newest.resume schema ⟨[], offset, true⟩ stack.scratch)) :
    match run.outcome with
    | .failed error => fails error ∨ error.kind = .internal
    | .done => True
    | _ => False := by
  induction runs with
  | empty => trivial
  | fail resumed => exact .inl ((expires _ rfl).turn ended resumed)
  | pause resumed => exact ((expires _ rfl).turn ended resumed).elim
  | refuse resumed => exact ((expires _ rfl).turn ended resumed).elim
  | call resumed => exact ((expires _ rfl).turn ended resumed).elim
  | reject resumed handed =>
    obtain ⟨-, yields⟩ := (expires _ rfl).turn ended resumed
    exact .inr (Stack.kind_of_handOver yields handed)
  | complete resumed handed _ ih =>
    obtain ⟨ended', -⟩ := (expires _ rfl).turn ended resumed
    obtain ⟨input, -⟩ := Stack.handOver_frame handed
    apply ih (input.trans ended')
    intro newest isNewest
    have quiet := Frame.quiet_of_received (Stack.received_handOver handed newest isNewest)
    refine (Frame.expires_resume quiet).mono ?_
    rintro error rfl
    exact short

/-! ## Literals that are cut -/

namespace NumberLexer

theorem isFloat_next? {lexer later : NumberLexer} {byte : UInt8} (float : lexer.isFloat)
    (next : lexer.next? byte = some later) : later.isFloat := by
  obtain ⟨part, negative, mantissa, overflow⟩ := lexer
  cases part with
  | nothing | minus | zero | integer => cases float
  | _ =>
    simp only [next?] at next
    repeat' split at next
    all_goals cases next
    all_goals rfl

theorem isFloat_readAll? {lexer later : NumberLexer} {bytes : List UInt8} (float : lexer.isFloat)
    (read : lexer.readAll? bytes = some later) : later.isFloat := by
  induction bytes generalizing lexer with
  | nil =>
    cases read
    exact float
  | cons byte rest ih =>
    cases next : lexer.next? byte with
    | none => simp [readAll?, List.foldlM_cons, next] at read
    | some between =>
      rw [readAll?_cons next] at read
      exact ih (isFloat_next? float next) read

end NumberLexer

namespace Literal

theorem isFloat_lexer (literal : Literal) : literal.lexer.isFloat = literal.integer?.isNone := by
  obtain ⟨negative, whole, fraction, exponent⟩ := literal
  cases exponent
  · cases fraction
    · cases whole <;> rfl
    · rfl
  · cases fraction <;> rfl

/-- What goes on from a literal with a fraction or an exponent is no integer either. -/
theorem integer?_eq_none_of_prefix {cut literal : Literal} (part : cut.bytes <+: literal.bytes)
    (float : cut.integer? = none) : literal.integer? = none := by
  obtain ⟨more, split⟩ := part
  have read := NumberLexer.readAll?_bytes literal
  rw [← split, NumberLexer.readAll?_append, NumberLexer.readAll?_bytes cut] at read
  have goesOn := NumberLexer.isFloat_readAll? (by rw [isFloat_lexer, float]; rfl) read
  rw [isFloat_lexer] at goesOn
  exact Option.isNone_iff_eq_none.mp goesOn

theorem outcome_error {literal : Literal} {type : NumberType} {error : ParseError}
    (refused : literal.outcome type = .error error) :
    error = .numericOverflow ∨ literal.integer? = none ∧ ∃ kind, type = .integer kind := by
  have finite {α : Type} {format : FloatFormat} {f : Nat → α}
      (refused : (format.readFinite literal.bytes).map f = .error error) :
      error = .numericOverflow := by
    rw [FloatFormat.readFinite] at refused
    split at refused <;> cases refused
    rfl
  have double {f : Number → NumberValue}
      (refused : (readDouble literal.bytes).map f = .error error) : error = .numericOverflow := by
    rw [readDouble] at refused
    cases read : binary64.readFinite literal.bytes with
    | ok bits =>
      rw [read] at refused
      cases refused
    | error error' =>
      rw [read] at refused
      cases refused
      exact finite (f := id) (by rw [read]; rfl)
  cases type with
  | single | double => exact .inl (finite refused)
  | integer kind =>
    cases integer : literal.integer? with
    | none => exact .inr ⟨rfl, kind, rfl⟩
    | some value =>
      simp only [outcome, integer] at refused
      split at refused <;> cases refused
      exact .inl rfl
  | any =>
    simp only [outcome] at refused
    split at refused
    · exact .inl (double refused)
    · repeat' split at refused
      · cases refused
      · cases refused
      · exact .inl (double refused)

end Literal

theorem NumberType.read_incomplete (type : NumberType) {lexer : NumberLexer}
    (incomplete : ¬ lexer.canEnd) (text : List UInt8) :
    type.read lexer text = .error .invalidNumber := by
  simp [read, incomplete]

theorem refused_of_cut {type : NumberType} {lexer : NumberLexer} {text : List UInt8}
    {error : ParseError} (read : NumberLexer.readAll? {} text = some lexer)
    (refused : type.read lexer text = .error error) {literal : Literal} {number : NumberValue}
    (part : text <+: literal.bytes) (fits : literal.outcome type = .ok number) :
    error = .invalidNumber ∧ (¬ ∃ cut : Literal, cut.bytes = text) ∨
      error = .numericOverflow ∧
        ∃ cut : Literal, cut.bytes = text ∧ cut.outcome type = .error .numericOverflow := by
  by_cases canEnd : lexer.canEnd
  · have lexes : Lexes lexer text := NumberLexer.lexes_of_readAll? .nothing read
    obtain ⟨cut, rfl, rfl⟩ := lexes.of_canEnd canEnd
    rw [type.read_lexer] at refused
    rcases Literal.outcome_error refused with rfl | ⟨float, kind, rfl⟩
    · exact .inr ⟨rfl, cut, rfl, refused⟩
    · rw [Literal.outcome, Literal.integer?_eq_none_of_prefix part float] at fits
      cases fits
  · left
    constructor
    · rw [type.read_incomplete canEnd] at refused
      cases refused
      rfl
    · rintro ⟨cut, rfl⟩
      rw [NumberLexer.readAll?_bytes cut] at read
      cases read
      exact canEnd cut.canEnd_lexer

theorem FrameBody.literal_of_resume {type : NumberType} {lexer : NumberLexer}
    {result : Option NumberValue} {bytes : List UInt8} {advance : Advance FrameBody}
    (begun : lexer.part ≠ .nothing)
    (read : NumberLexer.readAll? {} scratch.toList = some lexer)
    (resumed : resume schema ⟨bytes, offset, true⟩ scratch (.number type lexer true result) =
      .ok advance) :
    ∃ (literal : Literal) (number : NumberValue) (front after : List UInt8),
      bytes = front ++ after ∧ literal.bytes = scratch.toList ++ front ∧
        literal.outcome type = .ok number := by
  rw [resume, startNumber, if_neg begun, resumeNumber] at resumed
  rcases scanned : lexer.scan ⟨bytes, offset, true⟩ with error | ⟨later, text, rest, ended⟩
  · rw [scanned] at resumed
    cases resumed
  · cases ended with
    | false => exact absurd scanned NumberLexer.scanBytes_ended
    | true =>
      obtain ⟨-, front, split, read', total⟩ := NumberLexer.readAll?_of_scanBytes scanned
      have whole : NumberLexer.readAll? {} (scratch.toList ++ front) = some later := by
        rw [NumberLexer.readAll?_append, read]
        exact read'
      have textEq : (scratch ++ text).toList = scratch.toList ++ front := by
        rw [Array.toList_append, total]
        rfl
      rw [scanned] at resumed
      simp only [if_true, endNumber, textEq] at resumed
      obtain ⟨number, found, -⟩ := map_eq_ok_iff.mp resumed
      have canEnd : later.canEnd := by
        by_cases canEnd : later.canEnd
        · exact canEnd
        · rw [type.read_incomplete canEnd] at found
          cases found
      have lexes : Lexes later ([] ++ (scratch.toList ++ front)) :=
        NumberLexer.lexes_of_readAll? .nothing whole
      obtain ⟨literal, rfl, same⟩ := lexes.of_canEnd canEnd
      rw [List.nil_append] at same
      rw [same, type.read_lexer] at found
      exact ⟨literal, number, front, rest.bytes, split, same.symm, found⟩

/-! ## Parsers -/

namespace Parser

variable {parser : Parser} {error : ParseError}

/-- The end of the document is an end of data, unless it ends a literal. -/
theorem error_of_finish (live : parser.Live) (regular : parser.Regular)
    (placed : parser.stack.Stands Frame.Placed) (failed : parser.finish = .error error) :
    error = .endOfData ∨ ∃ type lexer, parser.holding = .literal type lexer ∧
      type.read lexer parser.stack.scratch.toList = .error error := by
  obtain ⟨run, runs, -⟩ := exists_runs parser.schema parser.shape parser.stack
    ⟨[], parser.offset, true⟩ parser.value
  let fails (error : ParseError) : Prop := error = .endOfData ∨
    ∃ type lexer, parser.holding = .literal type lexer ∧
      type.read lexer parser.stack.scratch.toList = .error error
  have short : fails .endOfData := .inl rfl
  have expires := runs.expires short rfl ?_
  · have sound := runs.sound regular.sound
    rw [finish_of_runs parser live runs] at failed
    obtain ⟨⟨input, value⟩, stack, outcome⟩ := run
    cases outcome with
    | paused | stalled => exact expires.elim
    | failed error' =>
      cases failed
      exact expires.resolve_right sound
    | done =>
      have exhausted : input = _ := runs.exhausted rfl rfl
      subst exhausted
      cases failed
  · intro newest isNewest
    rcases placed.cases with ⟨none, -⟩ | ⟨newest', below, frames, placed⟩
    · rw [none] at isNewest
      cases isNewest
    · have held := holding_of_frames frames
      rw [frames] at isNewest
      cases isNewest
      rcases placed.quiet_or_literal with quiet | ⟨type, lexer, collects⟩
      · exact (Frame.expires_resume quiet).mono fun error short => .inl short
      · refine (Frame.expires_literal collects).mono fun error refused => .inr ?_
        exact ⟨type, lexer, held.trans collects.holding, refused⟩

/-- The number that a parser is inside goes on to the end of a literal, if what is fed next
completes the document. -/
theorem literal_of_finish (live : parser.Live) (placed : parser.stack.Stands Frame.Placed)
    {type : NumberType} {lexer : NumberLexer} (held : parser.holding = .literal type lexer)
    (read : NumberLexer.readAll? {} parser.stack.scratch.toList = some lexer)
    {rest : List UInt8} {value : Value} (finished : (parser.feed rest).finish = .ok value) :
    ∃ (literal : Literal) (number : NumberValue) (front after : List UInt8),
      rest = front ++ after ∧ literal.bytes = parser.stack.scratch.toList ++ front ∧
        literal.outcome type = .ok number := by
  rcases stack : parser.stack with ⟨_ | ⟨newest, below⟩, fresh, limit, scratch⟩
  · rw [holding, stack] at held
    cases held
  · rw [stack] at placed read
    have placed : newest.Placed scratch := placed
    rw [holding_of_frames (by rw [stack])] at held
    have collects := placed.collects_of_literal held
    have neat : parser.stack.Tidy := by
      rw [stack]
      exact Frame.tidy_of_collects collects scratch
    obtain ⟨body, works, ⟨begun⟩⟩ := collects
    rcases turned : newest.resume parser.schema ⟨rest, parser.offset, true⟩ scratch with
      error | advance
    · cases finished.symm.trans (finish_feed_of_error live neat stack turned)
    · rw [Frame.resume_of_body? works] at turned
      obtain ⟨inner, resumed, -⟩ := map_eq_ok_iff.mp turned
      exact FrameBody.literal_of_resume begun read resumed

/-- The beginning of a document ends inside a literal that has its place in the document, and what
has come of the literal is not complete, or too large for the number that the whole literal is. -/
def CutsNumber (start : Parser) (document part : List UInt8) (error : ParseError) : Prop :=
  ∃ (type : NumberType) (lexer : NumberLexer) (number : NumberValue) (literal : Literal)
      (before text after : List UInt8),
    part = before ++ text ∧ document = before ++ literal.bytes ++ after ∧
      text <+: literal.bytes ∧ start.EndsInLiteral part type lexer text ∧
      literal.outcome type = .ok number ∧
      (error = .invalidNumber ∧ (¬ ∃ cut : Literal, cut.bytes = text) ∨
        error = .numericOverflow ∧
          ∃ cut : Literal, cut.bytes = text ∧ cut.outcome type = .error .numericOverflow)

theorem live_create (schema : Schema) (shape : Shape) {limit : Option Nat}
    (room : limit ≠ some 0) : (create schema shape limit).Live := by
  rw [create_of_room schema shape room]
  rfl

theorem live_of_finish {value : Value} (finished : parser.finish = .ok value) : parser.Live := by
  by_cases live : parser.Live
  · exact live
  · obtain ⟨error, failed⟩ := failed_of_not_live live
    rw [finish, failed] at finished
    cases finished

/-- A document that is accepted may be cut anywhere and fed in any chunks.  What is left of it is
fed without an error, and then is a document that is accepted as well, or is reported as cut short.
Only inside a number may the end be an error of another kind: the literal is not complete, or what
has come of it is too large. -/
theorem truncated_feedAll (schema : Schema) (shape : Shape) (limit : Option Nat)
    {document part : List UInt8} {value : Value} {chunks : List (List UInt8)}
    (accepted : parse schema shape document limit = .ok value) (begins : part <+: document)
    (whole : chunks.flatten = part) :
    let start := create schema shape limit
    let parser := start.feedAll chunks
    (∀ fed, fed <+: chunks → (start.feedAll fed).error? = none) ∧
      (∀ result, parser.finish = .ok result ↔ parse schema shape part limit = .ok result) ∧
      ∀ error, parser.finish = .error error →
        error = .endOfData ∨ start.CutsNumber document part error := by
  intro start parser
  obtain ⟨rest, rfl⟩ := begins
  have read : (start.feed (part ++ rest)).Live := live_of_finish accepted
  have room := room_of_live read
  have fresh := live_create schema shape room
  have neat := tidy_create schema shape limit fresh
  refine ⟨?_, ?_, ?_⟩
  · rintro fed ⟨unfed, rfl⟩
    rw [error?_feedAll_create schema shape room]
    subst whole
    rw [List.flatten_append, List.append_assoc] at read
    exact error?_feed_of_append fresh neat read
  · intro result
    rw [← whole]
    exact (finish_feedAll schema shape limit chunks).congr_left
  · intro error failed
    have live : (start.feed part).Live := error?_feed_of_append fresh neat read
    obtain ⟨placed, keeps⟩ := keeps_create live
    have regular := (regular_create schema shape limit).feed part
    have cut : (start.feed part).finish = .error error := by
      rw [← failed, ← whole]
      exact (finish_feedAll schema shape limit chunks).symm
    have finished : ((start.feed part).feed rest).finish = .ok value := by
      rw [(feed_append fresh neat part rest).finish]
      exact accepted
    rcases error_of_finish live regular placed cut with short | ⟨type, lexer, held, refused⟩
    · exact .inl short
    · right
      rw [Keeps, held] at keeps
      obtain ⟨literal, number, front, after, split, bytes, fits⟩ :=
        literal_of_finish live placed held keeps.read finished
      have begins : (start.feed part).stack.scratch.toList <+: literal.bytes := ⟨front, bytes.symm⟩
      obtain ⟨before, whole', -⟩ := keeps.since
      refine ⟨type, lexer, number, literal, before, _, after, whole', ?_, begins, keeps, fits,
        refused_of_cut keeps.read refused begins fits⟩
      rw [bytes, split, ← List.append_assoc before, ← whole', List.append_assoc]

/-- The array `[-1]`, cut behind the sign. -/
theorem truncated_feedAll_behind_sign :
    let document : List UInt8 := [leftBracket, 0x2D, 0x31, rightBracket]
    let part : List UInt8 := [leftBracket, 0x2D]
    let start := create .empty .variant
    let parser := start.feedAll [[leftBracket], [0x2D]]
    parse .empty .variant document =
        .ok (.held (.list [.held (.number (.any (.int (-1))))])) ∧
      part <+: document ∧ parser.error? = none ∧ parser.finish = .error .invalidNumber ∧
      start.CutsNumber document part .invalidNumber := by
  intro document part start parser
  have accepted : parse .empty .variant document =
      .ok (.held (.list [.held (.number (.any (.int (-1))))])) := rfl
  have begins : part <+: document := ⟨[0x31, rightBracket], rfl⟩
  have failed : parser.finish = .error .invalidNumber := rfl
  have whole : [[leftBracket], [0x2D]].flatten = part := rfl
  obtain ⟨fed, -, cut⟩ := truncated_feedAll .empty .variant none accepted begins whole
  refine ⟨accepted, begins, fed _ (List.prefix_refl _), failed, ?_⟩
  exact (cut _ failed).resolve_left (by decide)

end Parser

end IncrementalJson
