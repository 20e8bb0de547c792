import IncrementalJson.Proofs.Reading.Ends
import IncrementalJson.Proofs.Reading.FirstFault

/-!
# The life of a parser

A `Handle` is a parser in the hands of its caller: a tag tells its state, and the
error of the first call that failed is kept beside it.  A call sets the tag to
running and sets it once more before it answers.  The calls of a handle are those
of the parser, so what is known of documents tells which state it is in after any
chunks.
-/

set_option autoImplicit false

namespace IncrementalJson

open Ascii

inductive ParserState where
  | created
  /-- A call is under way. -/
  | running
  | paused
  | finished
  | errored
  deriving DecidableEq, Repr

structure Handle where
  schema : Schema
  shape : Shape
  stack : Stack Frame
  value : Value
  offset : Nat
  state : ParserState
  /-- The error of the first call that failed. -/
  error : Option ParseError

namespace Handle

abbrev Answer := Except ParseError Unit

def queue (schema : Schema) (shape : Shape) (limit : Option Nat) : Except Nat (Stack Frame) :=
  Stack.push { limit } (.start schema shape)

def fail (handle : Handle) (error : ParseError) : Handle × Answer :=
  ({ handle with state := .errored, stack := handle.stack.cleared, error := some error },
    .error error)

def create (schema : Schema) (shape : Shape) (limit : Option Nat) : Handle :=
  let handle : Handle := ⟨schema, shape, { limit }, schema.initial shape, 0, .created, none⟩
  match queue schema shape limit with
  | .ok stack => { handle with stack }
  | .error reached => (handle.fail (.maxDepthReached reached)).1

/-- What the end of a run makes of a handle, whose tag still says running if the run failed. -/
def settle (handle : Handle) (run : Run Reading Frame ParseError) : Handle × Answer :=
  let left := { handle with stack := run.stack, value := run.context.value }
  match run.outcome with
  | .paused => ({ left with state := .paused }, .ok ())
  | .done =>
    match run.context.input.skipSpaces with
    | ⟨byte :: _, position, _⟩ => (left, .error (.unexpectedByte byte position))
    | ⟨[], _, _⟩ => ({ left with state := .finished }, .ok ())
  | .failed error => (left, .error error)
  | .stalled => (left, .error (.unexpected .stalled))

def feed (handle : Handle) (chunk : List UInt8) : Handle × Answer :=
  match handle.error with
  | some error => (handle, .error error)
  | none =>
    let called := { handle with state := .running }
    let run := called.stack.run (readDriver called.schema called.shape)
      (turnsFor chunk.length called.stack.depth) ⟨⟨chunk, called.offset, false⟩, called.value⟩
    let (left, answer) := called.settle run
    let fed := { left with offset := left.offset + chunk.length }
    match answer with
    | .ok () => (fed, .ok ())
    | .error error => fed.fail error

def feedAll (handle : Handle) : List (List UInt8) → Handle × List Answer
  | [] => (handle, [])
  | chunk :: rest =>
    let (handle, answer) := handle.feed chunk
    let (handle, answers) := handle.feedAll rest
    (handle, answer :: answers)

def finish (handle : Handle) : Except ParseError Value :=
  match handle.error with
  | some error => .error error
  | none =>
    if handle.stack.isEmpty then .ok handle.value
    else
      let run := handle.stack.run (readDriver handle.schema handle.shape)
        (turnsFor 0 handle.stack.depth) ⟨⟨[], handle.offset, true⟩, handle.value⟩
      match run.outcome with
      | .done => .ok run.context.value
      | .paused => .error .endOfData
      | .failed error => .error error
      | .stalled => .error (.unexpected .stalled)

def depth (handle : Handle) : Nat := handle.stack.depth

def Answer.error? : Answer → Option ParseError
  | .error error => some error
  | .ok () => none

/-- The error of the construction, if that fails, and of the first chunk that is refused
otherwise. -/
def firstError? (schema : Schema) (shape : Shape) (limit : Option Nat)
    (chunks : List (List UInt8)) : Option ParseError :=
  match queue schema shape limit with
  | .error reached => some (.maxDepthReached reached)
  | .ok _ => ((create schema shape limit).feedAll chunks).2.findSome? Answer.error?

end Handle

/-! ## The calls of a handle are those of the parser -/

def ParserStatus.state : ParserStatus → ParserState
  | .created => .created
  | .paused => .paused
  | .finished => .finished
  | .failed _ => .errored

namespace Parser

variable {parser : Parser} {error : ParseError}

def handle (parser : Parser) : Handle where
  schema := parser.schema
  shape := parser.shape
  stack := parser.stack
  value := parser.value
  offset := parser.offset
  state := parser.status.state
  error := parser.error?

def answer (parser : Parser) : Handle.Answer :=
  match parser.error? with
  | some error => .error error
  | none => .ok ()

theorem handle_create (schema : Schema) (shape : Shape) (limit : Option Nat) :
    Handle.create schema shape limit = (create schema shape limit).handle := by
  simp only [Handle.create, Handle.queue, create]
  cases Stack.push { limit } (Frame.start schema shape) <;> rfl

theorem handle_feed (parser : Parser) (chunk : List UInt8) :
    parser.handle.feed chunk = ((parser.feed chunk).handle, (parser.feed chunk).answer) := by
  obtain ⟨schema, shape, stack, value, offset, status⟩ := parser
  cases status with
  | failed error => rfl
  | created | paused | finished =>
    simp only [handle, Handle.feed, error?, Handle.settle, feed]
    generalize stack.run (readDriver schema shape) (turnsFor chunk.length stack.depth)
      ⟨⟨chunk, offset, false⟩, value⟩ = run
    obtain ⟨⟨input, value⟩, stack, outcome⟩ := run
    cases outcome with
    | paused | failed | stalled => rfl
    | done =>
      simp only [settle]
      rcases input.skipSpaces with ⟨_ | ⟨byte, rest⟩, position, closed⟩ <;> rfl

theorem handle_finish (parser : Parser) : parser.handle.finish = parser.finish := by
  obtain ⟨schema, shape, stack, value, offset, status⟩ := parser
  cases status <;> rfl

theorem handle_feedAll (parser : Parser) (chunks : List (List UInt8)) :
    (parser.handle.feedAll chunks).1 = (parser.feedAll chunks).handle := by
  induction chunks generalizing parser with
  | nil => rfl
  | cons chunk rest ih =>
    simp only [Handle.feedAll, handle_feed]
    exact ih (parser.feed chunk)

theorem answers_of_failed (failed : parser.status = .failed error)
    (chunks : List (List UInt8)) :
    (parser.handle.feedAll chunks).2 = chunks.map fun _ => .error error := by
  induction chunks with
  | nil => rfl
  | cons chunk rest ih =>
    simp only [Handle.feedAll, handle_feed, feed_of_failed failed, ih, List.map_cons]
    rw [answer, error?_eq_some_iff.mpr failed]

theorem error?_answer (parser : Parser) : parser.answer.error? = parser.error? := by
  rw [answer]
  cases parser.error? <;> rfl

theorem findSome?_answers (live : parser.Live) (chunks : List (List UInt8)) :
    (parser.handle.feedAll chunks).2.findSome? Handle.Answer.error? =
      (parser.feedAll chunks).error? := by
  induction chunks generalizing parser with
  | nil => exact live.symm
  | cons chunk rest ih =>
    have all : parser.feedAll (chunk :: rest) = (parser.feed chunk).feedAll rest := rfl
    simp only [Handle.feedAll, handle_feed, List.findSome?_cons, error?_answer, all]
    cases fed : (parser.feed chunk).error? with
    | none => exact ih fed
    | some error => rw [feedAll_of_failed (error?_eq_some_iff.mp fed), fed]

theorem firstError?_eq (schema : Schema) (shape : Shape) (limit : Option Nat)
    (chunks : List (List UInt8)) :
    Handle.firstError? schema shape limit chunks =
      ((create schema shape limit).feedAll chunks).error? := by
  by_cases noRoom : limit = some 0
  · subst noRoom
    have failed : (create schema shape (some 0)).status = .failed (.maxDepthReached 0) := rfl
    rw [feedAll_of_failed failed]
    rfl
  · have queued : Handle.queue schema shape limit = .ok ⟨[.start schema shape], 1, limit, #[]⟩ := by
      cases limit with
      | none => rfl
      | some most => exact if_neg fun full => noRoom (congrArg some (Nat.le_zero.mp full))
    have live : (create schema shape limit).Live := by
      rw [create_of_room schema shape noRoom]
      rfl
    rw [Handle.firstError?, queued, handle_create]
    exact findSome?_answers live chunks

/-! ## What a call leads to -/

/-- A parser has frames as long as its value is not complete, and no longer. -/
def Settled (parser : Parser) : Prop :=
  match parser.status with
  | .created | .paused => parser.stack.frames ≠ []
  | .finished | .failed _ => parser.stack.frames = []

end Parser

theorem Runs.paused_frames {driver : Driver Reading Frame ParseError} {reading : Reading}
    {stack : Stack Frame} {run : Run Reading Frame ParseError}
    (runs : Runs driver reading stack run) (paused : run.outcome = .paused) :
    run.stack.frames ≠ [] := by
  induction runs with
  | pause => exact List.cons_ne_nil _ _
  | empty | fail | refuse | reject => cases paused
  | call _ _ _ ih | complete _ _ _ ih => exact ih paused

namespace Parser

variable {parser : Parser} {error : ParseError}

theorem settled_create (schema : Schema) (shape : Shape) (limit : Option Nat) :
    (create schema shape limit).Settled := by
  by_cases noRoom : limit = some 0
  · subst noRoom
    exact rfl
  · rw [create_of_room schema shape noRoom]
    exact List.cons_ne_nil _ _

theorem settled_feed (settled : parser.Settled) (chunk : List UInt8) :
    (parser.feed chunk).Settled := by
  by_cases live : parser.Live
  · obtain ⟨run, runs, ends⟩ := exists_runs parser.schema parser.shape parser.stack
      ⟨chunk, parser.offset, false⟩ parser.value
    have paused := runs.paused_frames
    have done := runs.done_frames
    rw [feed_of_runs parser live runs]
    obtain ⟨⟨input, value⟩, stack, outcome⟩ := run
    cases outcome with
    | paused => exact paused rfl
    | failed error => exact rfl
    | stalled => exact absurd rfl ends
    | done =>
      simp only [settle]
      split
      · exact rfl
      · exact (done rfl).1
  · obtain ⟨error, failed⟩ := failed_of_not_live live
    rw [feed_of_failed failed]
    exact settled

theorem settled_feedAll (settled : parser.Settled) (chunks : List (List UInt8)) :
    (parser.feedAll chunks).Settled := by
  induction chunks generalizing parser with
  | nil => exact settled
  | cons chunk rest ih => exact ih (settled_feed settled chunk)

theorem Settled.finished_iff (settled : parser.Settled) (live : parser.Live) :
    parser.status = .finished ↔ parser.depth = 0 := by
  rw [depth, Stack.depth, List.length_eq_zero_iff]
  cases status : parser.status with
  | failed error => exact absurd live (not_live_of_failed status)
  | finished =>
    rw [Settled, status] at settled
    exact iff_of_true rfl settled
  | created | paused =>
    rw [Settled, status] at settled
    exact iff_of_false (by simp) settled

theorem finish_of_finished (settled : parser.Settled) (finished : parser.status = .finished) :
    parser.finish = .ok parser.value := by
  rw [Settled, finished] at settled
  simp only [finish, finished, Stack.isEmpty, settled, List.isEmpty_nil, if_true]

theorem feed_of_finished (settled : parser.Settled) (finished : parser.status = .finished)
    (chunk : List UInt8) :
    parser.feed chunk = settle parser.schema parser.shape (parser.offset + chunk.length)
      ⟨⟨⟨chunk, parser.offset, false⟩, parser.value⟩,
        ⟨[], 0, parser.stack.limit, parser.stack.scratch⟩, .done⟩ := by
  obtain ⟨schema, shape, ⟨frames, fresh, limit, scratch⟩, value, offset, status⟩ := parser
  cases finished
  cases settled
  exact feed_of_runs ⟨_, _, _, _, _, .finished⟩ rfl .empty

/-- A finished parser takes whitespace and nothing else, and keeps its value. -/
theorem trailing_of_finished (settled : parser.Settled) (finished : parser.status = .finished)
    (chunk : List UInt8) :
    ((parser.feed chunk).Live ↔ ∀ byte ∈ chunk, isSpace byte) ∧
      ((parser.feed chunk).Live → (parser.feed chunk).finish = parser.finish) := by
  have settled' := settled_feed settled chunk
  have blank := @Input.skipSpaces_blank ⟨chunk, parser.offset, false⟩
  rw [finish_of_finished settled finished]
  rw [feed_of_finished settled finished, settle_done _ _ _ rfl] at settled' ⊢
  rcases skipped : Input.skipSpaces ⟨chunk, parser.offset, false⟩ with
    ⟨_ | ⟨byte, rest⟩, position, closed⟩
  all_goals
    rw [skipped] at blank
    simp only [skipped] at settled' ⊢
  · exact ⟨iff_of_true rfl (blank.mp rfl), fun _ => finish_of_finished settled' rfl⟩
  · have notBlank : ¬ ∀ byte ∈ chunk, isSpace byte := by simpa using blank.not
    refine ⟨iff_of_false ?_ notBlank, fun live => absurd live ?_⟩
    all_goals exact not_live_of_failed rfl

theorem settle_finished_iff (schema : Schema) (shape : Shape) (offset : Nat)
    (run : Run Reading Frame ParseError) :
    (settle schema shape offset run).status = .finished ↔
      run.outcome = .done ∧ ∀ byte ∈ run.context.input.bytes, isSpace byte := by
  rw [← Input.skipSpaces_blank]
  obtain ⟨⟨input, value⟩, stack, outcome⟩ := run
  cases outcome with
  | paused | failed | stalled => simp [settle, fail]
  | done =>
    simp only [settle]
    rcases input.skipSpaces with ⟨_ | ⟨byte, rest⟩, position, closed⟩ <;> simp [fail]

/-- A parser that was fed a document has finished if the document is accepted as it stands and
does not end in a number. -/
theorem feed_finished_iff (schema : Schema) (shape : Shape) (limit : Option Nat)
    (document : List UInt8) :
    ((create schema shape limit).feed document).status = .finished ↔
      (∃ value, parse schema shape document limit = .ok value) ∧ ¬ EndsInNumber document := by
  by_cases noRoom : limit = some 0
  · subst noRoom
    have failed : ((create schema shape (some 0)).feed document).status =
        .failed (.maxDepthReached 0) := rfl
    have refused : parse schema shape document (some 0) = .error (.maxDepthReached 0) := rfl
    simp [failed, refused]
  have reads (value : Value) := exists_done_iff_reads schema shape noRoom ⟨document, 0, false⟩ value
    fun rest => ∀ byte ∈ rest.bytes, isSpace byte
  obtain ⟨run, runs, -⟩ := exists_runs schema shape ⟨[.start schema shape], 1, limit, #[]⟩
    ⟨document, 0, false⟩ (schema.initial shape)
  have fed : (create schema shape limit).feed document =
      settle schema shape (0 + document.length) run := by
    rw [create_of_room schema shape noRoom]
    exact feed_of_runs ⟨_, _, _, _, _, .created⟩ rfl runs
  constructor
  · intro finished
    have settled := settled_feed (settled_create schema shape limit) document
    refine ⟨⟨_, finish_of_finished settled finished⟩, ?_⟩
    rw [fed, settle_finished_iff] at finished
    obtain ⟨height, frame, input, scratch, read, -⟩ :=
      (reads _).mp ⟨run, runs, finished.1, rfl, finished.2⟩
    exact read.not_endsInNumber
  · rintro ⟨⟨value, parsed⟩, apart⟩
    have opened := (exists_reads_opened_iff schema shape limit document value parsed).mpr apart
    obtain ⟨run', runs', done, -, spaces⟩ := (reads value).mpr opened
    cases runs'.unique runs
    rw [fed, settle_finished_iff]
    exact ⟨done, spaces⟩

theorem feed_ne_created (parser : Parser) (chunk : List UInt8) :
    (parser.feed chunk).status ≠ .created := by
  by_cases live : parser.Live
  · rw [feed_eq_settle live]
    generalize parser.runOver (parser.chunkInput chunk) (turnsFor chunk.length parser.depth) = run
    obtain ⟨⟨input, value⟩, stack, outcome⟩ := run
    cases outcome with
    | paused | failed | stalled => simp [settle, fail]
    | done =>
      simp only [settle]
      split <;> simp [fail]
  · obtain ⟨error, failed⟩ := failed_of_not_live live
    simp [feed_of_failed failed, failed]

/-! ## Any chunks -/

theorem feedAll_concat (parser : Parser) (chunks : List (List UInt8)) (chunk : List UInt8) :
    parser.feedAll (chunks ++ [chunk]) = (parser.feedAll chunks).feed chunk := by
  simp only [feedAll, List.foldl_append, List.foldl_cons, List.foldl_nil]

theorem feedAll_ne_created (parser : Parser) {chunks : List (List UInt8)} (fed : chunks ≠ []) :
    (parser.feedAll chunks).status ≠ .created := by
  obtain ⟨front, chunk, rfl⟩ := (List.eq_nil_or_concat chunks).resolve_left fed
  rw [List.concat_eq_append, feedAll_concat]
  exact feed_ne_created _ chunk

theorem feedAll_finished_iff (schema : Schema) (shape : Shape) (limit : Option Nat)
    (chunks : List (List UInt8)) :
    ((create schema shape limit).feedAll chunks).status = .finished ↔
      (∃ value, parse schema shape chunks.flatten limit = .ok value) ∧
        ¬ EndsInNumber chunks.flatten := by
  rw [← feed_finished_iff]
  cases chunks with
  | cons chunk rest =>
    rw [(sameState_feedAll_create schema shape limit (List.cons_ne_nil chunk rest)).status]
  | nil =>
    by_cases noRoom : limit = some 0
    · subst noRoom
      rfl
    · rw [List.flatten_nil, feed_nil_create schema shape noRoom, feedAll, List.foldl_nil,
        create_of_room schema shape noRoom]
      simp

end Parser

/-! ## Handles between two calls -/

/-- A handle that has given up the document with an error. -/
structure Handle.GaveUp (handle : Handle) (error : ParseError) : Prop where
  depth_eq : handle.depth = 0
  answers : ∀ chunks, (handle.feedAll chunks).2 = chunks.map fun _ => .error error
  finish : ∀ chunks, (handle.feedAll chunks).1.finish = .error error
  offset : ∀ chunks, (handle.feedAll chunks).1.offset = handle.offset

/-- A handle that was fed chunks without an error. -/
structure Handle.GoesOn (schema : Schema) (shape : Shape) (limit : Option Nat)
    (chunks : List (List UInt8)) (handle : Handle) : Prop where
  offset_eq : handle.offset = chunks.flatten.length
  /-- Even an empty chunk is something fed. -/
  created_iff : handle.state = .created ↔ chunks = []
  finished_iff_empty : handle.state = .finished ↔ handle.depth = 0
  /-- A number at the root is complete only with the whitespace behind it. -/
  finished_iff_accepted : handle.state = .finished ↔
    (∃ value, parse schema shape chunks.flatten limit = .ok value) ∧
      ¬ EndsInNumber chunks.flatten
  paused_otherwise : handle.state ≠ .created → handle.state ≠ .finished →
    handle.state = .paused

/-- A handle that was fed chunks and gave answers to them. -/
structure Handle.Lifecycle (schema : Schema) (shape : Shape) (limit : Option Nat)
    (chunks : List (List UInt8)) (handle : Handle) (answers : List Handle.Answer) : Prop where
  /-- The calls are those of the parser. -/
  follows : handle = ((Parser.create schema shape limit).feedAll chunks).handle
  /-- No call is under way between two calls. -/
  rests : handle.state ≠ .running
  /-- The state tells whether the construction failed or some call. -/
  errored_iff : handle.state = .errored ↔
    (∃ reached, Handle.queue schema shape limit = .error reached) ∨
      ∃ error, .error error ∈ answers
  gaveUp : handle.state = .errored →
    ∃ error, Handle.firstError? schema shape limit chunks = some error ∧ handle.GaveUp error
  goesOn : handle.state ≠ .errored → handle.GoesOn schema shape limit chunks
  /-- Behind the value only whitespace may stand, and it changes nothing. -/
  trailing : handle.state = .finished → ∀ chunk,
    ((handle.feed chunk).2 = .ok () ↔ ∀ byte ∈ chunk, isSpace byte) ∧
      ((handle.feed chunk).2 = .ok () → (handle.feed chunk).1.finish = handle.finish)

namespace Parser

variable {parser : Parser} {error : ParseError}

theorem state_cases (parser : Parser) :
    parser.handle.state ≠ .running ∧
      (parser.handle.state = .errored ↔ ¬ parser.Live) ∧
      (parser.handle.state = .created ↔ parser.status = .created) ∧
      (parser.handle.state = .finished ↔ parser.status = .finished) := by
  obtain ⟨schema, shape, stack, value, offset, status⟩ := parser
  cases status <;> simp [handle, ParserStatus.state, Live, error?]

theorem answer_eq_ok_iff (parser : Parser) : parser.answer = .ok () ↔ parser.Live := by
  rw [answer, Live]
  cases parser.error? <;> simp

theorem gaveUp_of_failed (settled : parser.Settled) (failed : parser.status = .failed error) :
    parser.handle.GaveUp error := by
  have stays (chunks : List (List UInt8)) : (parser.handle.feedAll chunks).1 = parser.handle := by
    rw [handle_feedAll, feedAll_of_failed failed]
  refine ⟨?_, answers_of_failed failed, fun chunks => ?_, fun chunks => by rw [stays]⟩
  · rw [Settled, failed] at settled
    exact List.length_eq_zero_iff.mpr settled
  · rw [stays, handle_finish, finish, failed]

theorem goesOn_of_live (schema : Schema) (shape : Shape) (limit : Option Nat)
    (chunks : List (List UInt8)) (live : ((create schema shape limit).feedAll chunks).Live) :
    ((create schema shape limit).feedAll chunks).handle.GoesOn schema shape limit chunks := by
  have settled := settled_feedAll (settled_create schema shape limit) chunks
  obtain ⟨rests, isErrored, isCreated, isFinished⟩ :=
    state_cases ((create schema shape limit).feedAll chunks)
  have created : create schema shape limit = ⟨schema, shape,
      ⟨[.start schema shape], 1, limit, #[]⟩, schema.initial shape, 0, .created⟩ := by
    rcases create_cases schema shape limit with ⟨error, failed⟩ | created
    · rw [feedAll_of_failed failed] at live
      exact absurd live (not_live_of_failed failed)
    · exact created
  refine ⟨?_, ?_, ?_, ?_, fun notCreated notFinished => ?_⟩
  · have total := feedAll_offset live
    rw [created, Nat.zero_add] at total
    rw [created]
    exact total
  · rw [isCreated]
    constructor
    · exact fun same => Classical.byContradiction fun fed => feedAll_ne_created _ fed same
    · rintro rfl
      rw [created]
      rfl
  · rw [isFinished]
    exact settled.finished_iff live
  · rw [isFinished]
    exact feedAll_finished_iff schema shape limit chunks
  · cases state : ((create schema shape limit).feedAll chunks).handle.state with
    | paused => rfl
    | created => exact absurd state notCreated
    | finished => exact absurd state notFinished
    | running => exact absurd state rests
    | errored => exact absurd live (isErrored.mp state)

end Parser

theorem Handle.firstError?_isSome_iff (schema : Schema) (shape : Shape) (limit : Option Nat)
    (chunks : List (List UInt8)) :
    (∃ error, firstError? schema shape limit chunks = some error) ↔
      (∃ reached, queue schema shape limit = .error reached) ∨
        ∃ error, .error error ∈ ((create schema shape limit).feedAll chunks).2 := by
  have refused (answer : Answer) : answer.error?.isSome ↔ ∃ error, answer = .error error := by
    cases answer with
    | error error => exact iff_of_true rfl ⟨error, rfl⟩
    | ok => simp [Answer.error?]
  rw [firstError?]
  cases queue schema shape limit with
  | error reached => exact iff_of_true ⟨_, rfl⟩ (.inl ⟨reached, rfl⟩)
  | ok stack =>
    rw [← Option.isSome_iff_exists, List.findSome?_isSome_iff]
    constructor
    · rintro ⟨answer, among, failed⟩
      obtain ⟨error, rfl⟩ := (refused answer).mp failed
      exact .inr ⟨error, among⟩
    · rintro (⟨reached, queued⟩ | ⟨error, among⟩)
      · cases queued
      · exact ⟨_, among, rfl⟩

/-- Between two calls a handle is never running.  It is errored if the construction or a call
failed, and then the first error stays the answer to all calls, no frame is left and nothing more
is counted.  Otherwise all bytes count; it is created as long as nothing was fed, finished if no
frame is left, which is if the bytes are accepted as a document and do not end in a number at the
root, and paused in all other cases.  Once it is finished it takes whitespace and nothing else,
and keeps its value. -/
theorem Handle.lifecycle_feedAll (schema : Schema) (shape : Shape) (limit : Option Nat)
    (chunks : List (List UInt8)) :
    let fed := (create schema shape limit).feedAll chunks
    Lifecycle schema shape limit chunks fed.1 fed.2 := by
  intro fed
  let parser := (Parser.create schema shape limit).feedAll chunks
  have follows : fed.1 = parser.handle := by
    simp only [fed, parser, Parser.handle_create, Parser.handle_feedAll]
  have settled : parser.Settled :=
    Parser.settled_feedAll (Parser.settled_create schema shape limit) chunks
  have first : firstError? schema shape limit chunks = parser.error? :=
    Parser.firstError?_eq schema shape limit chunks
  obtain ⟨rests, isErrored, -, isFinished⟩ := parser.state_cases
  rw [follows]
  refine ⟨rfl, rests, ?_, fun errored => ?_, fun live => ?_, fun finished chunk => ?_⟩
  · rw [isErrored, ← firstError?_isSome_iff, first, Parser.Live]
    exact Option.ne_none_iff_exists'
  · obtain ⟨error, failed⟩ := Parser.failed_of_not_live (isErrored.mp errored)
    refine ⟨error, ?_, Parser.gaveUp_of_failed settled failed⟩
    rw [first, Parser.error?_eq_some_iff, failed]
  · rw [Ne, isErrored, not_not] at live
    exact Parser.goesOn_of_live schema shape limit chunks live
  · have trailing := Parser.trailing_of_finished settled (isFinished.mp finished) chunk
    rw [Parser.handle_feed, Parser.answer_eq_ok_iff, Parser.handle_finish, Parser.handle_finish]
    exact trailing

/-- The text `1`, whose end only the space behind it tells; after that nothing else may come. -/
example : [[[0x31]], [[0x31], [0x20]], [[0x31], [0x20], [0x32]]].map
    (fun chunks => ((Handle.create .empty .variant none).feedAll chunks).1.state) =
      [.paused, .finished, .errored] := rfl

end IncrementalJson
