import IncrementalJson.Proofs.Reading.OneByte

/-!
# Feeding one byte

The turns of a run over one byte come to this: the newest frame of a parser goes on
with the literal or the name that it holds, or the byte begins one, or nothing is
held and the scratch region is empty.
-/

set_option autoImplicit false

namespace IncrementalJson

open Ascii

variable {schema : Schema} {shape : Shape}

/-! ## Runs -/

theorem Input.Behind.single {later input : Input} (behind : later.Behind input)
    (single : input.bytes.length ≤ 1) :
    later.bytes.length ≤ 1 ∧ ∀ byte, later.bytes = [byte] → input.bytes = [byte] := by
  obtain ⟨front, split, -⟩ := behind
  rw [split, List.length_append] at single
  refine ⟨by omega, fun byte left => ?_⟩
  rw [left, List.length_singleton] at single
  have none : front = [] := List.length_eq_zero_iff.mp (by omega)
  rw [split, left, none]
  rfl

theorem Rests.turn {calls : Frame → Prop} {pauses : Frame → Scratch → Prop}
    {reading reading' : Reading} {top top' : Frame} {scratch scratch' : Scratch}
    {step : Step Frame} (rests : Rests calls pauses (top.resume schema reading.input scratch))
    (resumed : (readDriver schema shape).resume reading top scratch =
      ⟨reading', top', scratch', .ok step⟩) :
    match step with
    | .pause => pauses top' scratch'
    | .call child => calls child
    | .complete => True := by
  simp only [readDriver] at resumed
  split at resumed
  · rename_i advanced
    cases resumed
    rw [advanced] at rests
    cases step with
    | pause => exact rests
    | call child => exact rests
    | complete => trivial
  · cases resumed

/-- The newest frame and the scratch region stand in a relation; where there is no frame, the
region is empty. -/
def Stack.Stands (stands : Frame → Scratch → Prop) (stack : Stack Frame) : Prop :=
  match stack.frames with
  | [] => stack.scratch = #[]
  | newest :: _ => stands newest stack.scratch

theorem Stack.Stands.mono {stands stands' : Frame → Scratch → Prop} {stack : Stack Frame}
    (holds : stack.Stands stands)
    (weaker : ∀ newest scratch, stands newest scratch → stands' newest scratch) :
    stack.Stands stands' := by
  unfold Stands at holds ⊢
  split at holds
  · exact holds
  · exact weaker _ _ holds

theorem Stack.Stands.cases {stands : Frame → Scratch → Prop} {stack : Stack Frame}
    (holds : stack.Stands stands) : stack.frames = [] ∧ stack.scratch = #[] ∨
      ∃ newest below, stack.frames = newest :: below ∧ stands newest stack.scratch := by
  unfold Stands at holds
  split at holds
  · rename_i none
    exact .inl ⟨none, holds⟩
  · rename_i newest below frames
    exact .inr ⟨newest, below, frames, holds⟩

theorem Stack.stands_of_frames {stands : Frame → Scratch → Prop} {stack : Stack Frame}
    {newest : Frame} {below : List Frame} (frames : stack.frames = newest :: below)
    (holds : stands newest stack.scratch) : stack.Stands stands := by
  simp only [Stands, frames]
  exact holds

theorem Stack.received_handOver {reading reading' : Reading} {done : Frame}
    {stack stack' : Stack Frame}
    (handed : stack.handOver (readDriver schema shape) reading done =
      (reading', stack', .ok ())) : ∀ newest ∈ stack'.frames.head?, newest.Received := by
  obtain ⟨frames, fresh, limit, scratch⟩ := stack
  cases frames with
  | nil =>
    simp only [handOver, readDriver] at handed
    split at handed <;> cases handed
    simp
  | cons parent below =>
    simp only [handOver, readDriver] at handed
    split at handed
    · rename_i accepted
      cases handed
      rintro newest ⟨⟩
      exact Frame.received_of_accept accepted
    · cases handed

/-- Behind a value nothing begins with the byte that comes next. -/
theorem Runs.received {reading : Reading} {stack : Stack Frame}
    {run : Run Reading Frame ParseError}
    (runs : Runs (readDriver schema shape) reading stack run)
    (opened : reading.input.closed = false) (single : reading.input.bytes.length ≤ 1)
    (empty : stack.scratch = #[]) (received : ∀ newest ∈ stack.frames.head?, newest.Received)
    (succeeds : ∀ error, run.outcome ≠ .failed error) :
    run.stack.Stands fun newest scratch => newest.Idle ∧ scratch = #[] := by
  induction runs with
  | empty => exact empty
  | fail | refuse | reject => exact absurd rfl (succeeds _)
  | pause resumed =>
    cases empty
    exact (Frame.rests_received (received _ rfl) single).turn resumed
  | call resumed =>
    cases empty
    exact ((Frame.rests_received (received _ rfl) single).turn resumed).elim
  | complete resumed handed _ ih =>
    cases empty
    obtain ⟨-, opened', -, empty', -⟩ :=
      cutsTurn_of_resume opened (Frame.tidy_empty _) resumed [] false
    obtain ⟨input, scratch⟩ := Stack.handOver_frame handed
    rw [input, scratch] at ih
    exact ih opened' ((locates_turn resumed).single single).1 empty'
      (Stack.received_handOver handed) succeeds

/-- Once the newest frame has completed, nothing begins with what is left of the byte. -/
theorem Runs.behind_complete {reading reading' reading'' : Reading} {top top' : Frame}
    {below : List Frame} {fresh : Nat} {limit : Option Nat} {scratch scratch' : Scratch}
    {stack : Stack Frame} {run : Run Reading Frame ParseError}
    (resumed : (readDriver schema shape).resume reading top scratch =
      ⟨reading', top', scratch', .ok .complete⟩)
    (handed : Stack.handOver (readDriver schema shape) reading' top'
      ⟨below, fresh, limit, scratch'⟩ = (reading'', stack, .ok ()))
    (goesOn : Runs (readDriver schema shape) reading'' stack run)
    (opened : reading.input.closed = false) (single : reading.input.bytes.length ≤ 1)
    (neat : top.Tidy scratch) (succeeds : ∀ error, run.outcome ≠ .failed error) :
    run.stack.Stands fun newest scratch => newest.Idle ∧ scratch = #[] := by
  obtain ⟨-, opened', -, empty, -⟩ := cutsTurn_of_resume opened neat resumed [] false
  obtain ⟨input, kept⟩ := Stack.handOver_frame handed
  apply goesOn.received _ _ (kept.trans empty) (Stack.received_handOver handed) succeeds
  · rw [input, opened']
  · rw [input]
    exact ((locates_turn resumed).single single).1

theorem Runs.held {reading : Reading} {top : Frame} {below : List Frame} {fresh : Nat}
    {limit : Option Nat} {scratch : Scratch} {run : Run Reading Frame ParseError}
    {pauses : Frame → Scratch → Prop}
    (runs : Runs (readDriver schema shape) reading ⟨top :: below, fresh, limit, scratch⟩ run)
    (opened : reading.input.closed = false) (single : reading.input.bytes.length ≤ 1)
    (neat : top.Tidy scratch)
    (rests : Rests (fun _ => False) pauses (top.resume schema reading.input scratch))
    (succeeds : ∀ error, run.outcome ≠ .failed error) :
    run.stack.Stands fun newest scratch' =>
      newest.Idle ∧ scratch' = #[] ∨ pauses newest scratch' := by
  cases runs with
  | fail | refuse | reject => exact absurd rfl (succeeds _)
  | pause resumed => exact .inr (rests.turn resumed)
  | call resumed => exact (rests.turn resumed).elim
  | complete resumed handed goesOn =>
    have ends := Runs.behind_complete resumed handed goesOn opened single neat succeeds
    exact ends.mono fun _ _ => .inl

theorem Runs.left {reading : Reading} {stack : Stack Frame} {run : Run Reading Frame ParseError}
    (runs : Runs (readDriver schema shape) reading stack run)
    (opened : reading.input.closed = false) (single : reading.input.bytes.length ≤ 1)
    {top : Frame} {below : List Frame} (newest : stack.frames = top :: below) (idle : top.Idle)
    (empty : stack.scratch = #[]) (succeeds : ∀ error, run.outcome ≠ .failed error) :
    run.stack.Stands (top.Left reading.input.bytes) := by
  induction runs generalizing top below with
  | empty => cases newest
  | fail | refuse | reject => exact absurd rfl (succeeds _)
  | pause resumed =>
    cases newest
    cases empty
    exact (Frame.rests_resume idle single).turn resumed
  | call resumed pushed _ ih =>
    cases newest
    cases empty
    have aside := (Frame.rests_resume idle single).turn resumed
    obtain ⟨-, opened', -, empty', -⟩ :=
      cutsTurn_of_resume opened (Frame.tidy_empty _) resumed [] false
    obtain ⟨single', same⟩ := (locates_turn resumed).single single
    rw [Stack.push_eq pushed] at ih
    exact (ih opened' single' rfl aside.idle empty' succeeds).mono
      fun later scratch left => left.of_child aside same
  | complete resumed handed goesOn =>
    cases newest
    cases empty
    have ends := Runs.behind_complete resumed handed goesOn opened single (Frame.tidy_empty _)
      succeeds
    refine ends.mono ?_
    rintro later scratch ⟨idle, rfl⟩
    exact .idle idle

/-! ## Parsers -/

/-- A frame that keeps nothing, or collects a literal that has begun, or a name. -/
inductive Frame.Placed (frame : Frame) : Scratch → Prop
  | idle (idle : frame.Idle) : Placed frame #[]
  | collects {held : Holding} {scratch : Scratch} (collects : frame.Collects held) :
      Placed frame scratch

namespace Parser

def holding (parser : Parser) : Holding :=
  match parser.stack.frames with
  | [] => .nothing
  | newest :: _ => newest.holding

inductive Fed (before : Parser) (byte : UInt8) (after : Parser) : Prop
  | idle (held : after.holding = .nothing) (empty : after.stack.scratch = #[])
  /-- The byte begins a number. -/
  | begins {type : NumberType} {lexer : NumberLexer} (idle : before.holding = .nothing)
      (begun : NumberLexer.next? {} byte = some lexer) (held : after.holding = .literal type lexer)
      (scratch : after.stack.scratch = #[byte])
  /-- The byte belongs to the number that is held. -/
  | lengthens {type : NumberType} {lexer lexer' : NumberLexer}
      (held : before.holding = .literal type lexer) (next : lexer.next? byte = some lexer')
      (held' : after.holding = .literal type lexer')
      (scratch : after.stack.scratch = before.stack.scratch.push byte)
  /-- The byte is the quote in front of a name. -/
  | opens {table : Table} {extras : Entries Value} (awaits : before.AwaitsName table extras)
      (isQuote : byte = quote)
      (held : after.holding = .name table {}) (empty : after.stack.scratch = #[])
  /-- The byte belongs to the name that is held. -/
  | spells {table : Table} {lexer lexer' : StringLexer} {added : List UInt8}
      (held : before.holding = .name table lexer)
      (takes : lexer.Takes byte before.offset lexer' added)
      (held' : after.holding = .name table lexer')
      (scratch : after.stack.scratch = before.stack.scratch ++ added)

variable {parser : Parser} {byte : UInt8}

theorem holding_of_frames {newest : Frame} {below : List Frame}
    (frames : parser.stack.frames = newest :: below) : parser.holding = newest.holding := by
  rw [holding, frames]

theorem stack_of_settle {schema : Schema} {shape : Shape} {offset : Nat}
    {run : Run Reading Frame ParseError} (live : (settle schema shape offset run).Live) :
    (settle schema shape offset run).stack = run.stack ∧
      ∀ error, run.outcome ≠ .failed error := by
  obtain ⟨⟨input, value⟩, stack, outcome⟩ := run
  cases outcome with
  | paused => exact ⟨rfl, by simp⟩
  | failed | stalled => exact absurd live (not_live_of_failed rfl)
  | done =>
    simp only [settle] at live ⊢
    split at live
    · exact absurd live (not_live_of_failed rfl)
    · exact ⟨rfl, by simp⟩

theorem fed_of_no_frame {later : Parser} (none : later.stack.frames = [])
    (empty : later.stack.scratch = #[]) :
    later.stack.Stands Frame.Placed ∧ parser.Fed byte later := by
  refine ⟨?_, .idle ?_ empty⟩
  · rw [Stack.Stands, none]
    exact empty
  · rw [holding, none]

theorem fed_of_idle {later : Parser} {newest : Frame} {below : List Frame}
    (frames : later.stack.frames = newest :: below) (idle : newest.Idle)
    (empty : later.stack.scratch = #[]) :
    later.stack.Stands Frame.Placed ∧ parser.Fed byte later := by
  refine ⟨Stack.stands_of_frames frames ?_, .idle ?_ empty⟩
  · rw [empty]
    exact .idle idle
  · rw [holding_of_frames frames, Frame.holding_of_idle idle]

theorem awaitsName_of_frames {top : Frame} {below : List Frame} {fresh : Nat}
    {limit : Option Nat} {table : Table} (live : parser.Live)
    (stack : parser.stack = ⟨top :: below, fresh, limit, #[]⟩) (before : top.AtName table) :
    ∃ extras, parser.AwaitsName table extras := by
  obtain ⟨body, works, first, target, members, presence, extras, rfl⟩ := before
  exact ⟨extras, live, top, below, fresh, limit, first, target, members, presence, stack, works⟩

theorem fed_of_left {later : Parser} {top : Frame} {below : List Frame} {fresh : Nat}
    {limit : Option Nat} (live : parser.Live)
    (stack : parser.stack = ⟨top :: below, fresh, limit, #[]⟩) (idle : top.Idle)
    (left : later.stack.Stands (top.Left [byte])) :
    later.stack.Stands Frame.Placed ∧ parser.Fed byte later := by
  have before : parser.holding = .nothing :=
    (holding_of_frames (by rw [stack])).trans (Frame.holding_of_idle idle)
  rcases left.cases with ⟨none, empty⟩ | ⟨newest, below', frames, left⟩
  · exact fed_of_no_frame none empty
  · generalize scratch' : later.stack.scratch = region at left
    cases left with
    | idle idle => exact fed_of_idle frames idle scratch'
    | literal first begun collects =>
      cases first
      refine ⟨Stack.stands_of_frames frames (.collects collects), ?_⟩
      exact .begins before begun ((holding_of_frames frames).trans collects.holding) scratch'
    | name first atName collects =>
      cases first
      refine ⟨Stack.stands_of_frames frames (.collects collects), ?_⟩
      obtain ⟨extras, awaits⟩ := awaitsName_of_frames live stack atName
      exact .opens awaits rfl ((holding_of_frames frames).trans collects.holding) scratch'

theorem fed_of_literal {later : Parser} {type : NumberType} {lexer : NumberLexer}
    (held : parser.holding = .literal type lexer)
    (left : later.stack.Stands fun newest scratch => newest.Idle ∧ scratch = #[] ∨
      ∃ lexer', lexer.next? byte = some lexer' ∧ newest.Collects (.literal type lexer') ∧
        scratch = parser.stack.scratch.push byte) :
    later.stack.Stands Frame.Placed ∧ parser.Fed byte later := by
  rcases left.cases with ⟨none, empty⟩ | ⟨newest, below', frames, left⟩
  · exact fed_of_no_frame none empty
  · rcases left with ⟨idle, empty⟩ | ⟨lexer', next, collects, scratch⟩
    · exact fed_of_idle frames idle empty
    · refine ⟨Stack.stands_of_frames frames (.collects collects), ?_⟩
      exact .lengthens held next ((holding_of_frames frames).trans collects.holding) scratch

theorem fed_of_name {later : Parser} {table : Table} {lexer : StringLexer}
    (held : parser.holding = .name table lexer)
    (left : later.stack.Stands fun newest scratch => newest.Idle ∧ scratch = #[] ∨
      newest.Idle ∧ scratch = #[] ∨
      ∃ lexer' added, lexer.Takes byte parser.offset lexer' added ∧
        newest.Collects (.name table lexer') ∧ scratch = parser.stack.scratch ++ added) :
    later.stack.Stands Frame.Placed ∧ parser.Fed byte later := by
  rcases left.cases with ⟨none, empty⟩ | ⟨newest, below', frames, left⟩
  · exact fed_of_no_frame none empty
  · rcases left with ⟨idle, empty⟩ | ⟨idle, empty⟩ | ⟨lexer', added, takes, collects, scratch⟩
    · exact fed_of_idle frames idle empty
    · exact fed_of_idle frames idle empty
    · refine ⟨Stack.stands_of_frames frames (.collects collects), ?_⟩
      exact .spells held takes ((holding_of_frames frames).trans collects.holding) scratch

/-- A byte that is not refused goes on with what is held, or begins it, or leaves nothing held. -/
theorem fed_feed (live : parser.Live) (placed : parser.stack.Stands Frame.Placed)
    (goesOn : (parser.feed [byte]).Live) :
    (parser.feed [byte]).stack.Stands Frame.Placed ∧ parser.Fed byte (parser.feed [byte]) := by
  obtain ⟨run, runs, -⟩ := exists_runs parser.schema parser.shape parser.stack
    ⟨[byte], parser.offset, false⟩ parser.value
  obtain ⟨same, succeeds⟩ : (parser.feed [byte]).stack = run.stack ∧
      ∀ error, run.outcome ≠ .failed error := by
    rw [feed_of_runs parser live runs] at goesOn ⊢
    exact stack_of_settle goesOn
  generalize parser.feed [byte] = later at same
  rcases stack : parser.stack with ⟨frames, fresh, limit, scratch⟩
  rw [stack] at runs placed
  cases frames with
  | nil =>
    cases runs
    exact fed_of_no_frame (by rw [same]) (by rw [same]; exact placed)
  | cons top below =>
    have before : parser.holding = top.holding := holding_of_frames (by rw [stack])
    have scratchEq : parser.stack.scratch = scratch := by rw [stack]
    have placed : top.Placed scratch := placed
    cases placed with
    | idle idle =>
      have left := runs.left rfl (by simp) rfl idle rfl succeeds
      exact fed_of_left live stack idle (same ▸ left)
    | @collects held _ collects =>
      have neat := Frame.tidy_of_collects collects scratch
      have held' := before.trans collects.holding
      cases held with
      | nothing => obtain ⟨_, _, ⟨⟩⟩ := collects
      | literal type lexer =>
        have left := runs.held rfl (by simp) neat (Frame.rests_literal collects rfl rfl scratch)
          succeeds
        rw [← same, ← scratchEq] at left
        exact fed_of_literal held' left
      | name table lexer =>
        have left := runs.held rfl (by simp) neat (Frame.rests_name collects rfl rfl scratch)
          succeeds
        rw [← same, ← scratchEq] at left
        exact fed_of_name held' left

end Parser

end IncrementalJson
