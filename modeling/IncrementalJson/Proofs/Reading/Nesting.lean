import IncrementalJson.Proofs.Reading.Chunking
import IncrementalJson.Proofs.Stack.Depth

/-!
# Reading as nested calls

`Reads` is what a frame does when nothing interrupts it: it takes turns, and each
call is answered by the frame that was called.  A run of the stack over a whole
document comes to an end exactly if the first frame reads its value that way.
-/

set_option autoImplicit false

namespace IncrementalJson

/-- A frame reads its value from an input that does not run out, with so many frames in all at
the highest point. -/
inductive Reads (schema : Schema) :
    Nat → Frame → Input → Scratch → Frame → Input → Scratch → Prop where
  | complete {frame frame' : Frame} {input input' : Input} {scratch scratch' : Scratch}
      (resumed : frame.resume schema input scratch = .ok ⟨frame', input', scratch', .complete⟩) :
      Reads schema 1 frame input scratch frame' input' scratch'
  | call {above further : Nat} {frame parent parent' child child' frame' : Frame}
      {input before behind input' : Input} {scratch scratch₁ scratch₂ scratch' : Scratch}
      (resumed : frame.resume schema input scratch = .ok ⟨parent, before, scratch₁, .call child⟩)
      (inner : Reads schema above child before scratch₁ child' behind scratch₂)
      (accepted : parent.accept child' = .ok parent')
      (goesOn : Reads schema further parent' behind scratch₂ frame' input' scratch') :
      Reads schema (max (above + 1) further) frame input scratch frame' input' scratch'

def Unwinds (schema : Schema) (shape : Shape) (value : Value) (last : Input) :
    List Frame → Frame → Input → Scratch → Prop
  | [], done, input, _ => done.deliver shape = .ok value ∧ input = last
  | parent :: below, done, input, scratch =>
    ∃ height parent' parent'' input' scratch', parent.accept done = .ok parent' ∧
      Reads schema height parent' input scratch parent'' input' scratch' ∧
      Unwinds schema shape value last below parent'' input' scratch'

def Finishes (schema : Schema) (shape : Shape) (run : Run Reading Frame ParseError)
    (reading : Reading) : Stack Frame → Prop
  | ⟨[], _, _, _⟩ => run.context = reading
  | ⟨top :: rest, _, _, scratch⟩ => ∃ height top' input' scratch',
    Reads schema height top reading.input scratch top' input' scratch' ∧
      Unwinds schema shape run.context.value run.context.input rest top' input' scratch'

variable {schema : Schema} {shape : Shape}

theorem resume_of_driver {reading reading' : Reading} {top top' : Frame}
    {scratch scratch' : Scratch} {step : Step Frame}
    (resumed : (readDriver schema shape).resume reading top scratch =
      ⟨reading', top', scratch', .ok step⟩) :
    top.resume schema reading.input scratch = .ok ⟨top', reading'.input, scratch', step⟩ ∧
      reading'.value = reading.value := by
  simp only [readDriver] at resumed
  split at resumed
  · rename_i advanced
    cases resumed
    exact ⟨advanced, rfl⟩
  · cases resumed

theorem finishes_handOver {reading reading' : Reading} {done : Frame} {stack : Stack Frame}
    {rest : List Frame} {fresh : Nat} {limit : Option Nat} {scratch : Scratch}
    {run : Run Reading Frame ParseError}
    (handed : Stack.handOver (readDriver schema shape) reading done ⟨rest, fresh, limit, scratch⟩ =
      (reading', stack, .ok ()))
    (finishes : Finishes schema shape run reading' stack) :
    Unwinds schema shape run.context.value run.context.input rest done reading.input scratch := by
  cases rest with
  | nil =>
    simp only [Stack.handOver, readDriver] at handed
    split at handed
    · rename_i value delivered
      cases handed
      have ends : run.context = ⟨reading.input, value⟩ := finishes
      rw [ends]
      exact ⟨delivered, rfl⟩
    · cases handed
  | cons parent below =>
    simp only [Stack.handOver, readDriver] at handed
    split at handed
    · rename_i parent' accepted
      cases handed
      obtain ⟨height, top', input', scratch', reads, unwinds⟩ := finishes
      exact ⟨height, _, _, _, _, accepted, reads, unwinds⟩
    · cases handed

theorem Runs.finishes {reading : Reading} {stack : Stack Frame}
    {run : Run Reading Frame ParseError}
    (runs : Runs (readDriver schema shape) reading stack run) (done : run.outcome = .done) :
    Finishes schema shape run reading stack := by
  induction runs with
  | empty => rfl
  | fail | pause | refuse | reject => cases done
  | call resumed pushed _ ih =>
    obtain ⟨resumed', -⟩ := resume_of_driver resumed
    cases Stack.push_eq pushed
    obtain ⟨above, child', behind, scratch₂, reads, further, parent', frame', input', scratch',
      accepted, goesOn, unwinds⟩ := ih done
    exact ⟨_, frame', input', scratch', .call resumed' reads accepted goesOn, unwinds⟩
  | complete resumed handed _ ih =>
    obtain ⟨resumed', -⟩ := resume_of_driver resumed
    exact ⟨1, _, _, _, .complete resumed', finishes_handOver handed (ih done)⟩

theorem driver_of_resume {top top' : Frame} {input input' : Input} {scratch scratch' : Scratch}
    {step : Step Frame}
    (resumed : top.resume schema input scratch = .ok ⟨top', input', scratch', step⟩)
    (value : Value) :
    (readDriver schema shape).resume ⟨input, value⟩ top scratch =
      ⟨⟨input', value⟩, top', scratch', .ok step⟩ := by
  simp only [readDriver, resumed]

theorem Reads.height_pos {height : Nat} {frame frame' : Frame} {input input' : Input}
    {scratch scratch' : Scratch}
    (reads : Reads schema height frame input scratch frame' input' scratch') : 0 < height := by
  cases reads with
  | complete => exact Nat.one_pos
  | call => exact Nat.lt_of_lt_of_le (Nat.succ_pos _) (Nat.le_max_left ..)

/-- A frame that reads its value hands it over in a run, if the limit leaves room for it. -/
theorem Reads.runs {height : Nat} {top top' : Frame} {input input' : Input}
    {scratch scratch' : Scratch}
    (reads : Reads schema height top input scratch top' input' scratch') {value : Value}
    {rest : List Frame} {fresh : Nat} {limit : Option Nat} {reading : Reading}
    {stack : Stack Frame} {run : Run Reading Frame ParseError}
    (room : ∀ most, limit = some most → rest.length + height ≤ most)
    (handed : Stack.handOver (readDriver schema shape) ⟨input', value⟩ top'
      ⟨rest, fresh - 1, limit, scratch'⟩ = (reading, stack, .ok ()))
    (goesOn : Runs (readDriver schema shape) reading stack run) :
    Runs (readDriver schema shape) ⟨input, value⟩ ⟨top :: rest, fresh, limit, scratch⟩ run := by
  induction reads generalizing rest fresh reading stack with
  | complete resumed => exact .complete (driver_of_resume resumed value) handed goesOn
  | @call above further frame parent _ child _ _ _ _ _ _ _ scratch₁ _ _ resumed inner accepted
      goesOn' ihInner ihRest =>
    have pushed : Stack.push ⟨parent :: rest, fresh, limit, scratch₁⟩ child =
        .ok ⟨child :: parent :: rest, fresh + 1, limit, scratch₁⟩ :=
      Stack.push_under_of_room ⟨parent :: rest, fresh, none, scratch₁⟩ child
        fun most isMost => by
          have fits := room most isMost
          have some := inner.height_pos
          simp only [Stack.depth, List.length_cons]
          omega
    refine .call (driver_of_resume resumed value) pushed (ihInner (fun most isMost => ?_) ?_
      (ihRest (fun most isMost => ?_) handed goesOn))
    · have fits := room most isMost
      rw [List.length_cons]
      omega
    · simp only [Stack.handOver, readDriver, accepted, Nat.add_sub_cancel]
    · have fits := room most isMost
      omega

theorem Reads.exceeds {height : Nat} {top top' : Frame} {input input' : Input}
    {scratch scratch' : Scratch}
    (reads : Reads schema height top input scratch top' input' scratch') (value : Value)
    (rest : List Frame) (fresh : Nat) {most : Nat} (small : rest.length < most)
    (exceeds : most < rest.length + height) :
    ∃ run, Runs (readDriver schema shape) ⟨input, value⟩
        ⟨top :: rest, fresh, some most, scratch⟩ run ∧
      run.outcome = .failed (.maxDepthReached most) := by
  induction reads generalizing rest fresh with
  | complete => omega
  | @call above further frame parent parent' child _ _ _ _ _ _ _ scratch₁ scratch₂ _ resumed inner
      accepted goesOn ihInner ihRest =>
    have called := @driver_of_resume schema shape _ _ _ _ _ _ _ resumed value
    rcases Nat.lt_or_ge (rest.length + 1) most with room | full
    · have pushed : Stack.push ⟨parent :: rest, fresh, some most, scratch₁⟩ child =
          .ok ⟨child :: parent :: rest, fresh + 1, some most, scratch₁⟩ :=
        if_neg (Nat.not_le.mpr room)
      rcases Nat.lt_or_ge most (rest.length + 1 + above) with high | fits
      · obtain ⟨run, runs, failed⟩ := ihInner (parent :: rest) (fresh + 1) room high
        exact ⟨run, .call called pushed runs, failed⟩
      · obtain ⟨run, runs, failed⟩ := ihRest rest fresh small (by omega)
        refine ⟨run, .call called pushed (inner.runs ?_ ?_ runs), failed⟩
        · rintro _ ⟨⟩
          exact fits
        · simp only [Stack.handOver, readDriver, accepted, Nat.add_sub_cancel]
    · exact ⟨_, .refuse called (if_pos full), rfl⟩

/-- Nothing is left of an input that had run out. -/
theorem FrameBody.resume_exhausted {body : FrameBody} {offset : Nat} {scratch : Scratch}
    {advance : Advance FrameBody}
    (resumed : body.resume schema ⟨[], offset, true⟩ scratch = .ok advance) :
    advance.input = ⟨[], offset, true⟩ := by
  have literal (rest : List UInt8) {build : List UInt8 × Input → Advance FrameBody}
      (matched : (Input.matchLiteral ⟨[], offset, true⟩ rest).map build = .ok advance)
      (keeps : ∀ found, (build found).input = found.2) : advance.input = ⟨[], offset, true⟩ := by
    cases rest with
    | nil =>
      cases matched
      exact keeps _
    | cons byte more => cases matched
  cases body with
  | null rest =>
    cases rest with
    | none => cases resumed
    | some rest => exact literal rest resumed (fun _ => rfl)
  | bool value rest =>
    cases rest with
    | none => cases resumed
    | some rest => exact literal rest resumed (fun _ => rfl)
  | string lexer octets =>
    cases lexer with
    | none => cases resumed
    | some lexer => cases resumed
  | number type lexer spilled result =>
    simp only [resume, startNumber] at resumed
    split at resumed
    · cases resumed
    · have ends (text : Array UInt8) (scratch : Scratch)
          (ended : endNumber type lexer text ⟨[], offset, true⟩ scratch = .ok advance) :
          advance.input = ⟨[], offset, true⟩ := by
        obtain ⟨value, -, rfl⟩ := map_eq_ok_iff.mp ended
        rfl
      simp only [resumeNumber, NumberLexer.scan, NumberLexer.scanBytes] at resumed
      split at resumed
      · exact ends _ _ resumed
      · exact ends _ _ resumed
  | array item phase items => cases phase <;> cases resumed
  | object table phase target members presence extras => cases phase <;> cases resumed
  | variant held =>
    cases held with
    | none => cases resumed
    | some value =>
      cases resumed
      rfl

theorem Frame.resume_exhausted {frame : Frame} {offset : Nat} {scratch : Scratch}
    {advance : Advance Frame}
    (resumed : frame.resume schema ⟨[], offset, true⟩ scratch = .ok advance) :
    advance.input = ⟨[], offset, true⟩ := by
  induction frame using Frame.induction schema generalizing advance with
  | core shape body =>
    obtain ⟨advance, inner, rfl⟩ := map_eq_ok_iff.mp resumed
    exact FrameBody.resume_exhausted inner
  | box item inner ih | present item inner ih =>
    obtain ⟨advance, turn, rfl⟩ := map_eq_ok_iff.mp resumed
    have left := ih turn
    exact left
  | undecided => cases resumed
  | absent item rest =>
    cases rest with
    | nil =>
      cases resumed
      rfl
    | cons byte more => cases resumed

theorem Runs.exhausted {reading : Reading} {stack : Stack Frame}
    {run : Run Reading Frame ParseError} {offset : Nat}
    (runs : Runs (readDriver schema shape) reading stack run) (done : run.outcome = .done)
    (nothing : reading.input = ⟨[], offset, true⟩) : run.context.input = ⟨[], offset, true⟩ := by
  induction runs with
  | empty => exact nothing
  | fail | pause | refuse | reject => cases done
  | call resumed _ _ ih =>
    obtain ⟨resumed', -⟩ := resume_of_driver resumed
    rw [nothing] at resumed'
    exact ih done (Frame.resume_exhausted resumed')
  | complete resumed handed _ ih =>
    obtain ⟨resumed', -⟩ := resume_of_driver resumed
    rw [nothing] at resumed'
    exact ih done ((Stack.handOver_frame handed).1.trans (Frame.resume_exhausted resumed'))

theorem Runs.unique {reading : Reading} {stack : Stack Frame}
    {run run' : Run Reading Frame ParseError}
    (runs : Runs (readDriver schema shape) reading stack run)
    (runs' : Runs (readDriver schema shape) reading stack run') : run = run' := by
  have enough := stack.run_readDriver_not_stalled schema shape reading.input reading.value
  exact (Stack.run_eq_of_runs runs _ enough).symm.trans (Stack.run_eq_of_runs runs' _ enough)

theorem Input.skipSpaces_blank {input : Input} :
    input.skipSpaces.bytes = [] ↔ ∀ byte ∈ input.bytes, Ascii.isSpace byte := by
  obtain ⟨bytes, offset, closed⟩ := input
  have skipped : (Input.mk bytes offset closed).skipSpaces = behindSpaces closed offset bytes := rfl
  rw [skipped]
  induction bytes generalizing offset with
  | nil => simp [behindSpaces]
  | cons byte rest ih =>
    by_cases space : Ascii.isSpace byte
    · simp [behindSpaces, space, ih (offset + 1) rfl]
    · simp [behindSpaces, space]

def Input.onlySpaces (input : Input) : Except ParseError Unit :=
  match input.skipSpaces with
  | ⟨byte :: _, position, _⟩ => .error (.unexpectedByte byte position)
  | ⟨[], _, _⟩ => .ok ()

theorem Input.onlySpaces_eq_ok_iff (input : Input) :
    input.onlySpaces = .ok () ↔ ∀ byte ∈ input.bytes, Ascii.isSpace byte := by
  rw [← skipSpaces_blank, onlySpaces]
  rcases input.skipSpaces with ⟨_ | ⟨byte, rest⟩, position, closed⟩ <;> simp

/-- What a run over a whole document answers, closed. -/
def Run.answer : Run Reading Frame ParseError → Except ParseError Value
  | ⟨⟨input, value⟩, _, .done⟩ => input.onlySpaces.map fun _ => value
  | ⟨_, _, .paused⟩ => .error .endOfData
  | ⟨_, _, .failed error⟩ => .error error
  | ⟨_, _, .stalled⟩ => .error (.unexpected .stalled)

theorem Run.answer_eq_ok_iff (run : Run Reading Frame ParseError) (value : Value) :
    run.answer = .ok value ↔ run.outcome = .done ∧ run.context.value = value ∧
      ∀ byte ∈ run.context.input.bytes, Ascii.isSpace byte := by
  obtain ⟨⟨input, held⟩, stack, outcome⟩ := run
  cases outcome with
  | done =>
    rw [← Input.onlySpaces_eq_ok_iff, answer]
    rcases input.onlySpaces with error | _ <;> simp [Except.map]
  | paused | failed | stalled => simp [answer]

theorem Alike.answer {run run' : Run Reading Frame ParseError} (alike : Alike run run') :
    run.answer = run'.answer := by
  unfold Alike at alike
  split at alike
  · rename_i failed
    obtain ⟨⟨input, value⟩, stack, outcome⟩ := run
    obtain ⟨⟨input', value'⟩, stack', outcome'⟩ := run'
    cases failed
    cases alike.1
    rfl
  · rw [alike]

theorem Parser.finish_of_runs (parser : Parser) (live : parser.Live)
    {run : Run Reading Frame ParseError}
    (runs : Runs (readDriver parser.schema parser.shape)
      ⟨⟨[], parser.offset, true⟩, parser.value⟩ parser.stack run) :
    parser.finish = run.answer := by
  obtain ⟨schema, shape, ⟨frames, fresh, limit, scratch⟩, held, offset, status⟩ := parser
  have ends : Stack.run (readDriver schema shape)
      (turnsFor 0 (Stack.mk frames fresh limit scratch).depth) ⟨⟨[], offset, true⟩, held⟩
      ⟨frames, fresh, limit, scratch⟩ = run :=
    Stack.run_eq_of_runs runs _ (Stack.run_readDriver_not_stalled schema shape _
      ⟨[], offset, true⟩ held)
  rw [finish.eq_def]
  cases status with
  | failed error => exact absurd live (not_live_of_failed rfl)
  | created | paused | finished =>
    cases frames with
    | nil =>
      cases runs
      rfl
    | cons top rest =>
      simp only [Stack.isEmpty, List.isEmpty_cons, Bool.false_eq_true, if_false]
      simp only [depth, ends]
      rcases outcome : run.outcome with _ | _ | error | _
      · obtain ⟨⟨input, value⟩, stack, _⟩ := run
        cases outcome
        rfl
      · have answered : run.answer = .ok run.context.value := by
          rw [run.answer_eq_ok_iff]
          refine ⟨outcome, rfl, ?_⟩
          rw [runs.exhausted outcome rfl]
          exact List.forall_mem_nil _
        rw [answered]
      · obtain ⟨⟨input, value⟩, stack, _⟩ := run
        cases outcome
        rfl
      · obtain ⟨⟨input, value⟩, stack, _⟩ := run
        cases outcome
        rfl

/-- What is fed last is answered, with what was read before, as a single run over it is, closed. -/
theorem Parser.finish_feed {parser : Parser} (live : parser.Live) (neat : parser.stack.Tidy)
    {chunk : List UInt8} {run : Run Reading Frame ParseError}
    (runs : Runs (readDriver parser.schema parser.shape)
      ⟨⟨chunk, parser.offset, true⟩, parser.value⟩ parser.stack run) :
    (parser.feed chunk).finish = run.answer := by
  obtain ⟨run', runs', ends⟩ := exists_runs parser.schema parser.shape parser.stack
    ⟨chunk, parser.offset, false⟩ parser.value
  have cuts := runs'.cut rfl neat [] true
  have closed : Reading.extend ⟨⟨chunk, parser.offset, false⟩, parser.value⟩ [] true =
      ⟨⟨chunk, parser.offset, true⟩, parser.value⟩ := by
    simp only [Reading.extend, Input.extend, List.append_nil]
  rw [feed_of_runs parser live runs']
  unfold CutsRun at cuts
  rw [closed] at cuts
  split at cuts
  · rename_i error failed
    obtain ⟨run'', runs'', alike⟩ := cuts
    obtain ⟨status, -⟩ :=
      settle_failed parser.schema parser.shape (parser.offset + chunk.length) failed
    rw [runs.unique runs'', ← alike.answer, finish, status]
    obtain ⟨⟨input, value⟩, stack, outcome⟩ := run'
    cases failed
    rfl
  · rename_i done
    obtain ⟨-, -, runs''⟩ := cuts
    obtain ⟨frames, -⟩ := runs'.done_frames done
    rw [runs.unique runs'', settle_done parser.schema parser.shape _ done]
    obtain ⟨⟨⟨bytes, offset, closed'⟩, value⟩, ⟨_, fresh, limit, scratch⟩, outcome⟩ := run'
    cases done
    cases frames
    have skipped := Input.behindSpaces_append closed' true offset bytes []
    simp only [Run.answer, Input.onlySpaces, Reading.extend, Input.extend, Input.skipSpaces,
      skipped]
    rcases Input.behindSpaces closed' offset bytes with ⟨_ | ⟨byte, rest⟩, position, _⟩
    · rfl
    · rfl
  · rename_i paused
    obtain ⟨-, -, goesOn⟩ := cuts
    obtain ⟨run'', runs'', -⟩ := exists_runs parser.schema parser.shape run'.stack
      ⟨[], parser.offset + chunk.length, true⟩ run'.context.value
    obtain ⟨run₃, runs₃, alike⟩ := goesOn run'' runs''
    rw [settle_paused _ _ _ paused, finish_of_runs ⟨_, _, _, _, _, .paused⟩ rfl runs'',
      runs.unique runs₃, alike.answer]
  · contradiction

theorem parse_eq_answer (schema : Schema) (shape : Shape) {limit : Option Nat}
    (room : limit ≠ some 0) {document : List UInt8} {run : Run Reading Frame ParseError}
    (runs : Runs (readDriver schema shape) ⟨⟨document, 0, true⟩, schema.initial shape⟩
      ⟨[.start schema shape], 1, limit, #[]⟩ run) :
    parse schema shape document limit = run.answer := by
  rw [parse, Parser.create_of_room schema shape room]
  have neat : Stack.Tidy ⟨[.start schema shape], 1, limit, #[]⟩ :=
    (Frame.start schema shape).tidy_empty
  exact Parser.finish_feed (rfl : Parser.Live ⟨_, _, _, _, _, .created⟩) neat runs

theorem parse_eq_ok_iff_runs (schema : Schema) (shape : Shape) {limit : Option Nat}
    (room : limit ≠ some 0) (document : List UInt8) (value : Value) :
    parse schema shape document limit = .ok value ↔
      ∃ run, Runs (readDriver schema shape) ⟨⟨document, 0, true⟩, schema.initial shape⟩
          ⟨[.start schema shape], 1, limit, #[]⟩ run ∧
        run.outcome = .done ∧ run.context.value = value ∧
          ∀ byte ∈ run.context.input.bytes, Ascii.isSpace byte := by
  obtain ⟨run, runs, -⟩ := Parser.exists_runs schema shape
    ⟨[.start schema shape], 1, limit, #[]⟩ ⟨document, 0, true⟩ (schema.initial shape)
  rw [parse_eq_answer schema shape room runs, run.answer_eq_ok_iff]
  constructor
  · intro read
    exact ⟨run, runs, read⟩
  · rintro ⟨run', runs', read⟩
    rw [runs.unique runs']
    exact read

theorem exists_done_iff_reads (schema : Schema) (shape : Shape) {limit : Option Nat}
    (room : limit ≠ some 0) (input : Input) (value : Value) (rest : Input → Prop) :
    (∃ run, Runs (readDriver schema shape) ⟨input, schema.initial shape⟩
          ⟨[.start schema shape], 1, limit, #[]⟩ run ∧
        run.outcome = .done ∧ run.context.value = value ∧ rest run.context.input) ↔
      ∃ height frame input' scratch,
        Reads schema height (.start schema shape) input #[] frame input' scratch ∧
          frame.deliver shape = .ok value ∧ rest input' ∧
          ∀ most, limit = some most → height ≤ most := by
  constructor
  · rintro ⟨run, runs, done, rfl, left⟩
    obtain ⟨height, frame, input', scratch, reads, delivered, rfl⟩ := runs.finishes done
    refine ⟨height, frame, _, scratch, reads, delivered, left, ?_⟩
    rintro most rfl
    refine Nat.le_of_not_lt fun high => ?_
    have room : 0 < most := Nat.pos_of_ne_zero fun zero => room (congrArg some zero)
    obtain ⟨run', runs', failed⟩ :=
      reads.exceeds (schema.initial shape) [] 1 room (by simpa using high)
    rw [runs'.unique runs, done] at failed
    cases failed
  · rintro ⟨height, frame, input', scratch, reads, delivered, left, fits⟩
    have handed : Stack.handOver (readDriver schema shape) ⟨input', schema.initial shape⟩ frame
        ⟨[], 0, limit, scratch⟩ = (⟨input', value⟩, ⟨[], 0, limit, scratch⟩, .ok ()) := by
      simp only [Stack.handOver, readDriver, delivered]
    exact ⟨_, reads.runs (by simpa using fits) handed .empty, rfl, rfl, left⟩

/-- A document is read if the frame of its shape reads its value from it and leaves nothing but
whitespace, with no more frames than the limit. -/
theorem parse_eq_ok_iff_reads (schema : Schema) (shape : Shape) (document : List UInt8)
    (limit : Option Nat) (value : Value) :
    parse schema shape document limit = .ok value ↔
      ∃ height frame input scratch,
        Reads schema height (.start schema shape) ⟨document, 0, true⟩ #[] frame input scratch ∧
          frame.deliver shape = .ok value ∧ (∀ byte ∈ input.bytes, Ascii.isSpace byte) ∧
          ∀ most, limit = some most → height ≤ most := by
  by_cases noRoom : limit = some 0
  · subst noRoom
    constructor
    · intro parsed
      cases parsed
    · rintro ⟨height, frame, input, scratch, reads, -, -, fits⟩
      exact absurd (fits 0 rfl) (Nat.not_le.mpr reads.height_pos)
  · rw [parse_eq_ok_iff_runs schema shape noRoom]
    exact exists_done_iff_reads schema shape noRoom ⟨document, 0, true⟩ value
      fun rest => ∀ byte ∈ rest.bytes, Ascii.isSpace byte

end IncrementalJson
