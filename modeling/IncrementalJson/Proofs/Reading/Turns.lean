import IncrementalJson.Proofs.Reading.Nesting

/-!
# What follows from one turn

A parser whose newest frame fails has failed, and one whose newest frame
completes goes on as if the frame had been handed over before the bytes behind
it were fed.  A document that a single frame reads is answered by that frame.
Here whitespace counts, since what follows is told with its offset.
-/

set_option autoImplicit false

namespace IncrementalJson

open Ascii

variable {schema : Schema} {shape : Shape}

/-! ## Whitespace -/

namespace Input

theorem behindSpaces_spaces {spaces : List UInt8} (blank : ∀ byte ∈ spaces, isSpace byte)
    {byte : UInt8} (solid : isSpace byte = false) (closed : Bool) (offset : Nat)
    (rest : List UInt8) :
    behindSpaces closed offset (spaces ++ byte :: rest) =
      ⟨byte :: rest, offset + spaces.length, closed⟩ := by
  induction spaces generalizing offset with
  | nil => simp [behindSpaces, solid]
  | cons space spaces ih =>
    obtain ⟨isSpace, blank⟩ := List.forall_mem_cons.mp blank
    rw [List.cons_append, behindSpaces, if_pos isSpace, ih blank, List.length_cons, Nat.add_assoc,
      Nat.add_comm 1]

theorem significant_spaces {α : Type} {spaces : List UInt8} (blank : ∀ byte ∈ spaces, isSpace byte)
    {byte : UInt8} (solid : isSpace byte = false) (closed : Bool) (offset : Nat)
    (rest : List UInt8) (wait : Input → α) (act : UInt8 → Input → Except ParseError α) :
    significant ⟨spaces ++ byte :: rest, offset, closed⟩ wait act =
      act byte ⟨byte :: rest, offset + spaces.length, closed⟩ := by
  simp only [significant, skipSpaces, behindSpaces_spaces blank solid]

end Input

/-! ## Turns of the driver -/

theorem readDriver_resume_error (shape : Shape) {reading : Reading} {frame : Frame}
    {scratch : Scratch} {error : ParseError}
    (resumed : frame.resume schema reading.input scratch = .error error) :
    (readDriver schema shape).resume reading frame scratch =
      ⟨{ reading with input := reading.input.spent }, .start schema shape, #[], .error error⟩ := by
  simp only [readDriver, resumed]

theorem readDriver_resume_ok (shape : Shape) {reading : Reading} {frame frame' : Frame}
    {input : Input} {scratch scratch' : Scratch} {step : Step Frame}
    (resumed : frame.resume schema reading.input scratch = .ok ⟨frame', input, scratch', step⟩) :
    (readDriver schema shape).resume reading frame scratch =
      ⟨{ reading with input }, frame', scratch', .ok step⟩ := by
  simp only [readDriver, resumed]

def Resolves {κ φ ε : Type} (driver : Driver κ φ ε) (context : κ) (done : φ) (stack : Stack φ)
    (run : Run κ φ ε) : Prop :=
  match stack.handOver driver context done with
  | (context, stack, .ok ()) => Runs driver context stack run
  | (context, stack, .error error) => run = ⟨context, stack, .failed error⟩

theorem Resolves.runs {κ φ ε : Type} {driver : Driver κ φ ε} {context context' : κ}
    {top top' : φ} {rest : List φ} {fresh : Nat} {limit : Option Nat} {scratch scratch' : Scratch}
    {run : Run κ φ ε}
    (resolves : Resolves driver context' top' ⟨rest, fresh - 1, limit, scratch'⟩ run)
    (resumed : driver.resume context top scratch = ⟨context', top', scratch', .ok .complete⟩) :
    Runs driver context ⟨top :: rest, fresh, limit, scratch⟩ run := by
  unfold Resolves at resolves
  split at resolves
  · rename_i handed
    exact .complete resumed handed resolves
  · rename_i handed
    subst resolves
    exact .reject resumed handed

/-! ## A document of one frame -/

theorem parse_of_error {limit : Option Nat} (room : limit ≠ some 0) {document : List UInt8}
    {error : ParseError}
    (resumed : (Frame.start schema shape).resume schema ⟨document, 0, true⟩ #[] = .error error) :
    parse schema shape document limit = .error error :=
  parse_eq_answer schema shape room (.fail (readDriver_resume_error shape resumed))

theorem parse_of_complete {limit : Option Nat} (room : limit ≠ some 0) {document : List UInt8}
    {frame : Frame} {rest : Input} {scratch : Scratch}
    (resumed : (Frame.start schema shape).resume schema ⟨document, 0, true⟩ #[] =
      .ok ⟨frame, rest, scratch, .complete⟩) :
    parse schema shape document limit = (do
      let value ← frame.deliver shape
      rest.onlySpaces
      return value) := by
  have turn : (readDriver schema shape).resume ⟨⟨document, 0, true⟩, schema.initial shape⟩
      (.start schema shape) #[] = ⟨⟨rest, schema.initial shape⟩, frame, scratch, .ok .complete⟩ :=
    readDriver_resume_ok shape resumed
  cases delivered : frame.deliver shape with
  | error error =>
    have handed : Stack.handOver (readDriver schema shape) ⟨rest, schema.initial shape⟩ frame
        ⟨[], 0, limit, scratch⟩ =
        (⟨rest, schema.initial shape⟩, ⟨[], 0, limit, scratch⟩, .error error) := by
      simp only [Stack.handOver, readDriver, delivered]
    exact parse_eq_answer schema shape room (.reject turn handed)
  | ok value =>
    have handed : Stack.handOver (readDriver schema shape) ⟨rest, schema.initial shape⟩ frame
        ⟨[], 0, limit, scratch⟩ = (⟨rest, value⟩, ⟨[], 0, limit, scratch⟩, .ok ()) := by
      simp only [Stack.handOver, readDriver, delivered]
    rw [parse_eq_answer schema shape room (.complete turn handed .empty)]
    simp only [Run.answer, bind, Except.bind, pure, Except.pure]
    cases rest.onlySpaces <;> rfl

/-! ## The newest frame of a parser -/

namespace Parser

variable {parser : Parser} {top : Frame} {below : List Frame} {fresh : Nat} {limit : Option Nat}
  {scratch : Scratch}

/-- The newest frame of a parser has just been called for a value of a shape. -/
structure Awaits (parser : Parser) (shape : Shape) : Prop where
  live : parser.Live
  newest : ∃ below fresh limit,
    parser.stack = ⟨.start parser.schema shape :: below, fresh, limit, #[]⟩

theorem Awaits.tidy {shape : Shape} (awaits : parser.Awaits shape) : parser.stack.Tidy := by
  obtain ⟨below, fresh, limit, frames⟩ := awaits.newest
  rw [frames]
  exact Frame.tidy_empty _

def handOver (parser : Parser) (done : Frame) (count : Nat) : Parser :=
  let stack : Stack Frame :=
    ⟨parser.stack.frames.tail, parser.stack.fresh - 1, parser.stack.limit, #[]⟩
  match stack.handOver (readDriver parser.schema parser.shape)
      ⟨⟨[], parser.offset + count, false⟩, parser.value⟩ done with
  | (reading, stack, .ok ()) =>
    ⟨parser.schema, parser.shape, stack, reading.value, parser.offset + count, .paused⟩
  | (_, _, .error error) => parser.fail error

theorem error?_feed_of_error (live : parser.Live)
    (frames : parser.stack = ⟨top :: below, fresh, limit, scratch⟩) {chunk : List UInt8}
    {error : ParseError}
    (resumed : top.resume parser.schema ⟨chunk, parser.offset, false⟩ scratch = .error error) :
    (parser.feed chunk).error? = some error := by
  obtain ⟨schema, shape, stack, value, offset, status⟩ := parser
  cases frames
  have turn : (readDriver schema shape).resume ⟨⟨chunk, offset, false⟩, value⟩ top scratch =
      ⟨⟨Input.spent ⟨chunk, offset, false⟩, value⟩, .start schema shape, #[], .error error⟩ :=
    readDriver_resume_error shape resumed
  rw [feed_of_runs _ live (.fail turn)]
  rfl

theorem error?_feed_of_pause (live : parser.Live)
    (frames : parser.stack = ⟨top :: below, fresh, limit, scratch⟩) {chunk : List UInt8}
    {later : Frame} {rest : Input} {scratch' : Scratch}
    (resumed : top.resume parser.schema ⟨chunk, parser.offset, false⟩ scratch =
      .ok ⟨later, rest, scratch', .pause⟩) :
    (parser.feed chunk).error? = none := by
  obtain ⟨schema, shape, stack, value, offset, status⟩ := parser
  cases frames
  have turn : (readDriver schema shape).resume ⟨⟨chunk, offset, false⟩, value⟩ top scratch =
      ⟨⟨rest, value⟩, later, scratch', .ok .pause⟩ :=
    readDriver_resume_ok shape resumed
  rw [feed_of_runs _ live (.pause turn), settle_paused _ _ _ rfl]
  rfl

theorem finish_feed_of_error (live : parser.Live) (neat : parser.stack.Tidy)
    (frames : parser.stack = ⟨top :: below, fresh, limit, scratch⟩) {chunk : List UInt8}
    {error : ParseError}
    (resumed : top.resume parser.schema ⟨chunk, parser.offset, true⟩ scratch = .error error) :
    (parser.feed chunk).finish = .error error := by
  obtain ⟨schema, shape, stack, value, offset, status⟩ := parser
  cases frames
  have turn : (readDriver schema shape).resume ⟨⟨chunk, offset, true⟩, value⟩ top scratch =
      ⟨⟨Input.spent ⟨chunk, offset, true⟩, value⟩, .start schema shape, #[], .error error⟩ :=
    readDriver_resume_error shape resumed
  exact finish_feed live neat (.fail turn)

def advanced (parser : Parser) (top : Frame) (count : Nat) : Parser :=
  ⟨parser.schema, parser.shape,
    ⟨top :: parser.stack.frames.tail, parser.stack.fresh, parser.stack.limit, #[]⟩,
    parser.value, parser.offset + count, .paused⟩

/-- A parser goes on from wherever its newest frame would do the same. -/
theorem feed_eq_of_resume_eq (live : parser.Live)
    (frames : parser.stack = ⟨top :: below, fresh, limit, scratch⟩) {front back : List UInt8}
    {top' : Frame}
    (same : top.resume parser.schema ⟨front ++ back, parser.offset, false⟩ scratch =
      top'.resume parser.schema ⟨back, parser.offset + front.length, false⟩ #[]) :
    parser.feed (front ++ back) = (parser.advanced top' front.length).feed back := by
  obtain ⟨schema, shape, stack, value, offset, status⟩ := parser
  cases frames
  have total : offset + (front ++ back).length = offset + front.length + back.length := by
    rw [List.length_append, Nat.add_assoc]
  have turn : (readDriver schema shape).resume ⟨⟨front ++ back, offset, false⟩, value⟩ top scratch =
      (readDriver schema shape).resume ⟨⟨back, offset + front.length, false⟩, value⟩ top' #[] := by
    cases resumed : top'.resume schema ⟨back, offset + front.length, false⟩ #[] with
    | error error =>
      rw [readDriver_resume_error shape (same.trans resumed), readDriver_resume_error shape resumed]
      simp only [Input.spent, Input.limit, total]
    | ok advance =>
      rw [readDriver_resume_ok shape (same.trans resumed), readDriver_resume_ok shape resumed]
  obtain ⟨run, runs, -⟩ := exists_runs schema shape ⟨top :: below, fresh, limit, scratch⟩
    ⟨front ++ back, offset, false⟩ value
  have later := feed_of_runs ⟨schema, shape, ⟨top' :: below, fresh, limit, #[]⟩, value,
    offset + front.length, .paused⟩ rfl (runs.transfer turn)
  rw [feed_of_runs _ live runs]
  exact (congrArg (settle schema shape · run) total).trans later.symm

/-- A run over what is at hand goes on, behind so many bytes of it, from a frame that is handed
over. -/
def HandsOver (parser : Parser) (done : Frame) (front back : List UInt8) (closed : Bool) : Prop :=
  ∀ run, Resolves (readDriver parser.schema parser.shape)
      ⟨⟨back, parser.offset + front.length, closed⟩, parser.value⟩ done
      ⟨parser.stack.frames.tail, parser.stack.fresh - 1, parser.stack.limit, #[]⟩ run →
    Runs (readDriver parser.schema parser.shape)
      ⟨⟨front ++ back, parser.offset, closed⟩, parser.value⟩ parser.stack run

theorem handOver_cases (parser : Parser) (done : Frame) (front back : List UInt8) (closed : Bool)
    (hands : parser.HandsOver done front back closed) :
    (∃ run error, Runs (readDriver parser.schema parser.shape)
        ⟨⟨front ++ back, parser.offset, closed⟩, parser.value⟩ parser.stack run ∧
      run.outcome = .failed error ∧
      (parser.handOver done front.length).status = .failed error ∧
      (parser.handOver done front.length).depth = 0) ∨
    ∃ stack value, parser.handOver done front.length =
        ⟨parser.schema, parser.shape, stack, value, parser.offset + front.length, .paused⟩ ∧
      stack.Tidy ∧ ∀ run, Runs (readDriver parser.schema parser.shape)
          ⟨⟨back, parser.offset + front.length, closed⟩, value⟩ stack run →
        Runs (readDriver parser.schema parser.shape)
          ⟨⟨front ++ back, parser.offset, closed⟩, parser.value⟩ parser.stack run := by
  obtain ⟨schema, shape, stack, value, offset, status⟩ := parser
  rcases handed : Stack.handOver (readDriver schema shape)
      ⟨⟨[], offset + front.length, false⟩, value⟩ done
      ⟨stack.frames.tail, stack.fresh - 1, stack.limit, #[]⟩ with ⟨reading, stack', error | _⟩
  all_goals have later := Stack.handOver_extend handed back closed
  · refine .inl ⟨_, error, hands ⟨reading.extend back closed, stack', .failed error⟩ ?_, rfl, ?_⟩
    · unfold Resolves
      exact later ▸ rfl
    · simp only [handOver, handed]
      exact ⟨rfl, rfl⟩
  · obtain ⟨input, empty⟩ := Stack.handOver_frame handed
    have same : reading.extend back closed =
        ⟨⟨back, offset + front.length, closed⟩, reading.value⟩ := by
      rw [Reading.extend, input]
      rfl
    refine .inr ⟨stack', reading.value, ?_, Stack.tidy_empty empty, fun run runs => hands run ?_⟩
    · simp only [handOver, handed]
    · unfold Resolves
      exact later ▸ same ▸ runs

theorem feed_of_handsOver (live : parser.Live) {done : Frame} {front back : List UInt8}
    (hands : parser.HandsOver done front back false) :
    SameState (parser.feed (front ++ back)) ((parser.handOver done front.length).feed back) := by
  rcases parser.handOver_cases done front back false hands with
    ⟨run, error, runs, failed, status, empty⟩ | ⟨stack, value, here, -, goesOn⟩
  · obtain ⟨status', frames⟩ := settle_failed parser.schema parser.shape
      (parser.offset + (front ++ back).length) failed
    rw [feed_of_runs _ live runs, feed_of_failed status]
    unfold SameState
    rw [status', empty]
    exact ⟨status, congrArg List.length frames⟩
  · obtain ⟨run, runs, -⟩ := exists_runs parser.schema parser.shape stack
      ⟨back, parser.offset + front.length, false⟩ value
    rw [feed_of_runs _ live (goesOn run runs), here,
      feed_of_runs ⟨_, _, _, _, _, .paused⟩ rfl runs, List.length_append, Nat.add_assoc]
    exact SameState.refl _

theorem finish_of_handsOver (live : parser.Live) (neat : parser.stack.Tidy) {done : Frame}
    {front back : List UInt8} (hands : parser.HandsOver done front back true) :
    (parser.feed (front ++ back)).finish =
      ((parser.handOver done front.length).feed back).finish := by
  rcases parser.handOver_cases done front back true hands with
    ⟨run, error, runs, failed, status, -⟩ | ⟨stack, value, here, neat', goesOn⟩
  · rw [finish_feed live neat runs, feed_of_failed status, finish, status]
    obtain ⟨⟨input, value⟩, stack, outcome⟩ := run
    cases failed
    rfl
  · obtain ⟨run, runs, -⟩ := exists_runs parser.schema parser.shape stack
      ⟨back, parser.offset + front.length, true⟩ value
    rw [finish_feed live neat (goesOn run runs), here]
    exact (finish_feed (rfl : Live ⟨_, _, _, _, _, .paused⟩) neat' runs).symm

theorem feed_of_complete (live : parser.Live)
    (frames : parser.stack = ⟨top :: below, fresh, limit, scratch⟩) {front back : List UInt8}
    {done : Frame}
    (resumed : top.resume parser.schema ⟨front ++ back, parser.offset, false⟩ scratch =
      .ok ⟨done, ⟨back, parser.offset + front.length, false⟩, #[], .complete⟩) :
    SameState (parser.feed (front ++ back)) ((parser.handOver done front.length).feed back) := by
  apply feed_of_handsOver live
  intro run resolves
  rw [frames] at resolves ⊢
  exact resolves.runs (readDriver_resume_ok parser.shape resumed)

/-- The parser once its newest frame has become `later` behind so many bytes and has called another
one, which the limit may refuse. -/
def called (parser : Parser) (later child : Frame) (count : Nat) : Parser :=
  let stack : Stack Frame :=
    ⟨later :: parser.stack.frames.tail, parser.stack.fresh, parser.stack.limit, #[]⟩
  match stack.push child with
  | .ok stack =>
    ⟨parser.schema, parser.shape, stack, parser.value, parser.offset + count, .paused⟩
  | .error reached => parser.fail (.maxDepthReached reached)

/-- What is fed behind a call is fed to the parser that the call has led to. -/
theorem feed_of_call (live : parser.Live)
    (frames : parser.stack = ⟨top :: below, fresh, limit, scratch⟩) {front back : List UInt8}
    {later child : Frame}
    (resumed : top.resume parser.schema ⟨front ++ back, parser.offset, false⟩ scratch =
      .ok ⟨later, ⟨back, parser.offset + front.length, false⟩, #[], .call child⟩) :
    SameState (parser.feed (front ++ back))
      ((parser.called later child front.length).feed back) := by
  obtain ⟨schema, shape, stack, value, offset, status⟩ := parser
  cases frames
  have turn : (readDriver schema shape).resume ⟨⟨front ++ back, offset, false⟩, value⟩ top scratch =
      ⟨⟨⟨back, offset + front.length, false⟩, value⟩, later, #[], .ok (.call child)⟩ :=
    readDriver_resume_ok shape resumed
  simp only [called, List.tail_cons]
  cases pushed : Stack.push ⟨later :: below, fresh, limit, #[]⟩ child with
  | error reached =>
    rw [feed_of_runs _ live (.refuse turn pushed), feed_of_failed rfl]
    exact ⟨rfl, rfl⟩
  | ok stack =>
    obtain ⟨run, runs, -⟩ := exists_runs schema shape stack
      ⟨back, offset + front.length, false⟩ value
    rw [feed_of_runs _ live (.call turn pushed runs), feed_of_runs ⟨_, _, _, _, _, .paused⟩ rfl runs,
      List.length_append, Nat.add_assoc]
    exact SameState.refl _

theorem awaits_called (frames : parser.stack = ⟨top :: below, fresh, limit, scratch⟩)
    (room : ∀ most, limit = some most → parser.depth < most) (later : Frame) (shape : Shape)
    (count : Nat) : (parser.called later (.start parser.schema shape) count).Awaits shape := by
  obtain ⟨schema, root, stack, value, offset, status⟩ := parser
  cases frames
  have pushed : Stack.push ⟨later :: below, fresh, limit, #[]⟩ (.start schema shape) =
      .ok ⟨.start schema shape :: later :: below, fresh + 1, limit, #[]⟩ :=
    Stack.push_under_of_room ⟨later :: below, fresh, none, #[]⟩ (.start schema shape) room
  simp only [called, List.tail_cons, pushed]
  exact ⟨rfl, _, _, _, rfl⟩

end Parser

end IncrementalJson
