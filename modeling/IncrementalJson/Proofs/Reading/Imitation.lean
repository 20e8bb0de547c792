import IncrementalJson.Proofs.Reading.Ends
import IncrementalJson.Proofs.Reading.FirstFault
import IncrementalJson.Proofs.Reading.Turns

/-!
# Frames that do the same

Two frames do the same if on any input they fail alike, wait alike, call the same
frame, or complete behind the same byte, and go on to do the same.  A stack with
one of them in the place of the other is then run the same way up to the point
where the frame completes, whatever the frames beneath are.
-/

set_option autoImplicit false

namespace IncrementalJson

inductive Paired {ε α : Type} (related : α → α → Prop) : Except ε α → Except ε α → Prop where
  | error (error : ε) : Paired related (.error error) (.error error)
  | ok {value value' : α} (alike : related value value') : Paired related (.ok value) (.ok value')

namespace Paired

variable {ε α : Type} {related related' : α → α → Prop} {result result' : Except ε α}

theorem imp (paired : Paired related result result')
    (wider : ∀ value value', related value value' → related' value value') :
    Paired related' result result' := by
  cases paired with
  | error error => exact .error error
  | ok alike => exact .ok (wider _ _ alike)

theorem same (refl : ∀ value, related value value) (result : Except ε α) :
    Paired related result result := by
  cases result with
  | error error => exact .error error
  | ok value => exact .ok (refl value)

theorem left_of_error {error : ε} (paired : Paired related result (.error error)) :
    result = .error error := by
  cases paired
  rfl

theorem left_of_ok {value' : α} (paired : Paired related result (.ok value')) :
    ∃ value, result = .ok value ∧ related value value' := by
  cases paired with
  | ok alike => exact ⟨_, rfl, alike⟩

end Paired

structure SameTurn (R : Frame → Frame → Prop) (advance advance' : Advance Frame) : Prop where
  frames : R advance.body advance'.body
  input : advance.input = advance'.input
  scratch : advance.scratch = advance'.scratch
  step : advance.step = advance'.step

/-- Frames that are related do the same, and what they become is related again. -/
structure Imitates (schema : Schema) (R : Frame → Frame → Prop) : Prop where
  resume : ∀ {frame frame' : Frame}, R frame frame' → ∀ input scratch,
    Paired (SameTurn R) (frame.resume schema input scratch) (frame'.resume schema input scratch)
  accept : ∀ {frame frame' : Frame}, R frame frame' → ∀ child,
    Paired R (frame.accept child) (frame'.accept child)

variable {schema : Schema} {root root' : Shape} {R : Frame → Frame → Prop}
  {below below' : List Frame}

/-- Frames that differ only in the one under so many, and in what lies beneath that. -/
inductive Beside (R : Frame → Frame → Prop) (below below' : List Frame) :
    Nat → List Frame → List Frame → Prop where
  | base {frame frame' : Frame} (alike : R frame frame') :
      Beside R below below' 0 (frame :: below) (frame' :: below')
  | above {count : Nat} {frames frames' : List Frame} (top : Frame)
      (under : Beside R below below' count frames frames') :
      Beside R below below' (count + 1) (top :: frames) (top :: frames')

namespace Beside

theorem length_eq {count : Nat} {frames frames' : List Frame}
    (beside : Beside R below below' count frames frames') (level : below.length = below'.length) :
    frames.length = frames'.length := by
  induction beside with
  | base => exact congrArg Nat.succ level
  | above top _ ih => exact congrArg Nat.succ ih

/-- Frames of two stacks that are in the same position, newest first. -/
def Tops (R : Frame → Frame → Prop) (below below' : List Frame) (count : Nat)
    (rest rest' : List Frame) (top top' : Frame) : Prop :=
  Beside R below below' count (top :: rest) (top' :: rest')

theorem resume (imitates : Imitates schema R) {count : Nat} {top top' : Frame}
    {rest rest' : List Frame} (beside : Beside R below below' count (top :: rest) (top' :: rest'))
    (input : Input) (scratch : Scratch) :
    Paired (SameTurn (Tops R below below' count rest rest')) (top.resume schema input scratch)
      (top'.resume schema input scratch) := by
  cases beside with
  | base alike =>
    apply (imitates.resume alike input scratch).imp
    intro advance advance' same
    exact ⟨.base same.frames, same.input, same.scratch, same.step⟩
  | above top under =>
    apply Paired.same
    intro advance
    exact ⟨.above _ under, rfl, rfl, rfl⟩

theorem accept (imitates : Imitates schema R) {count : Nat} {top top' : Frame}
    {rest rest' : List Frame} (beside : Beside R below below' count (top :: rest) (top' :: rest'))
    (child : Frame) :
    Paired (Tops R below below' count rest rest') (top.accept child) (top'.accept child) := by
  cases beside with
  | base alike =>
    apply (imitates.accept alike child).imp
    intro parent parent' same
    exact .base same
  | above top under =>
    apply Paired.same
    intro parent
    exact .above _ under

end Beside

/-! ## Turns that do not wait -/

/-- A turn that does not wait leaves a part of the input, and no bytes in the scratch region. -/
theorem Frame.settled_of_resume {frame later : Frame} {input rest : Input}
    {scratch scratch' : Scratch} {step : Step Frame} (neat : frame.Tidy scratch)
    (resumed : frame.resume schema input scratch = .ok ⟨later, rest, scratch', step⟩)
    (goesOn : step ≠ .pause) :
    scratch' = #[] ∧ rest.closed = input.closed ∧ rest.Behind input := by
  have located := frame.locates_resume schema input scratch
  rw [resumed] at located
  cases ends : input.closed with
  | true =>
    obtain ⟨closed, empty, -⟩ := Frame.resume_opened ends neat resumed
    exact ⟨empty, closed, located⟩
  | false =>
    have cuttable : CutsTo (Frame.resumes schema) Frame.Tidy
        (fun later => frame.resume schema later scratch) input
        (frame.resume schema input scratch) :=
      frame.cuttable_resume ends neat
    rw [resumed] at cuttable
    cases step with
    | pause => exact absurd rfl goesOn
    | call child | complete => exact ⟨cuttable.2.2.1, cuttable.1, located⟩

/-! ## Turns of the driver -/

theorem resume_of_driver_error {reading reading' : Reading} {top top' : Frame}
    {scratch scratch' : Scratch} {error : ParseError}
    (resumed : (readDriver schema root).resume reading top scratch =
      ⟨reading', top', scratch', .error error⟩) :
    top.resume schema reading.input scratch = .error error := by
  simp only [readDriver] at resumed
  split at resumed
  · cases resumed
  · rename_i failed
    cases resumed
    exact failed

namespace Beside

variable {count : Nat} {frames rest rest' : List Frame} {top top' later' : Frame}
  {scratch scratch' : Scratch} {reading' reading'' : Reading}

theorem eq_cons (beside : Beside R below below' count frames rest') :
    ∃ top rest, frames = top :: rest := by
  cases beside with
  | base | above => exact ⟨_, _, rfl⟩

theorem turn_error (imitates : Imitates schema R)
    (beside : Beside R below below' count (top :: rest) (top' :: rest')) {error : ParseError}
    (resumed : (readDriver schema root').resume reading' top' scratch =
      ⟨reading'', later', scratch', .error error⟩) (root : Shape) (value : Value) :
    (readDriver schema root).resume ⟨reading'.input, value⟩ top scratch =
      ⟨⟨reading'.input.spent, value⟩, .start schema root, #[], .error error⟩ := by
  have paired := beside.resume imitates reading'.input scratch
  rw [resume_of_driver_error resumed] at paired
  have failed : top.resume schema reading'.input scratch = .error error := paired.left_of_error
  exact readDriver_resume_error root failed

theorem turn_ok (imitates : Imitates schema R)
    (beside : Beside R below below' count (top :: rest) (top' :: rest')) {step : Step Frame}
    (resumed : (readDriver schema root').resume reading' top' scratch =
      ⟨reading'', later', scratch', .ok step⟩) (root : Shape) (value : Value) :
    ∃ later, (readDriver schema root).resume ⟨reading'.input, value⟩ top scratch =
        ⟨⟨reading''.input, value⟩, later, scratch', .ok step⟩ ∧
      Beside R below below' count (later :: rest) (later' :: rest') := by
  have paired := beside.resume imitates reading'.input scratch
  rw [(resume_of_driver resumed).1] at paired
  obtain ⟨⟨later, input, scratch, step⟩, resumed', same⟩ := paired.left_of_ok
  obtain ⟨frames, sameInput, sameScratch, sameStep⟩ := same
  cases sameInput
  cases sameScratch
  cases sameStep
  exact ⟨later, driver_of_resume resumed' value, frames⟩

theorem handed_error (imitates : Imitates schema R)
    (beside : Beside R below below' count rest rest') {done : Frame} {fresh' : Nat}
    {limit : Option Nat} {stack' : Stack Frame} {error : ParseError}
    (handed : Stack.handOver (readDriver schema root') reading' done
      ⟨rest', fresh', limit, scratch⟩ = (reading'', stack', .error error))
    (root : Shape) (value : Value) (fresh : Nat) :
    ∃ stack, Stack.handOver (readDriver schema root) ⟨reading'.input, value⟩ done
        ⟨rest, fresh, limit, scratch⟩ = (⟨reading'.input, value⟩, stack, .error error) ∧
      stack.depth = rest.length ∧ stack'.depth = rest'.length := by
  obtain ⟨parent, under, rfl⟩ := beside.eq_cons
  cases rest' with
  | nil => cases beside
  | cons parent' under' =>
    have paired := beside.accept imitates done
    simp only [Stack.handOver, readDriver] at handed ⊢
    cases accepted : parent'.accept done with
    | ok parent'' =>
      simp only [accepted] at handed
      cases handed
    | error error =>
      rw [accepted] at paired
      simp only [accepted] at handed
      cases handed
      simp only [paired.left_of_error]
      exact ⟨_, rfl, rfl, rfl⟩

theorem handed_ok (imitates : Imitates schema R)
    (beside : Beside R below below' count rest rest') {done : Frame} {fresh' : Nat}
    {limit : Option Nat} {stack' : Stack Frame}
    (handed : Stack.handOver (readDriver schema root') reading' done
      ⟨rest', fresh', limit, scratch⟩ = (reading'', stack', .ok ()))
    (root : Shape) (value : Value) (fresh : Nat) :
    reading'' = reading' ∧ ∃ frames frames', stack' = ⟨frames', fresh', limit, scratch⟩ ∧
      Stack.handOver (readDriver schema root) ⟨reading'.input, value⟩ done
        ⟨rest, fresh, limit, scratch⟩ =
          (⟨reading'.input, value⟩, ⟨frames, fresh, limit, scratch⟩, .ok ()) ∧
      Beside R below below' count frames frames' := by
  obtain ⟨parent, under, rfl⟩ := beside.eq_cons
  cases rest' with
  | nil => cases beside
  | cons parent' under' =>
    have paired := beside.accept imitates done
    simp only [Stack.handOver, readDriver] at handed ⊢
    cases accepted : parent'.accept done with
    | error error =>
      simp only [accepted] at handed
      cases handed
    | ok parent'' =>
      rw [accepted] at paired
      simp only [accepted] at handed
      cases handed
      obtain ⟨parent₁, accepted₁, beside'⟩ := paired.left_of_ok
      simp only [accepted₁]
      exact ⟨trivial, _, _, rfl, rfl, beside'⟩

end Beside

/-! ## Runs -/

theorem Stack.push_of_length {frames frames' : List Frame} (level : frames.length = frames'.length)
    (fresh : Nat) {fresh' : Nat} {limit : Option Nat} {scratch : Scratch} {child : Frame}
    {result : Except Nat (Stack Frame)}
    (pushed : Stack.push ⟨frames', fresh', limit, scratch⟩ child = result) :
    Stack.push ⟨frames, fresh, limit, scratch⟩ child =
      result.map fun _ => ⟨child :: frames, fresh + 1, limit, scratch⟩ := by
  subst pushed
  cases limit with
  | none => rfl
  | some limit =>
    simp only [push, level]
    split <;> rfl

structure EndsAlike (run run' : Run Reading Frame ParseError) : Prop where
  outcome : run.outcome = run'.outcome
  unfinished : run.outcome ≠ .done
  depth : run.stack.depth = run'.stack.depth

/-- A run from a reading goes on as it does from a frame that is handed over to the frames
beneath, with so much of the input left. -/
def GoesOnFrom (schema : Schema) (root : Shape) (reading : Reading) (stack : Stack Frame)
    (rest : Input) (done : Frame) (below : List Frame) (fresh : Nat) : Prop :=
  ∀ run, Resolves (readDriver schema root) ⟨rest, reading.value⟩ done
      ⟨below, fresh - 1, stack.limit, #[]⟩ run →
    Runs (readDriver schema root) reading stack run

theorem GoesOnFrom.earlier {reading later : Reading} {stack stack' : Stack Frame} {rest : Input}
    {done : Frame} {fresh : Nat}
    (goesOn : GoesOnFrom schema root later stack' rest done below fresh)
    (ahead : ∀ run, Runs (readDriver schema root) later stack' run →
      Runs (readDriver schema root) reading stack run)
    (value : later.value = reading.value) (limit : stack'.limit = stack.limit) :
    GoesOnFrom schema root reading stack rest done below fresh := by
  intro run resolves
  apply ahead run
  apply goesOn run
  rw [value, limit]
  exact resolves

/-- The two frames that do the same complete in front of the same bytes. -/
structure CompleteTogether (R : Frame → Frame → Prop) (input rest : Input) (done done' : Frame) :
    Prop where
  related : R done done'
  behind : rest.Behind input
  closed : rest.closed = input.closed

theorem CompleteTogether.earlier {input later rest : Input} {done done' : Frame}
    (together : CompleteTogether R later rest done done') (behind : later.Behind input)
    (closed : later.closed = input.closed) : CompleteTogether R input rest done done' :=
  ⟨together.related, together.behind.trans behind, together.closed.trans closed⟩

theorem completeTogether_of_turns {top top' done done' : Frame} {reading' reading'' : Reading}
    {value : Value} {fresh fresh' : Nat} {limit : Option Nat} {scratch scratch' : Scratch}
    (related : R done done') (neat : top'.Tidy scratch)
    (turn : (readDriver schema root).resume ⟨reading'.input, value⟩ top scratch =
      ⟨⟨reading''.input, value⟩, done, scratch', .ok .complete⟩)
    (turn' : (readDriver schema root').resume reading' top' scratch =
      ⟨reading'', done', scratch', .ok .complete⟩) :
    CompleteTogether R reading'.input reading''.input done done' ∧
      GoesOnFrom schema root ⟨reading'.input, value⟩ ⟨top :: below, fresh, limit, scratch⟩
        reading''.input done below fresh ∧
      GoesOnFrom schema root' reading' ⟨top' :: below', fresh', limit, scratch⟩
        reading''.input done' below' fresh' := by
  obtain ⟨resumed, same⟩ := resume_of_driver turn'
  obtain ⟨empty, closed, behind⟩ := Frame.settled_of_resume neat resumed nofun
  cases empty
  refine ⟨⟨related, behind, closed⟩, ?_, ?_⟩
  · intro run resolves
    exact resolves.runs turn
  · intro run resolves
    obtain ⟨input, value'⟩ := reading''
    cases same
    exact resolves.runs turn'

/-- A run comes to the same end as another, or both come to where the two frames that do the same
complete in front of the same bytes. -/
inductive Imitated (R : Frame → Frame → Prop) (schema : Schema) (root root' : Shape)
    (below below' : List Frame) (fresh fresh' : Nat) (reading : Reading) (stack : Stack Frame)
    (reading' : Reading) (stack' : Stack Frame) (run' : Run Reading Frame ParseError) : Prop
  | ends {run : Run Reading Frame ParseError}
      (runs : Runs (readDriver schema root) reading stack run) (alike : EndsAlike run run')
  | meet {rest : Input} {done done' : Frame}
      (together : CompleteTogether R reading'.input rest done done')
      (goesOn : GoesOnFrom schema root reading stack rest done below fresh)
      (goesOn' : GoesOnFrom schema root' reading' stack' rest done' below' fresh')

theorem Imitated.earlier {fresh fresh' : Nat} {reading reading' later later' : Reading}
    {stack stack' ahead ahead' : Stack Frame} {run' : Run Reading Frame ParseError}
    (imitated : Imitated R schema root root' below below' fresh fresh' later ahead later' ahead'
      run')
    (leads : ∀ run, Runs (readDriver schema root) later ahead run →
      Runs (readDriver schema root) reading stack run)
    (leads' : ∀ run, Runs (readDriver schema root') later' ahead' run →
      Runs (readDriver schema root') reading' stack' run)
    (value : later.value = reading.value) (value' : later'.value = reading'.value)
    (limit : ahead.limit = stack.limit) (limit' : ahead'.limit = stack'.limit)
    (behind : later'.input.Behind reading'.input)
    (closed : later'.input.closed = reading'.input.closed) :
    Imitated R schema root root' below below' fresh fresh' reading stack reading' stack' run' := by
  cases imitated with
  | ends runs alike => exact .ends (leads _ runs) alike
  | meet together goesOn goesOn' =>
    exact .meet (together.earlier behind closed) (goesOn.earlier leads value limit)
      (goesOn'.earlier leads' value' limit')

theorem Runs.imitated (imitates : Imitates schema R) (level : below.length = below'.length)
    {count : Nat} {frames frames' : List Frame} (beside : Beside R below below' count frames frames')
    (value : Value) {reading' : Reading} (fresh fresh' : Nat) {limit : Option Nat}
    {scratch : Scratch} {stack' : Stack Frame}
    (isStack : stack' = ⟨frames', fresh' + count, limit, scratch⟩) (neat : stack'.Tidy)
    {run' : Run Reading Frame ParseError}
    (runs : Runs (readDriver schema root') reading' stack' run') :
    Imitated R schema root root' below below' fresh fresh' ⟨reading'.input, value⟩
      ⟨frames, fresh + count, limit, scratch⟩ reading' stack' run' := by
  -- the frames above the two are the same ones, so all that is kept is how many they are
  induction runs generalizing count frames frames' limit scratch with
  | empty =>
    cases isStack
    cases beside
  | fail resumed =>
    cases isStack
    obtain ⟨top, rest, rfl⟩ := beside.eq_cons
    have turn := beside.turn_error imitates resumed root value
    exact .ends (.fail turn) ⟨rfl, nofun, beside.length_eq level⟩
  | pause resumed =>
    cases isStack
    obtain ⟨top, rest, rfl⟩ := beside.eq_cons
    obtain ⟨later, turn, beside'⟩ := beside.turn_ok imitates resumed root value
    exact .ends (.pause turn) ⟨rfl, nofun, beside'.length_eq level⟩
  | refuse resumed pushed =>
    cases isStack
    obtain ⟨top, rest, rfl⟩ := beside.eq_cons
    obtain ⟨later, turn, beside'⟩ := beside.turn_ok imitates resumed root value
    have refused := Stack.push_of_length (beside'.length_eq level) (fresh + count) pushed
    exact .ends (.refuse turn refused) ⟨rfl, nofun, beside'.length_eq level⟩
  | call resumed pushed _ ih =>
    cases isStack
    obtain ⟨top, rest, rfl⟩ := beside.eq_cons
    obtain ⟨later, turn, beside'⟩ := beside.turn_ok imitates resumed root value
    obtain ⟨resumed', same⟩ := resume_of_driver resumed
    obtain ⟨empty, closed, behind⟩ := Frame.settled_of_resume neat resumed' nofun
    have pushed' := Stack.push_of_length (beside'.length_eq level) (fresh + count) pushed
    cases Stack.push_eq pushed
    cases empty
    have imitated := ih (.above _ beside') rfl (Frame.tidy_empty _)
    exact imitated.earlier (fun run runs => .call turn pushed' runs)
      (fun run runs => .call resumed pushed runs) rfl same rfl rfl behind closed
  | reject resumed handed =>
    cases isStack
    obtain ⟨top, rest, rfl⟩ := beside.eq_cons
    obtain ⟨later, turn, beside'⟩ := beside.turn_ok imitates resumed root value
    cases beside' with
    | base related =>
      obtain ⟨together, goesOn, goesOn'⟩ := completeTogether_of_turns related neat turn resumed
      exact .meet together goesOn goesOn'
    | above _ under =>
      obtain ⟨stack, handed', depth, depth'⟩ :=
        under.handed_error imitates handed root value (fresh + _)
      have levels : stack.depth = _ := depth.trans ((under.length_eq level).trans depth'.symm)
      exact .ends (.reject turn handed') ⟨rfl, nofun, levels⟩
  | complete resumed handed _ ih =>
    cases isStack
    obtain ⟨top, rest, rfl⟩ := beside.eq_cons
    obtain ⟨later, turn, beside'⟩ := beside.turn_ok imitates resumed root value
    cases beside' with
    | base related =>
      obtain ⟨together, goesOn, goesOn'⟩ := completeTogether_of_turns related neat turn resumed
      exact .meet together goesOn goesOn'
    | above _ under =>
      obtain ⟨unread, frames₁, frames₁', isStack', handed', beside₁⟩ :=
        under.handed_ok imitates handed root value (fresh + _)
      obtain ⟨resumed', same⟩ := resume_of_driver resumed
      obtain ⟨empty, closed, behind⟩ := Frame.settled_of_resume neat resumed' nofun
      cases unread
      cases empty
      cases isStack'
      have imitated := ih beside₁ rfl (Stack.tidy_empty rfl)
      exact imitated.earlier (fun run runs => .complete turn handed' runs)
        (fun run runs => .complete resumed handed runs) rfl same rfl rfl behind closed

/-! ## Parsers -/

namespace Parser

variable {parser parser' : Parser} {bytes : List UInt8} {closed : Bool}

structure Level (parser parser' : Parser) : Prop where
  schema : parser.schema = parser'.schema
  offset : parser.offset = parser'.offset
  status : parser.status = parser'.status
  depth : parser.depth = parser'.depth
  limit : parser.stack.limit = parser'.stack.limit

/-- Over some bytes two parsers come to the same end, or their newest frames complete in front of
the same of them. -/
def Abreast (R : Frame → Frame → Prop) (parser parser' : Parser) (bytes : List UInt8)
    (closed : Bool) : Prop :=
  (∃ run run', Runs (readDriver parser.schema parser.shape)
      ⟨⟨bytes, parser.offset, closed⟩, parser.value⟩ parser.stack run ∧
    Runs (readDriver parser'.schema parser'.shape)
      ⟨⟨bytes, parser'.offset, closed⟩, parser'.value⟩ parser'.stack run' ∧ EndsAlike run run') ∨
  ∃ done done' front back, R done done' ∧ bytes = front ++ back ∧
    parser.HandsOver done front back closed ∧ parser'.HandsOver done' front back closed

theorem Abreast.imp {R' : Frame → Frame → Prop} (abreast : Abreast R parser parser' bytes closed)
    (wider : ∀ done done', R done done' → R' done done') :
    Abreast R' parser parser' bytes closed := by
  rcases abreast with ends | ⟨done, done', front, back, related, hands⟩
  · exact .inl ends
  · exact .inr ⟨done, done', front, back, wider done done' related, hands⟩

structure TurnsAs (schema : Schema) (input : Input) (top : Frame) (here : Input) (frame : Frame) :
    Prop where
  behind : here.Behind input
  closed : here.closed = input.closed
  limit : here.limit = input.limit
  resume : top.resume schema input #[] = frame.resume schema here #[]

theorem TurnsAs.refl (schema : Schema) (input : Input) (top : Frame) :
    TurnsAs schema input top input top :=
  ⟨.refl input, rfl, rfl, rfl⟩

theorem TurnsAs.runs {input here : Input} {top frame : Frame}
    (turns : TurnsAs schema input top here frame) {value : Value} {fresh : Nat}
    {limit : Option Nat} {run : Run Reading Frame ParseError}
    (runs : Runs (readDriver schema root) ⟨here, value⟩ ⟨frame :: below, fresh, limit, #[]⟩ run) :
    Runs (readDriver schema root) ⟨input, value⟩ ⟨top :: below, fresh, limit, #[]⟩ run := by
  apply runs.transfer
  simp only [readDriver, turns.resume, Input.spent, turns.limit, turns.closed]

theorem abreast_of_turns (imitates : Imitates parser.schema R) (level : parser.Level parser')
    {top top' frame frame' : Frame} {fresh fresh' : Nat} {limit limit' : Option Nat}
    (newest : parser.stack = ⟨top :: below, fresh, limit, #[]⟩)
    (newest' : parser'.stack = ⟨top' :: below', fresh', limit', #[]⟩) {here : Input}
    (turns : TurnsAs parser.schema ⟨bytes, parser.offset, closed⟩ top here frame)
    (turns' : TurnsAs parser.schema ⟨bytes, parser.offset, closed⟩ top' here frame')
    (related : R frame frame') : Abreast R parser parser' bytes closed := by
  obtain ⟨schema, shape, stack, value, offset, status⟩ := parser
  obtain ⟨schema', shape', stack', value', offset', status'⟩ := parser'
  obtain ⟨sameSchema, sameOffset, -, depth, sameLimit⟩ := level
  cases sameSchema
  cases sameOffset
  cases newest
  cases newest'
  cases sameLimit
  have beneath : below.length = below'.length := Nat.succ.inj depth
  obtain ⟨run', runs', -⟩ := exists_runs schema shape' ⟨frame' :: below', fresh', limit, #[]⟩ here
    value'
  have beside : Beside R below below' 0 (frame :: below) (frame' :: below') := .base related
  cases runs'.imitated imitates beneath beside value fresh fresh' rfl frame'.tidy_empty with
  | @ends run runs alike => exact .inl ⟨run, run', turns.runs runs, turns'.runs runs', alike⟩
  | @meet rest done done' together goesOn goesOn' =>
    obtain ⟨related, behind, isClosed⟩ := together.earlier turns.behind turns.closed
    obtain ⟨front, whole, position⟩ := behind
    obtain ⟨back, offset', closed'⟩ := rest
    cases position
    cases isClosed
    refine .inr ⟨done, done', front, back, related, whole, ?_, ?_⟩
    · intro run resolves
      exact whole ▸ turns.runs (goesOn run resolves)
    · intro run resolves
      exact whole ▸ turns'.runs (goesOn' run resolves)

theorem settle_endsAlike {run run' : Run Reading Frame ParseError} (alike : EndsAlike run run')
    (schema schema' : Schema) (shape shape' : Shape) (offset offset' : Nat) :
    (settle schema shape offset run).status = (settle schema' shape' offset' run').status ∧
      (settle schema shape offset run).depth = (settle schema' shape' offset' run').depth := by
  obtain ⟨context, stack, outcome⟩ := run
  obtain ⟨context', stack', outcome'⟩ := run'
  obtain ⟨sameOutcome, unfinished, depth⟩ := alike
  cases sameOutcome
  cases outcome with
  | paused => exact ⟨rfl, depth⟩
  | done => exact absurd rfl unfinished
  | failed error => exact ⟨rfl, rfl⟩
  | stalled => exact ⟨rfl, rfl⟩

theorem answer_endsAlike {run run' : Run Reading Frame ParseError} (alike : EndsAlike run run') :
    ∃ error, run.answer = .error error ∧ run'.answer = .error error := by
  obtain ⟨⟨input, value⟩, stack, outcome⟩ := run
  obtain ⟨⟨input', value'⟩, stack', outcome'⟩ := run'
  obtain ⟨sameOutcome, unfinished, -⟩ := alike
  cases sameOutcome
  cases outcome with
  | done => exact absurd rfl unfinished
  | paused | failed | stalled => exact ⟨_, rfl, rfl⟩

/-- Chunks leave two parsers in the same status and with as many frames, or have both of them
hand over a frame, and the two frames correspond.  The end of the document is the same error for
both, or is answered by the parsers that two frames were handed over in. -/
structure ReadsAlike (corresponds : Frame → Frame → Prop) (parser parser' : Parser)
    (chunks : List (List UInt8)) : Prop where
  fed : (parser.feedAll chunks).status = (parser'.feedAll chunks).status ∧
      (parser.feedAll chunks).depth = (parser'.feedAll chunks).depth ∨
    ∃ done done' front back, corresponds done done' ∧ chunks.flatten = front ++ back ∧
      SameState (parser.feedAll chunks) ((parser.handOver done front.length).feed back) ∧
      SameState (parser'.feedAll chunks) ((parser'.handOver done' front.length).feed back)
  ended : (∃ error, (parser.feedAll chunks).finish = .error error ∧
      (parser'.feedAll chunks).finish = .error error) ∨
    ∃ done done' front back, corresponds done done' ∧ chunks.flatten = front ++ back ∧
      (parser.feedAll chunks).finish = ((parser.handOver done front.length).feed back).finish ∧
      (parser'.feedAll chunks).finish = ((parser'.handOver done' front.length).feed back).finish

theorem finish_feedAll_of_live (live : parser.Live) (neat : parser.stack.Tidy)
    (chunks : List (List UInt8)) :
    (parser.feedAll chunks).finish = (parser.feed chunks.flatten).finish := by
  cases chunks with
  | nil =>
    obtain ⟨run, runs, -⟩ := exists_runs parser.schema parser.shape parser.stack
      ⟨[], parser.offset, true⟩ parser.value
    exact (finish_of_runs parser live runs).trans (finish_feed live neat runs).symm
  | cons chunk rest => exact (feedAll_flatten live neat (List.cons_ne_nil chunk rest)).finish

theorem readsAlike_of_abreast (level : parser.Level parser') (live : parser.Live)
    (live' : parser'.Live) (neat : parser.stack.Tidy) (neat' : parser'.stack.Tidy)
    {chunks : List (List UInt8)}
    (abreast : ∀ closed, Abreast R parser parser' chunks.flatten closed) :
    ReadsAlike R parser parser' chunks where
  fed := by
    cases chunks with
    | nil => exact .inl ⟨level.status, level.depth⟩
    | cons chunk rest =>
      have whole := feedAll_flatten live neat (List.cons_ne_nil chunk rest)
      have whole' := feedAll_flatten live' neat' (List.cons_ne_nil chunk rest)
      rcases abreast false with
        ⟨run, run', runs, runs', alike⟩ | ⟨done, done', front, back, related, split, hands, hands'⟩
      · have settled := settle_endsAlike alike parser.schema parser'.schema parser.shape
          parser'.shape (parser.offset + (chunk :: rest).flatten.length)
          (parser'.offset + (chunk :: rest).flatten.length)
        rw [whole.status, whole'.status, whole.depth, whole'.depth, feed_of_runs _ live runs,
          feed_of_runs _ live' runs']
        exact .inl settled
      · have fed := feed_of_handsOver live hands
        have fed' := feed_of_handsOver live' hands'
        rw [split] at whole whole'
        exact .inr ⟨done, done', front, back, related, split, whole.trans fed, whole'.trans fed'⟩
  ended := by
    rw [finish_feedAll_of_live live neat, finish_feedAll_of_live live' neat']
    rcases abreast true with
      ⟨run, run', runs, runs', alike⟩ | ⟨done, done', front, back, related, split, hands, hands'⟩
    · rw [finish_feed live neat runs, finish_feed live' neat' runs']
      exact .inl (answer_endsAlike alike)
    · rw [split]
      exact .inr ⟨done, done', front, back, related, rfl, finish_of_handsOver live neat hands,
        finish_of_handsOver live' neat' hands'⟩

end Parser

end IncrementalJson
