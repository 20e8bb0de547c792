import IncrementalJson.Proofs.Reading.FrameCutting
import IncrementalJson.Proofs.Reading.Progress

/-!
# Cutting the input of a run

What holds of one frame holds of a whole run: a run over a first piece of input
tells how the run over both pieces ends.  The fresh frames of a stack do not
matter to that, and nor does what a failed run leaves behind.
-/

set_option autoImplicit false

namespace IncrementalJson

/-- The newest frame finds the scratch region tidy. -/
def Stack.Tidy : Stack Frame → Prop
  | ⟨[], _, _, _⟩ => True
  | ⟨top :: _, _, _, scratch⟩ => top.Tidy scratch

/-- Two runs that a parser cannot tell apart. -/
def Alike (run run' : Run Reading Frame ParseError) : Prop :=
  match run.outcome with
  | .failed error =>
    run'.outcome = .failed error ∧ run.context.value = run'.context.value ∧
      run.stack.limit = run'.stack.limit
  | _ => run = run'

theorem Alike.refl (run : Run Reading Frame ParseError) : Alike run run := by
  unfold Alike
  split
  · rename_i failed
    exact ⟨failed, rfl, rfl⟩
  · rfl

theorem Alike.symm {run run' : Run Reading Frame ParseError} (alike : Alike run run') :
    Alike run' run := by
  unfold Alike at alike
  split at alike
  · rename_i failed
    obtain ⟨failed', value, limit⟩ := alike
    unfold Alike
    simp only [failed']
    exact ⟨failed, value.symm, limit.symm⟩
  · subst alike
    exact .refl run

def Reading.extend (reading : Reading) (more : List UInt8) (closed : Bool) : Reading :=
  { reading with input := reading.input.extend more closed }

variable {schema : Schema} {shape : Shape} {reading reading' : Reading}

theorem Stack.handOver_extend {done : Frame} {stack stack' : Stack Frame}
    {result : Except ParseError Unit}
    (handed : stack.handOver (readDriver schema shape) reading done = (reading', stack', result))
    (more : List UInt8) (closed : Bool) :
    stack.handOver (readDriver schema shape) (reading.extend more closed) done =
      (reading'.extend more closed, stack', result) := by
  obtain ⟨frames, fresh, limit, scratch⟩ := stack
  cases frames with
  | nil =>
    simp only [handOver, readDriver] at handed ⊢
    cases delivered : done.deliver shape with
    | ok value =>
      simp only [delivered] at handed
      cases handed
      rfl
    | error error =>
      simp only [delivered] at handed
      cases handed
      rfl
  | cons parent below =>
    simp only [handOver, readDriver] at handed ⊢
    cases accepted : parent.accept done with
    | ok parent' =>
      simp only [accepted] at handed
      cases handed
      rfl
    | error error =>
      simp only [accepted] at handed
      cases handed
      rfl

theorem Stack.handOver_frame {done : Frame} {stack stack' : Stack Frame}
    {result : Except ParseError Unit}
    (handed : stack.handOver (readDriver schema shape) reading done = (reading', stack', result)) :
    reading'.input = reading.input ∧ stack'.scratch = stack.scratch := by
  obtain ⟨frames, fresh, limit, scratch⟩ := stack
  cases frames <;>
    · simp only [handOver, readDriver] at handed
      split at handed <;>
        · cases handed
          exact ⟨rfl, rfl⟩

theorem Stack.push_refresh {stack stack' : Stack Frame} {child : Frame}
    (pushed : stack.push child = .ok stack') (fresh : Nat) :
    Stack.push { stack with fresh } child = .ok { stack' with fresh := fresh + 1 } := by
  obtain ⟨frames, _, limit, scratch⟩ := stack
  cases limit with
  | none =>
    cases pushed
    rfl
  | some limit =>
    simp only [push] at pushed ⊢
    split at pushed
    · cases pushed
    · rename_i room
      cases pushed
      rw [if_neg room]

theorem Stack.refused_refresh {stack : Stack Frame} {child : Frame} {reached : Nat}
    (pushed : stack.push child = .error reached) (fresh : Nat) :
    Stack.push { stack with fresh } child = .error reached := by
  obtain ⟨frames, _, limit, scratch⟩ := stack
  cases limit with
  | none => cases pushed
  | some limit =>
    simp only [push] at pushed ⊢
    split at pushed
    · rename_i full
      cases pushed
      rw [if_pos full]
    · cases pushed

theorem Stack.handOver_refresh {done : Frame} {stack stack' : Stack Frame}
    {result : Except ParseError Unit}
    (handed : stack.handOver (readDriver schema shape) reading done = (reading', stack', result))
    (fresh : Nat) :
    Stack.handOver (readDriver schema shape) reading done { stack with fresh } =
      (reading', { stack' with fresh }, result) := by
  obtain ⟨frames, _, limit, scratch⟩ := stack
  cases frames <;>
    · cases handed
      rfl

/-- Which frames are fresh does not matter to a run. -/
theorem Runs.refresh {stack : Stack Frame} {run : Run Reading Frame ParseError}
    (runs : Runs (readDriver schema shape) reading stack run) (fresh : Nat) :
    ∃ run', Runs (readDriver schema shape) reading { stack with fresh } run' ∧ Alike run' run := by
  induction runs generalizing fresh with
  | empty => exact ⟨_, .empty, .refl _⟩
  | fail resumed => exact ⟨_, .fail resumed, rfl, rfl, rfl⟩
  | pause resumed => exact ⟨_, .pause resumed, .refl _⟩
  | refuse resumed pushed =>
    exact ⟨_, .refuse resumed (Stack.refused_refresh pushed fresh), rfl, rfl, rfl⟩
  | call resumed pushed _ ih =>
    obtain ⟨run', runs', alike⟩ := ih (fresh + 1)
    exact ⟨run', .call resumed (Stack.push_refresh pushed fresh) runs', alike⟩
  | reject resumed handed =>
    exact ⟨_, .reject resumed (Stack.handOver_refresh handed (fresh - 1)), rfl, rfl, rfl⟩
  | complete resumed handed _ ih =>
    obtain ⟨run', runs', alike⟩ := ih (fresh - 1)
    exact ⟨run', .complete resumed (Stack.handOver_refresh handed (fresh - 1)) runs', alike⟩

theorem Input.spent_extend (input : Input) (more : List UInt8) (closed : Bool) :
    (input.extend more closed).spent = Input.spent ⟨more, input.limit, closed⟩ := by
  simp only [spent, extend, limit, List.length_append, Nat.add_assoc]

def CutsTurn (schema : Schema) (shape : Shape) (reading : Reading) (top : Frame)
    (scratch : Scratch) (more : List UInt8) (closed : Bool) :
    Turn Reading Frame ParseError → Prop
  | ⟨reading', top', scratch', .error error⟩ => reading'.value = reading.value ∧
    (readDriver schema shape).resume (reading.extend more closed) top scratch =
      ⟨⟨(reading.input.extend more closed).spent, reading.value⟩, top', scratch', .error error⟩
  | ⟨reading', top', scratch', .ok .pause⟩ => reading'.value = reading.value ∧
    reading'.input = ⟨[], reading.input.limit, false⟩ ∧ top'.Tidy scratch' ∧
    (readDriver schema shape).resume (reading.extend more closed) top scratch =
      (readDriver schema shape).resume ⟨⟨more, reading.input.limit, closed⟩, reading'.value⟩
        top' scratch'
  | ⟨reading', top', scratch', .ok step⟩ => reading'.value = reading.value ∧
    reading'.input.closed = false ∧ reading'.input.limit = reading.input.limit ∧
    scratch' = #[] ∧
    (readDriver schema shape).resume (reading.extend more closed) top scratch =
      ⟨reading'.extend more closed, top', scratch', .ok step⟩

theorem cutsTurn_of_resume {top : Frame} {scratch : Scratch}
    {turn : Turn Reading Frame ParseError} (opened : reading.input.closed = false)
    (neat : top.Tidy scratch)
    (resumed : (readDriver schema shape).resume reading top scratch = turn) (more : List UInt8)
    (closed : Bool) : CutsTurn schema shape reading top scratch more closed turn := by
  have cuttable : CutsTo (Frame.resumes schema) Frame.Tidy
      (fun later => top.resume schema later scratch) reading.input
      (top.resume schema reading.input scratch) :=
    top.cuttable_resume opened neat
  subst resumed
  simp only [readDriver]
  rcases advance : top.resume schema reading.input scratch with
    error | ⟨body, rest, scratch', step⟩
  · rw [advance] at cuttable
    simp only [CutsTurn, readDriver, Reading.extend, cuttable more closed, and_self]
  · rw [advance] at cuttable
    cases step with
    | pause =>
      obtain ⟨used, neat, goesOn⟩ := cuttable
      refine ⟨rfl, used, neat, ?_⟩
      simp only [readDriver, Reading.extend, goesOn more closed, Input.spent_extend]
    | call child =>
      obtain ⟨opened, limit, empty, goesOn⟩ := cuttable
      refine ⟨rfl, opened, limit, empty, ?_⟩
      simp only [readDriver, Reading.extend, goesOn more closed]
    | complete =>
      obtain ⟨opened, limit, empty, goesOn⟩ := cuttable
      refine ⟨rfl, opened, limit, empty, ?_⟩
      simp only [readDriver, Reading.extend, goesOn more closed]

theorem Stack.tidy_empty {stack : Stack Frame} (empty : stack.scratch = #[]) : stack.Tidy := by
  obtain ⟨frames, fresh, limit, scratch⟩ := stack
  cases empty
  cases frames with
  | nil => trivial
  | cons top rest => exact top.tidy_empty

/-- What a run comes to with more input, if it ends in a given way without. -/
def CutsRun (schema : Schema) (shape : Shape) (limit : Nat) (more : List UInt8) (closed : Bool)
    (run : Run Reading Frame ParseError)
    (extended : Run Reading Frame ParseError → Prop) : Prop :=
  match run.outcome with
  | .failed _ => ∃ run', extended run' ∧ Alike run run'
  | .done =>
    run.context.input.closed = false ∧ run.context.input.limit = limit ∧
      extended { run with context := run.context.extend more closed }
  | .paused =>
    run.context.input = ⟨[], limit, false⟩ ∧ run.stack.Tidy ∧
      ∀ run', Runs (readDriver schema shape) ⟨⟨more, limit, closed⟩, run.context.value⟩
          run.stack run' →
        ∃ run'', extended run'' ∧ Alike run' run''
  | .stalled => True

theorem CutsRun.mono {limit : Nat} {more : List UInt8} {closed : Bool}
    {run : Run Reading Frame ParseError} {extended extended' : Run Reading Frame ParseError → Prop}
    (cuts : CutsRun schema shape limit more closed run extended)
    (more' : ∀ run', extended run' → extended' run') :
    CutsRun schema shape limit more closed run extended' := by
  unfold CutsRun at cuts ⊢
  split at cuts
  · obtain ⟨run', holds, alike⟩ := cuts
    exact ⟨run', more' run' holds, alike⟩
  · obtain ⟨opened, limitEq, holds⟩ := cuts
    exact ⟨opened, limitEq, more' _ holds⟩
  · obtain ⟨used, neat, goesOn⟩ := cuts
    refine ⟨used, neat, fun run' runs' => ?_⟩
    obtain ⟨run'', holds, alike⟩ := goesOn run' runs'
    exact ⟨run'', more' run'' holds, alike⟩
  · trivial

/-- A run can be cut. -/
theorem Runs.cut {stack : Stack Frame} {run : Run Reading Frame ParseError}
    (runs : Runs (readDriver schema shape) reading stack run)
    (opened : reading.input.closed = false) (neat : stack.Tidy) (more : List UInt8)
    (closed : Bool) :
    CutsRun schema shape reading.input.limit more closed run
      (Runs (readDriver schema shape) (reading.extend more closed) stack) := by
  induction runs with
  | empty => exact ⟨opened, rfl, .empty⟩
  | fail resumed =>
    obtain ⟨kept, failed⟩ := cutsTurn_of_resume opened neat resumed more closed
    exact ⟨_, .fail failed, rfl, kept, rfl⟩
  | pause resumed =>
    obtain ⟨-, used, neat, goesOn⟩ := cutsTurn_of_resume opened neat resumed more closed
    refine ⟨used, neat, fun run' runs' => ?_⟩
    obtain ⟨run'', runs'', alike⟩ := (runs'.transfer goesOn.symm).refresh _
    exact ⟨run'', runs'', alike.symm⟩
  | refuse resumed pushed =>
    obtain ⟨-, -, -, -, called⟩ := cutsTurn_of_resume opened neat resumed more closed
    exact ⟨_, .refuse called pushed, rfl, rfl, rfl⟩
  | call resumed pushed goesOn ih =>
    obtain ⟨-, opened, limit, empty, called⟩ :=
      cutsTurn_of_resume opened neat resumed more closed
    have after := ih opened (Stack.tidy_empty (by rw [Stack.push_eq pushed, empty]))
    rw [limit] at after
    exact after.mono fun _ => .call called pushed
  | reject resumed handed =>
    obtain ⟨-, -, -, -, completed⟩ := cutsTurn_of_resume opened neat resumed more closed
    exact ⟨_, .reject completed (Stack.handOver_extend handed more closed), rfl, rfl, rfl⟩
  | complete resumed handed goesOn ih =>
    obtain ⟨-, opened, limit, empty, completed⟩ :=
      cutsTurn_of_resume opened neat resumed more closed
    have handed' := Stack.handOver_extend handed more closed
    obtain ⟨input, scratch⟩ := Stack.handOver_frame handed
    have after := ih (input ▸ opened) (Stack.tidy_empty (scratch.trans empty))
    rw [input, limit] at after
    exact after.mono fun _ => .complete completed handed'

end IncrementalJson
