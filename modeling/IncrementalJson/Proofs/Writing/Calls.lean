import IncrementalJson.Proofs.Stack.Counted
import IncrementalJson.Proofs.Writing.Buffers

/-!
# Calls of a generator

A call of a generator hands out scratch bytes alone, or runs the emitters, and that
run stops.  It fills its buffer, fails or finishes the text, and so collecting a
text in pieces ends as well.
-/

set_option autoImplicit false

namespace IncrementalJson

namespace Generator

def settle (schema : Schema) (produced : Nat) (run : Run Output Emitter GenerateError) :
    Generator × Except GenerateError (List UInt8) :=
  let bytes := run.context.bytes.toList
  let generator : Generator := ⟨schema, run.stack, produced, none⟩
  match run.outcome with
  | .failed error => (generator.fail error, .error error)
  | .stalled => (generator.fail (.unexpected .stalled), .error (.unexpected .stalled))
  | _ => ({ generator with produced := produced + bytes.length }, .ok bytes)

theorem settle_eq_ok {schema : Schema} {produced : Nat} {run : Run Output Emitter GenerateError}
    {later : Generator} {bytes : List UInt8}
    (settled : settle schema produced run = (later, .ok bytes)) :
    later.stack = run.stack ∧ later.schema = schema ∧ bytes = run.context.bytes.toList ∧
      ∀ error, run.outcome ≠ .failed error := by
  obtain ⟨context, stack, outcome⟩ := run
  cases outcome with
  | done | paused =>
    cases settled
    exact ⟨rfl, rfl, rfl, nofun⟩
  | failed | stalled => cases settled

/-- How a call comes to its end: the scratch bytes fill the buffer or are all there is, or else
the loop over the emitters stops within so many turns. -/
def Stops (generator : Generator) (size most : Nat) : Prop :=
  let (pending, spill) := generator.stack.scratch.drain size
  if generator.stack.isEmpty || !spill.isEmpty then
    generator.generate size =
      ({ generator with
          stack := { generator.stack with scratch := spill }
          produced := generator.produced + pending.length }, .ok pending)
  else
    ∃ run turns, Stack.Stops (writeDriver generator.schema)
        { size, bytes := pending.toArray } { generator.stack with scratch := spill } run turns ∧
      turns ≤ most ∧
      generator.generate size = settle generator.schema generator.produced run

theorem generate_stops {generator : Generator} {text : Transcript}
    (remaining : generator.Remaining text) (size : Nat) :
    generator.Stops size (size + generator.stack.depth + 1) := by
  obtain ⟨schema, ⟨frames, fresh, limit, scratch⟩, produced, error⟩ := generator
  obtain ⟨noError, waiting, -⟩ := remaining
  cases noError
  rcases drained : scratch.drain size with ⟨pending, spill⟩
  simp only [Stops, drained, generate, Stack.isEmpty]
  split
  · rfl
  · obtain ⟨run, turns, stops, few⟩ := Stack.exists_stops (writeDriver_progress schema)
      { size, bytes := pending.toArray } ⟨frames, fresh, limit, spill⟩ waiting
    have light := weights_le frames
    have notStalled := Stack.run_not_stalled (writeDriver_progress schema)
      (size + frames.length + 1) { size, bytes := pending.toArray } ⟨frames, fresh, limit, spill⟩
      waiting
      (by
        simp only [Output.left, Stack.weight]
        omega)
    refine ⟨run, turns, stops, ?_, ?_⟩
    · simp only [Output.left, Stack.weight, Stack.depth] at few ⊢
      omega
    · rw [Stack.run_eq_of_runs stops.runs _ notStalled]
      rfl

/-- A generator either reports an error forever, or goes on with what remains. -/
theorem failed_or_remaining (schema : Schema) (shape : Shape) (value : Value)
    (limit : Option Nat) (sizes : List Nat) :
    let generator := ((create schema shape value limit).fill sizes).1
    (∃ error, generator.error = some error) ∨ ∃ text, generator.Remaining text := by
  rcases filling : (create schema shape value limit).fill sizes with ⟨last, handed⟩
  cases begins : value.transcript schema limit 0 shape with
  | error error =>
    obtain ⟨failed, -⟩ := error_create begins
    rw [fill_of_error failed] at filling
    cases filling
    exact .inl ⟨error, failed⟩
  | ok text =>
    obtain ⟨remaining, -⟩ := remaining_create begins
    obtain ⟨-, -, goesOn, fails⟩ := fill_remaining remaining sizes filling
    by_cases enough : text.error = none ∨ sizes.sum ≤ text.bytes.length
    · exact .inr ⟨_, (goesOn enough).2⟩
    · rw [not_or, Nat.not_le] at enough
      obtain ⟨error, failed⟩ := Option.ne_none_iff_exists'.mp enough.1
      exact .inl ⟨error, fails error failed enough.2⟩

theorem full_or_finished {generator later : Generator} {text : Transcript} {size : Nat}
    {bytes : List UInt8} (remaining : generator.Remaining text)
    (generated : generator.generate size = (later, .ok bytes)) :
    later.isFinished ∨ bytes.length = size := by
  obtain ⟨rfl, reached, remaining', -⟩ := generate_hands remaining generated
  by_cases enough : size ≤ text.bytes.length
  · exact .inr (by rw [List.length_take]; omega)
  · have none' : text.error = none := reached.resolve_right enough
    left
    rw [isFinished_iff remaining', Transcript.drop, none',
      List.drop_eq_nil_of_le (Nat.le_of_not_le enough)]
    rfl

/-- The loop that collects what is still to come, in pieces of `size` bytes: after so many calls
it ends like this. -/
inductive Collects (size : Nat) : Generator → Nat → Except GenerateError (List UInt8) → Prop
  | finished {generator : Generator} (finished : generator.isFinished) :
      Collects size generator 0 (.ok [])
  | fails {generator later : Generator} {error : GenerateError}
      (unfinished : generator.isFinished = false)
      (generated : generator.generate size = (later, .error error)) :
      Collects size generator 1 (.error error)
  | more {generator later : Generator} {calls : Nat} {bytes : List UInt8}
      {result : Except GenerateError (List UInt8)}
      (unfinished : generator.isFinished = false)
      (generated : generator.generate size = (later, .ok bytes))
      (goesOn : Collects size later calls result) :
      Collects size generator (calls + 1) (result.map (bytes ++ ·))

theorem collects_of_error {generator : Generator} {error : GenerateError}
    (failed : generator.error = some error) (size : Nat) :
    Collects size generator 1 (.error error) :=
  .fails (isFinished_eq_false_of_error failed) (generate_of_error failed size)

theorem outcome_drop (text : Transcript) (size : Nat) :
    (text.drop size).outcome.map (text.bytes.take size ++ ·) = text.outcome := by
  obtain ⟨bytes, error⟩ := text
  cases error with
  | some error => rfl
  | none => exact congrArg Except.ok (List.take_append_drop size bytes)

theorem collects_remaining {size : Nat} (most : Nat) {generator : Generator} {text : Transcript}
    (remaining : generator.Remaining text) (short : text.bytes.length < most * size) :
    ∃ calls, calls ≤ most ∧ Collects size generator calls text.outcome := by
  induction most generalizing generator text with
  | zero => omega
  | succ most ih =>
    by_cases finished : generator.isFinished
    · have nothing := (isFinished_iff remaining).mp finished
      exact ⟨0, Nat.zero_le _, nothing ▸ .finished finished⟩
    rw [Bool.not_eq_true] at finished
    rcases generated : generator.generate size with ⟨later, error | bytes⟩
    · have failed := (generate_hands remaining generated).1
      refine ⟨1, Nat.le_add_left _ _, ?_⟩
      rw [Transcript.outcome, failed]
      exact .fails finished generated
    · obtain ⟨rfl, -, remaining', -⟩ := generate_hands remaining generated
      rw [← outcome_drop text size]
      rcases full_or_finished remaining generated with ends | full
      · have nothing := (isFinished_iff remaining').mp ends
        refine ⟨1, Nat.le_add_left _ _, .more finished generated ?_⟩
        rw [nothing]
        exact .finished ends
      · have fewer : (text.drop size).bytes.length < most * size := by
          rw [List.length_take] at full
          rw [Nat.succ_mul] at short
          rw [Transcript.bytes_drop, List.length_drop]
          omega
        obtain ⟨calls, few, goesOn⟩ := ih remaining' fewer
        exact ⟨calls + 1, Nat.succ_le_succ few, .more finished generated goesOn⟩

theorem collects_writeBytes (schema : Schema) (shape : Shape) (value : Value) :
    ∃ calls, calls ≤ value.extent schema.nameBound / pieceSize + 1 ∧
      Collects pieceSize (create schema shape value none) calls
        (writeBytes schema shape value) := by
  rw [writeBytes_eq]
  cases begins : value.transcript schema none 0 shape with
  | error error =>
    obtain ⟨failed, -⟩ := error_create begins
    exact ⟨1, Nat.le_add_left _ _, collects_of_error failed pieceSize⟩
  | ok text =>
    have short := value.length_transcript_le begins
    have enough : text.bytes.length <
        (value.extent schema.nameBound / pieceSize + 1) * pieceSize := by
      rw [pieceSize]
      omega
    exact collects_remaining _ (remaining_create begins).1 enough

end Generator

end IncrementalJson
