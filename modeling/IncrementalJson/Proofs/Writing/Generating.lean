import IncrementalJson.Proofs.Writing.Extent
import IncrementalJson.Proofs.Writing.Progress

/-!
# What generators write

A turn of an emitter takes bytes off the front of the transcript of its steps.
From this follows the same for a run of a stack of emitters and the transcript of
its frames, and for one call of a generator and the transcript of what remains to
be handed out.  Collecting the text of a value comes to the transcript of the
value.
-/

set_option autoImplicit false

namespace IncrementalJson

open Transcript

variable {schema : Schema} {limit : Option Nat}

/-! ## One turn -/

namespace Emitter

def Turns (schema : Schema) (limit : Option Nat) (depth : Nat) (steps : List EmitStep)
    (out : Output) (steps' : List EmitStep) (out' : Output) :
    Except GenerateError (Step Emitter) → Prop
  | .ok .complete =>
    ∃ bytes, out.Wrote out' bytes ∧ stepsTranscript schema limit depth steps = whole bytes
  | .ok .pause => out'.isFull ∧ ∃ bytes, out.Wrote out' bytes ∧
      stepsTranscript schema limit depth steps =
        whole bytes ++ stepsTranscript schema limit depth steps'
  | .ok (.call child) => ∃ front lead shape value, out.Wrote out' (front ++ lead) ∧
      out.Reaches front ∧ Starts schema shape value child ∧
      stepsTranscript schema limit depth steps = whole front ++
        (led lead (value.transcript schema limit depth shape) ++
          stepsTranscript schema limit depth steps')
  | .error error =>
    ∃ front, out.Reaches front ∧ stepsTranscript schema limit depth steps = ⟨front, some error⟩

theorem turns_token {depth : Nat} {bytes : List UInt8} {rest steps' : List EmitStep}
    {out out' : Output} {result : Except GenerateError (Step Emitter)}
    (turns : Turns schema limit depth rest (out.token bytes) steps' out' result) :
    Turns schema limit depth (.token bytes :: rest) out steps' out' result := by
  have wrote := out.wrote_token bytes
  have first : stepsTranscript schema limit depth (.token bytes :: rest) =
      whole bytes ++ stepsTranscript schema limit depth rest := rfl
  cases result with
  | error error =>
    obtain ⟨front, reaches, text⟩ := turns
    refine ⟨bytes ++ front, wrote.reaches reaches, ?_⟩
    rw [first, text]
    rfl
  | ok step =>
    cases step with
    | complete =>
      obtain ⟨more, wrote', text⟩ := turns
      refine ⟨bytes ++ more, wrote.trans wrote', ?_⟩
      rw [first, text, whole_append_whole]
    | pause =>
      obtain ⟨full, more, wrote', text⟩ := turns
      refine ⟨full, bytes ++ more, wrote.trans wrote', ?_⟩
      rw [first, text, ← Transcript.append_assoc, whole_append_whole]
    | call child =>
      obtain ⟨front, lead, shape, value, wrote', reaches, starts, text⟩ := turns
      refine ⟨bytes ++ front, lead, shape, value, ?_, wrote.reaches reaches, starts, ?_⟩
      · rw [List.append_assoc]
        exact wrote.trans wrote'
      · rw [first, text, ← Transcript.append_assoc, whole_append_whole]

theorem turns_call {depth : Nat} {out : Output} (notFull : out.isFull = false)
    (lead : List UInt8) (shape : Shape) (value : Value) (rest : List EmitStep) :
    Turns schema limit depth (.call lead shape value :: rest) out rest (out.token lead)
      ((start schema shape value).map .call) := by
  have reaches := Output.reaches_of_not_full notFull
  cases started : start schema shape value with
  | error error =>
    refine ⟨[], reaches, ?_⟩
    rw [stepsTranscript, EmitStep.transcript, transcript_of_start_error started]
    rfl
  | ok child =>
    exact ⟨[], lead, shape, value, out.wrote_token lead, reaches,
      (start_eq_ok_iff _ _ _ _).mp started, rfl⟩

theorem advance_turns {depth : Nat} (steps : List EmitStep) (out : Output)
    {steps' : List EmitStep} {out' : Output} {result : Except GenerateError (Step Emitter)}
    (advanced : advance schema steps out = (steps', out', result)) :
    Turns schema limit depth steps out steps' out' result := by
  induction steps generalizing out with
  | nil =>
    cases advanced
    exact ⟨[], Output.wrote_nothing _, rfl⟩
  | cons step rest ih =>
    rw [advance.eq_def] at advanced
    simp only at advanced
    split at advanced
    · rename_i full
      cases advanced
      exact ⟨full, [], Output.wrote_nothing _, rfl⟩
    · rename_i notFull
      rw [Bool.not_eq_true] at notFull
      cases step with
      | token bytes => exact turns_token (ih (out.token bytes) advanced)
      | call lead shape value =>
        cases advanced
        exact turns_call notFull lead shape value steps'
      | fail lead error =>
        cases advanced
        exact ⟨[], Output.reaches_of_not_full notFull, rfl⟩

end Emitter

theorem resume_turns (limit : Option Nat) (depth : Nat) {out out' : Output} {emitter emitter' : Emitter}
    {scratch scratch' : Scratch} {result : Except GenerateError (Step Emitter)}
    (resumed : (writeDriver schema).resume out emitter scratch =
      ⟨out', emitter', scratch', result⟩) :
    Emitter.Turns schema limit depth emitter.steps { out with spill := scratch } emitter'.steps
      { out' with spill := scratch' } result := by
  rcases turn : emitter.resume schema { out with spill := scratch } with ⟨emitter'', out'', result'⟩
  simp only [writeDriver, turn] at resumed
  cases resumed
  obtain ⟨steps, advanced, left⟩ := Emitter.advance_of_resume turn
  have turns : Emitter.Turns schema limit depth emitter.steps _ steps _ result :=
    Emitter.advance_turns _ _ advanced
  cases result with
  | error error => exact turns
  | ok step =>
    cases step with
    | complete => exact turns
    | pause | call =>
      rw [left (by rintro ⟨⟩)]
      exact turns

/-! ## One run -/

def framesTranscript (schema : Schema) (limit : Option Nat) : List Emitter → Transcript
  | [] => whole []
  | top :: rest =>
    stepsTranscript schema limit (rest.length + 1) top.steps ++ framesTranscript schema limit rest

def Ends (schema : Schema) (limit : Option Nat) (frames : List Emitter) (out : Output)
    (run : Run Output Emitter GenerateError) : Prop :=
  let out' : Output := { run.context with spill := run.stack.scratch }
  match run.outcome with
  | .done => run.stack.frames = [] ∧ run.stack.limit = limit ∧ ∃ bytes, out.Wrote out' bytes ∧
      framesTranscript schema limit frames = whole bytes
  | .paused => out'.isFull ∧ run.stack.limit = limit ∧ ∃ bytes, out.Wrote out' bytes ∧
      framesTranscript schema limit frames =
        whole bytes ++ framesTranscript schema limit run.stack.frames
  | .failed error =>
    ∃ front, out.Reaches front ∧ framesTranscript schema limit frames = ⟨front, some error⟩
  | .stalled => False

theorem ends_behind {frames frames' : List Emitter} {out mid : Output} {lead : List UInt8}
    {run : Run Output Emitter GenerateError} (wrote : out.Wrote mid lead)
    (first : framesTranscript schema limit frames =
      whole lead ++ framesTranscript schema limit frames')
    (ends : Ends schema limit frames' mid run) : Ends schema limit frames out run := by
  obtain ⟨context, stack, outcome⟩ := run
  cases outcome with
  | done =>
    obtain ⟨empty, same, bytes, wrote', text⟩ := ends
    refine ⟨empty, same, lead ++ bytes, wrote.trans wrote', ?_⟩
    rw [first, text, whole_append_whole]
  | paused =>
    obtain ⟨full, same, bytes, wrote', text⟩ := ends
    refine ⟨full, same, lead ++ bytes, wrote.trans wrote', ?_⟩
    rw [first, text, ← Transcript.append_assoc, whole_append_whole]
  | failed error =>
    obtain ⟨front, reaches, text⟩ := ends
    refine ⟨lead ++ front, wrote.reaches reaches, ?_⟩
    rw [first, text]
    rfl
  | stalled => exact ends

theorem transcript_of_pushed {shape : Shape} {value : Value} {frames : List Emitter}
    {emitter : Emitter} {fresh : Nat} {scratch : Scratch} {stack : Stack Emitter}
    (starts : Starts schema shape value emitter)
    (pushed_ : Stack.push ⟨frames, fresh, limit, scratch⟩ emitter = .ok stack) :
    value.transcript schema limit frames.length shape =
      .ok (stepsTranscript schema limit (frames.length + 1) emitter.steps) := by
  rw [transcript_of_starts starts]
  cases limit with
  | none => rfl
  | some limit =>
    simp only [Stack.push] at pushed_
    split at pushed_
    · cases pushed_
    · rename_i room
      exact if_neg room

theorem transcript_of_refused {shape : Shape} {value : Value} {frames : List Emitter}
    {emitter : Emitter} {fresh reached : Nat} {scratch : Scratch}
    (starts : Starts schema shape value emitter)
    (refused : Stack.push ⟨frames, fresh, limit, scratch⟩ emitter = .error reached) :
    value.transcript schema limit frames.length shape = .error (.maxDepthReached reached) := by
  rw [transcript_of_starts starts]
  cases limit with
  | none => cases refused
  | some limit =>
    simp only [Stack.push] at refused
    split at refused
    · rename_i full
      cases refused
      exact if_pos full
    · cases refused

theorem run_ends {out : Output} {stack : Stack Emitter}
    {run : Run Output Emitter GenerateError} (runs : Runs (writeDriver schema) out stack run) :
    Ends schema stack.limit stack.frames { out with spill := stack.scratch } run := by
  induction runs with
  | empty => exact ⟨rfl, rfl, [], Output.wrote_nothing _, rfl⟩
  | @fail out out' top top' rest fresh limit scratch scratch' error resumed =>
    obtain ⟨front, reaches, text⟩ := resume_turns limit (rest.length + 1) resumed
    refine ⟨front, reaches, ?_⟩
    rw [framesTranscript, text]
    rfl
  | @pause out out' top top' rest fresh limit scratch scratch' resumed =>
    obtain ⟨full, bytes, wrote, text⟩ :=
      resume_turns limit (rest.length + 1) resumed
    refine ⟨full, rfl, bytes, wrote, ?_⟩
    rw [framesTranscript, framesTranscript, text, Transcript.append_assoc]
  | @refuse out out' top top' child rest fresh reached limit scratch scratch' resumed refused =>
    obtain ⟨front, lead, shape, value, wrote, reaches, starts, text⟩ :=
      resume_turns limit (rest.length + 1) resumed
    refine ⟨front, reaches, ?_⟩
    have begins : value.transcript schema limit (rest.length + 1) shape =
        .error (.maxDepthReached reached) := transcript_of_refused starts refused
    rw [framesTranscript, text, begins]
    simp only [led, failed_append, whole_append, List.append_nil]
    rfl
  | @call out out' top top' child rest fresh limit scratch scratch' stack run resumed pushed_ _
      ih =>
    obtain ⟨front, lead, shape, value, wrote, reaches, starts, text⟩ :=
      resume_turns limit (rest.length + 1) resumed
    have begins : value.transcript schema limit (rest.length + 1) shape =
        .ok (stepsTranscript schema limit (rest.length + 2) child.steps) :=
      transcript_of_pushed starts pushed_
    rw [Stack.push_eq pushed_] at ih
    refine ends_behind wrote ?_ ih
    rw [framesTranscript, framesTranscript, framesTranscript, text, begins]
    simp only [led, Transcript.append_assoc, ← whole_append_whole, List.length_cons]
  | @reject out out' out'' top top' rest fresh limit scratch scratch' stack error resumed handed =>
    cases rest <;> cases handed
  | @complete out out' out'' top top' rest fresh limit scratch scratch' stack run resumed handed _
      ih =>
    have same : out'' = out' ∧ stack = ⟨rest, fresh - 1, limit, scratch'⟩ := by
      cases rest <;> cases handed <;> exact ⟨rfl, rfl⟩
    obtain ⟨rfl, rfl⟩ := same
    obtain ⟨bytes, wrote, text⟩ := resume_turns limit (rest.length + 1) resumed
    refine ends_behind wrote ?_ ih
    rw [framesTranscript, text]

/-! ## One call -/

namespace Generator

/-- No error came up, and this is the transcript of what remains to be handed out. -/
structure Remaining (generator : Generator) (text : Transcript) : Prop where
  noError : generator.error = none
  waiting : ∀ emitter ∈ generator.stack.frames, emitter.Waiting
  same : text = whole generator.stack.scratch.toList ++
    framesTranscript generator.schema generator.stack.limit generator.stack.frames

theorem weights_le (frames : List Emitter) :
    (frames.map Emitter.weight).sum ≤ frames.length := by
  induction frames with
  | nil => exact Nat.le_refl 0
  | cons emitter frames ih =>
    have light : emitter.weight ≤ 1 := Emitter.stepsWeight_le emitter.steps
    simp only [List.map_cons, List.sum_cons, List.length_cons]
    omega

/-- What a run that did not fail put into the buffer is the front of the transcript, as much of
it as the buffer takes. -/
theorem remaining_of_run {frames : List Emitter} {fresh size : Nat} {scratch : Scratch}
    (waiting : ∀ emitter ∈ frames, emitter.Waiting) (short : scratch.size ≤ size)
    {run : Run Output Emitter GenerateError}
    (runs : Runs (writeDriver schema) { size, bytes := scratch } ⟨frames, fresh, limit, #[]⟩ run)
    (succeeds : ∀ error, run.outcome ≠ .failed error) {text : Transcript}
    (same : text = whole scratch.toList ++ framesTranscript schema limit frames)
    (produced : Nat) :
    run.context.bytes.toList = text.bytes.take size ∧
      (text.error = none ∨ size ≤ text.bytes.length) ∧
      Remaining ⟨schema, run.stack, produced, none⟩ (text.drop size) := by
  have ends := run_ends runs
  have waiting' := Stack.fits_of_runs (writeDriver_progress schema) runs waiting succeeds
  have begun : ({ size, bytes := scratch } : Output).Level := by
    refine ⟨?_, fun spilled => absurd rfl spilled⟩
    simpa [Output.written] using short
  obtain ⟨context, stack, outcome⟩ := run
  have parts (bytes : List UInt8)
      (wrote : Output.Wrote { size, bytes := scratch } { context with spill := stack.scratch }
        bytes) :
      context.bytes.toList = (scratch.toList ++ bytes).take size ∧
        stack.scratch.toList = (scratch.toList ++ bytes).drop size ∧
        (({ context with spill := stack.scratch } : Output).isFull →
          size ≤ (scratch.toList ++ bytes).length) := by
    have level := wrote.level begun
    have start := wrote.start
    have room : context.size = size := wrote.size
    have total : ({ context with spill := stack.scratch } : Output).total =
        scratch.toList ++ bytes := by
      rw [wrote.total]
      simp [Output.total]
    obtain ⟨front, back⟩ := level.bytes_eq start
    rw [total, room] at front back
    refine ⟨front, back, ?_⟩
    intro full
    have filled := level.size_le start full
    rw [total] at filled
    exact Nat.le_trans (Nat.le_of_eq room.symm) filled
  cases outcome with
  | done =>
    obtain ⟨empty, sameLimit, bytes, wrote, behind⟩ := ends
    obtain ⟨front, back, -⟩ := parts bytes wrote
    rw [behind, whole_append_whole] at same
    subst same
    refine ⟨front, .inl rfl, rfl, waiting', ?_⟩
    simp only at empty
    rw [back, empty]
    exact (append_whole_nil _).symm
  | paused =>
    obtain ⟨full, sameLimit, bytes, wrote, behind⟩ := ends
    obtain ⟨front, back, filled⟩ := parts bytes wrote
    rw [behind, ← Transcript.append_assoc, whole_append_whole] at same
    subst same
    refine ⟨?_, .inr ?_, rfl, waiting', ?_⟩
    · rw [front, whole_append, List.take_append_of_le_length (filled full)]
    · rw [whole_append, List.length_append]
      exact Nat.le_trans (filled full) (Nat.le_add_right _ _)
    · rw [drop_whole_append (filled full), back, sameLimit]
  | failed error => exact absurd rfl (succeeds error)
  | stalled => exact ends.elim

/-- What one call of a generator comes to: it hands out the front of what remains, unless its
buffer reaches behind an error, which is then what it reports. -/
def Hands (generator : Generator) (text : Transcript) (size : Nat) (later : Generator) :
    Except GenerateError (List UInt8) → Prop
  | .ok bytes => bytes = text.bytes.take size ∧ (text.error = none ∨ size ≤ text.bytes.length) ∧
      later.Remaining (text.drop size) ∧ later.produced = generator.produced + bytes.length
  | .error error => text.error = some error ∧ text.bytes.length < size ∧
      later.error = some error ∧ later.produced = generator.produced

theorem generate_hands {generator later : Generator} {text : Transcript}
    (remaining : generator.Remaining text) {size : Nat}
    {result : Except GenerateError (List UInt8)}
    (generated : generator.generate size = (later, result)) :
    generator.Hands text size later result := by
  obtain ⟨schema, ⟨frames, fresh, limit, scratch⟩, produced, error⟩ := generator
  obtain ⟨noError, waiting, same⟩ := remaining
  cases noError
  simp only at waiting same
  rcases drained : scratch.drain size with ⟨pending, spill⟩
  simp only [generate, drained] at generated
  cases drained
  split at generated
  · -- the scratch bytes fill the buffer, or there is nothing else
    rename_i early
    cases generated
    by_cases enough : size ≤ scratch.toList.length
    · refine ⟨?_, .inr ?_, ⟨rfl, waiting, ?_⟩, rfl⟩
      · rw [same, whole_append, List.take_append_of_le_length enough]
      · rw [same, whole_append, List.length_append]
        exact Nat.le_trans enough (Nat.le_add_right _ _)
      · rw [same, drop_whole_append enough]
    · have nothing : scratch.toList.drop size = [] :=
        List.drop_eq_nil_of_le (Nat.le_of_not_le enough)
      have none' : frames = [] := by simpa [nothing] using early
      subst none'
      rw [framesTranscript, append_whole_nil] at same
      subst same
      exact ⟨rfl, .inl rfl, ⟨rfl, waiting, (append_whole_nil _).symm⟩, rfl⟩
  · rename_i early
    simp only [Bool.or_eq_true, not_or] at early
    have nothing : scratch.toList.drop size = [] := by simpa using early.2
    have short : scratch.size ≤ size := by simpa using List.drop_eq_nil_iff.mp nothing
    have pending : (scratch.toList.take size).toArray = scratch := by
      rw [List.take_of_length_le (by simpa using short)]
    rw [pending, nothing] at generated
    have light := weights_le frames
    have notStalled := Stack.run_not_stalled (writeDriver_progress schema)
      (size + frames.length + 1) { size, bytes := scratch } ⟨frames, fresh, limit, #[]⟩ waiting
      (by
        simp only [Output.left, Stack.weight]
        omega)
    have runs := Stack.runs_run _ _ _ _ notStalled
    have handed := fun succeeds => remaining_of_run waiting short runs succeeds same
    have ends := run_ends runs
    generalize Stack.run (writeDriver schema) (size + frames.length + 1)
      { size, bytes := scratch } ⟨frames, fresh, limit, #[]⟩ = run at *
    rw [Ends] at ends
    split at generated
    · rename_i error failed
      cases generated
      rw [failed] at ends
      obtain ⟨front, reaches, behind⟩ := ends
      rw [same, behind]
      refine ⟨rfl, ?_, rfl, rfl⟩
      simpa [Output.Reaches, Output.total, whole_append] using reaches
    · rename_i stalled
      exact absurd stalled notStalled
    · rename_i notFailed _
      cases generated
      obtain ⟨front, reached, remaining⟩ := handed notFailed (produced + run.context.bytes.toList.length)
      exact ⟨front, reached, remaining, rfl⟩

/-! ## The end -/

theorem stepsTranscript_ne_of_leading {depth : Nat} {steps : List EmitStep}
    (leading : Emitter.Leading steps) : stepsTranscript schema limit depth steps ≠ whole [] := by
  intro nothing
  cases steps with
  | nil => exact leading
  | cons step rest =>
    obtain ⟨front, more, here, -, parts⟩ := append_eq_whole nothing
    obtain ⟨rfl, -⟩ := List.append_eq_nil_iff.mp parts.symm
    apply leading
    cases step with
    | token bytes =>
      cases here
      rfl
    | call lead shape value =>
      obtain ⟨inner, -, parts⟩ := led_eq_whole here
      exact (List.append_eq_nil_iff.mp parts.symm).1
    | fail lead error => cases here

/-- An emitter that waits has something left to hand out, if only an error. -/
theorem stepsTranscript_ne_of_waiting {depth : Nat} {emitter : Emitter}
    (waiting : emitter.Waiting) : stepsTranscript schema limit depth emitter.steps ≠ whole [] := by
  obtain ⟨steady, more⟩ := waiting
  generalize emitter.steps = steps at steady more ⊢
  cases steps with
  | nil => exact absurd rfl more
  | cons step rest =>
    cases step with
    | token bytes => exact stepsTranscript_ne_of_leading (Emitter.Leading.eq_def _ ▸ steady.1)
    | call lead shape value =>
      intro nothing
      obtain ⟨front, behind, -, rest', parts⟩ := append_eq_whole nothing
      obtain ⟨-, rfl⟩ := List.append_eq_nil_iff.mp parts.symm
      exact stepsTranscript_ne_of_leading steady.1 rest'
    | fail lead error => nofun

theorem isFinished_iff {generator : Generator} {text : Transcript}
    (remaining : generator.Remaining text) : generator.isFinished ↔ text = whole [] := by
  obtain ⟨schema, ⟨frames, fresh, limit, scratch⟩, produced, error⟩ := generator
  obtain ⟨noError, waiting, same⟩ := remaining
  cases noError
  simp only at waiting same
  simp only [isFinished, Stack.isEmpty, Option.isNone_none, Bool.true_and, Bool.and_eq_true,
    List.isEmpty_iff, Array.isEmpty_iff]
  constructor
  · rintro ⟨rfl, rfl⟩
    exact same
  · intro nothing
    rw [nothing] at same
    obtain ⟨front, behind, pending, left, parts⟩ := append_eq_whole same.symm
    obtain ⟨rfl, rfl⟩ := List.append_eq_nil_iff.mp parts.symm
    cases frames with
    | nil =>
      refine ⟨rfl, ?_⟩
      injection pending with pending
      exact Array.toList_eq_nil_iff.mp pending
    | cons top rest =>
      obtain ⟨front, behind, first, -, parts⟩ := append_eq_whole left
      obtain ⟨rfl, -⟩ := List.append_eq_nil_iff.mp parts.symm
      exact absurd first (stepsTranscript_ne_of_waiting (waiting top List.mem_cons_self))

theorem isFinished_eq_false_of_error {generator : Generator} {error : GenerateError}
    (failed : generator.error = some error) : generator.isFinished = false := by
  simp [isFinished, failed]

theorem generate_of_error {generator : Generator} {error : GenerateError}
    (failed : generator.error = some error) (size : Nat) :
    generator.generate size = (generator, .error error) := by
  obtain ⟨schema, stack, produced, error⟩ := generator
  cases failed
  rfl

/-! ## All calls -/

theorem remaining_create {shape : Shape} {value : Value} {text : Transcript}
    (begins : value.transcript schema limit 0 shape = .ok text) :
    (create schema shape value limit).Remaining text ∧
      (create schema shape value limit).produced = 0 := by
  cases started : Emitter.start schema shape value with
  | error error =>
    rw [transcript_of_start_error started] at begins
    cases begins
  | ok emitter =>
    have starts := (Emitter.start_eq_ok_iff _ _ _ _).mp started
    rw [create, started]
    cases pushed_ : Stack.push ⟨[], 0, limit, #[]⟩ emitter with
    | error reached =>
      have refused : value.transcript schema limit 0 shape = .error (.maxDepthReached reached) :=
        transcript_of_refused starts pushed_
      rw [refused] at begins
      cases begins
    | ok stack =>
      have begins' : value.transcript schema limit 0 shape =
          .ok (stepsTranscript schema limit 1 emitter.steps) :=
        transcript_of_pushed starts pushed_
      rw [begins'] at begins
      cases begins
      simp only [pushed_]
      rw [Stack.push_eq pushed_]
      refine ⟨⟨rfl, ?_, ?_⟩, trivial⟩
      · intro emitter' among
        rw [List.mem_singleton.mp among]
        exact Emitter.waiting_start starts
      · simp only [framesTranscript, append_whole_nil]
        rfl

theorem error_create {shape : Shape} {value : Value} {error : GenerateError}
    (failed : value.transcript schema limit 0 shape = .error error) :
    (create schema shape value limit).error = some error ∧
      (create schema shape value limit).produced = 0 := by
  cases started : Emitter.start schema shape value with
  | error error' =>
    rw [transcript_of_start_error started] at failed
    cases failed
    rw [create, started]
    exact ⟨rfl, rfl⟩
  | ok emitter =>
    have starts := (Emitter.start_eq_ok_iff _ _ _ _).mp started
    rw [create, started]
    cases pushed_ : Stack.push ⟨[], 0, limit, #[]⟩ emitter with
    | error reached =>
      have refused : value.transcript schema limit 0 shape = .error (.maxDepthReached reached) :=
        transcript_of_refused starts pushed_
      rw [refused] at failed
      cases failed
      simp only [pushed_]
      exact ⟨rfl, rfl⟩
    | ok stack =>
      have begins : value.transcript schema limit 0 shape =
          .ok (stepsTranscript schema limit 1 emitter.steps) :=
        transcript_of_pushed starts pushed_
      rw [begins] at failed
      cases failed

theorem collect_remaining {size : Nat} (calls : Nat) {generator : Generator}
    {collected : Array UInt8} {text : Transcript} (remaining : generator.Remaining text)
    (enough : text = whole [] ∨ text.bytes.length < calls * size) :
    collect size calls collected generator =
      text.outcome.map fun bytes => collected ++ bytes.toArray := by
  induction calls generalizing generator collected text with
  | zero =>
    have nothing : text = whole [] := by
      rcases enough with nothing | enough
      · exact nothing
      · omega
    have finished := (isFinished_iff remaining).mpr nothing
    simp [collect, finished, nothing, Transcript.outcome, whole, Except.map]
  | succ calls ih =>
    by_cases finished : generator.isFinished
    · have nothing := (isFinished_iff remaining).mp finished
      simp [collect, finished, nothing, Transcript.outcome, whole, Except.map]
    · rw [collect, if_neg finished]
      have more : text.bytes.length < (calls + 1) * size := by
        rcases enough with nothing | enough
        · exact absurd ((isFinished_iff remaining).mpr nothing) finished
        · exact enough
      rw [Nat.succ_mul] at more
      rcases generated : generator.generate size with ⟨later, error | bytes⟩
      · obtain ⟨failed, -⟩ := generate_hands remaining generated
        simp [Transcript.outcome, failed, Except.map]
      · obtain ⟨rfl, reached, remaining', -⟩ := generate_hands remaining generated
        have enough' : text.drop size = whole [] ∨
            (text.drop size).bytes.length < calls * size := by
          rw [bytes_drop, List.length_drop]
          by_cases short : text.bytes.length ≤ size
          · rcases reached with none' | long
            · left
              rw [drop, List.drop_eq_nil_of_le short, none']
              rfl
            · right
              omega
          · right
            omega
        have rest := @ih later (collected ++ text.bytes.take size) _ remaining' enough'
        simp only [rest]
        cases failed : text.error with
        | some error => simp [Transcript.outcome, failed, Except.map]
        | none =>
          simp only [Transcript.outcome, failed, error_drop, bytes_drop, Except.map,
            Except.ok.injEq]
          apply Array.toList_inj.mp
          simp

end Generator

theorem writeBytes_eq (schema : Schema) (shape : Shape) (value : Value) :
    writeBytes schema shape value =
      (value.transcript schema none 0 shape).bind Transcript.outcome := by
  rw [writeBytes]
  cases begins : value.transcript schema none 0 shape with
  | error error =>
    obtain ⟨failed, -⟩ := Generator.error_create begins
    rw [Generator.collect, if_neg (by simp [Generator.isFinished_eq_false_of_error failed]),
      Generator.generate_of_error failed]
    rfl
  | ok text =>
    have short := value.length_transcript_le begins
    have enough : text.bytes.length <
        (value.extent schema.nameBound / pieceSize + 2) * pieceSize := by
      have here : pieceSize = 256 := rfl
      rw [here]
      omega
    rw [Generator.collect_remaining _ (Generator.remaining_create begins).1 (.inr enough)]
    simp only [Except.bind, Transcript.outcome]
    cases text.error with
    | none => simp [Except.map]
    | some error => rfl

theorem writeBytes_eq_ok_iff (schema : Schema) (shape : Shape) (value : Value)
    (bytes : List UInt8) :
    writeBytes schema shape value = .ok bytes ↔ Written schema shape value bytes := by
  rw [writeBytes_eq]
  constructor
  · intro collected
    cases begins : value.transcript schema none 0 shape with
    | error error =>
      rw [begins] at collected
      cases collected
    | ok text =>
      obtain ⟨text, error⟩ := text
      rw [begins] at collected
      cases error with
      | some error => cases collected
      | none =>
        cases collected
        exact written_of_transcript value begins
  · intro written
    rw [transcript_of_written written]
    rfl

end IncrementalJson
