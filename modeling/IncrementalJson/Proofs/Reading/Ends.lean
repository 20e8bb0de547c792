import IncrementalJson.Proofs.Reading.DepthLimit

/-!
# Where a value ends

A value is complete with its last byte, unless it is a number: whether a number
goes on is told by the byte behind it, or by the end of the document.  So a
document that may go on is read to its end exactly if it is accepted as it stands
and its last byte is not one of a number at its root.
-/

set_option autoImplicit false

namespace IncrementalJson

open Ascii

variable {schema : Schema} {shape : Shape}

def Value.Numeric : Value → Prop
  | .number _ => True
  | .held value | .present value => value.Numeric
  | _ => False

/-- The bytes are a number behind whitespace, with nothing behind it. -/
def EndsInNumber (bytes : List UInt8) : Prop :=
  ∃ (before : List Char) (literal : Literal), Blank before ∧
    bytes = Utf8.encode before ++ literal.bytes

def Input.opened (input : Input) : Input := { input with closed := false }

theorem Input.opened_extend_nil {input : Input} (opened : input.closed = false)
    (closed : Bool) : (input.extend [] closed).opened = input := by
  rw [Input.opened, extend, List.append_nil, ← opened]

/-! ## Values -/

@[simp] theorem Shape.numeric_wrap (shape : Shape) (value : Value) :
    (shape.wrap value).Numeric ↔ value.Numeric := by
  induction shape with
  | option item ih => exact ih
  | box item ih => exact ih
  | _ => exact Iff.rfl

theorem Json.numeric_wrap (shape : Shape) (value : Value) :
    (Json.wrap shape value).Numeric ↔ value.Numeric := by
  rw [Json.wrap, Shape.numeric_wrap]
  split <;> exact Iff.rfl

theorem Json.Means.of_numeric {json : Json} {value : Value} (means : Means schema json shape value)
    (numeric : value.Numeric) : ∃ literal, json = .number literal := by
  cases means with
  | number => exact ⟨_, rfl⟩
  | null | bool | string | array | object => exact numeric.elim

theorem Json.number_of_numeric {json : Json} {value : Value}
    (means : json.readAs schema shape = some value) (numeric : value.Numeric) :
    ∃ literal, json = .number literal := by
  by_cases absent : shape.hasOption ∧ json = .null
  · obtain ⟨option, rfl⟩ := absent
    rw [readAs_absent schema option] at means
    cases means
    exact numeric.elim
  · have kept (option : shape.hasOption) (isNull : json = .null) : False :=
      absent ⟨option, isNull⟩
    rw [readAs_inner schema shape json kept] at means
    obtain ⟨inner, understood, rfl⟩ := Option.map_eq_some_iff.mp means
    exact (means_of_readAs kept understood).of_numeric ((numeric_wrap shape inner).mp numeric)

/-! ## One turn -/

theorem FrameBody.numeric_of_waits {body body' body₁ : FrameBody} {offset : Nat}
    {input' input₁ : Input} {scratch scratch' scratch₁ : Scratch} {step : Step Frame}
    (neat : body.Tidy scratch)
    (waits : body.resume schema ⟨[], offset, false⟩ scratch =
      .ok ⟨body₁, input₁, scratch₁, .pause⟩)
    (ends : body.resume schema ⟨[], offset, true⟩ scratch =
      .ok ⟨body', input', scratch', step⟩) :
    step = .complete ∧ scratch' = #[] ∧ ∃ value, body'.result = .ok value ∧ value.Numeric := by
  cases body with
  | null rest =>
    cases rest with
    | none => cases ends
    | some rest =>
      cases rest with
      | nil => cases waits
      | cons byte more => cases ends
  | bool truth rest =>
    cases rest with
    | none => cases ends
    | some rest =>
      cases rest with
      | nil => cases waits
      | cons byte more => cases ends
  | string lexer octets =>
    cases lexer with
    | none => cases ends
    | some lexer => cases ends
  -- all others that wait when they are given nothing fail at the end of the document; only a
  -- literal of a number may be complete there
  | number type lexer spilled result =>
    have ended {text : Array UInt8} {scratch : Scratch} (empty : scratch = #[])
        (ended : endNumber type lexer text ⟨[], offset, true⟩ scratch =
          .ok ⟨body', input', scratch', step⟩) :
        step = .complete ∧ scratch' = #[] ∧
          ∃ value, body'.result = .ok value ∧ value.Numeric := by
      obtain ⟨value, -, same⟩ := map_eq_ok_iff.mp ended
      cases same
      exact ⟨rfl, empty, .number value, rfl, trivial⟩
    simp only [resume, startNumber] at ends
    split at ends
    · cases ends
    · simp only [resumeNumber, NumberLexer.scan, NumberLexer.scanBytes] at ends
      cases spilled with
      | true => exact ended rfl ends
      | false => exact ended neat ends
  | array item phase items => cases phase <;> cases ends
  | object table phase target members presence extras => cases phase <;> cases ends
  | variant held =>
    cases held with
    | none => cases ends
    | some value => cases waits

def Frame.Numeric (frame : Frame) : Prop :=
  ∃ body value, frame.body? = some body ∧ body.result = .ok value ∧ value.Numeric

theorem Frame.numeric_of_waits {frame frame' frame₁ : Frame} {offset : Nat}
    {input' input₁ : Input} {scratch scratch' scratch₁ : Scratch} {step : Step Frame}
    (neat : frame.Tidy scratch)
    (waits : frame.resume schema ⟨[], offset, false⟩ scratch =
      .ok ⟨frame₁, input₁, scratch₁, .pause⟩)
    (ends : frame.resume schema ⟨[], offset, true⟩ scratch =
      .ok ⟨frame', input', scratch', step⟩) :
    step = .complete ∧ scratch' = #[] ∧ frame'.Numeric := by
  induction frame generalizing frame' frame₁ input' input₁ scratch' scratch₁ step with
  | core shape body =>
    obtain ⟨⟨body', later, scratch', step⟩, ended, isEnd⟩ := map_eq_ok_iff.mp ends
    obtain ⟨⟨body₁, _, _, _⟩, waited, isPause⟩ := map_eq_ok_iff.mp waits
    cases isEnd
    cases isPause
    obtain ⟨completes, empty, value, read, numeric⟩ :=
      FrameBody.numeric_of_waits neat waited ended
    exact ⟨completes, empty, body', value, rfl, read, numeric⟩
  | box item inner ih | present item inner ih =>
    obtain ⟨⟨frame', later, scratch', step⟩, ended, isEnd⟩ := map_eq_ok_iff.mp ends
    obtain ⟨⟨frame₁, _, _, _⟩, waited, isPause⟩ := map_eq_ok_iff.mp waits
    cases isEnd
    cases isPause
    obtain ⟨completes, empty, numeric⟩ := ih neat waited ended
    exact ⟨completes, empty, numeric⟩
  | undecided item => cases ends
  | absent item rest =>
    cases rest with
    | nil => cases waits
    | cons byte more => cases ends

/-- A turn at the end of the document is one that would be taken if more might follow, or it
ends a number. -/
theorem Frame.resume_opened {frame frame' : Frame} {input input' : Input}
    {scratch scratch' : Scratch} {step : Step Frame} (closed : input.closed = true)
    (neat : frame.Tidy scratch)
    (resumed : frame.resume schema input scratch = .ok ⟨frame', input', scratch', step⟩) :
    input'.closed = true ∧ scratch' = #[] ∧
      (frame.resume schema input.opened scratch = .ok ⟨frame', input'.opened, #[], step⟩ ∨
        step = .complete ∧ input'.bytes = [] ∧ frame'.Numeric) := by
  have cuttable : CutsTo (resumes schema) Tidy
      (fun later => frame.resume schema later scratch) input.opened
      (frame.resume schema input.opened scratch) :=
    frame.cuttable_resume rfl neat
  have same (ends : Bool) : input.opened.extend [] ends = { input with closed := ends } := by
    simp only [Input.opened, Input.extend, List.append_nil]
  have isClosed : input.opened.extend [] true = input := by
    rw [same, ← closed]
  rcases turn : frame.resume schema input.opened scratch with
    error | ⟨frame₁, rest, scratch₁, step₁⟩
  all_goals rw [turn] at cuttable
  · have failed : frame.resume schema input scratch = .error error := by
      rw [← isClosed]
      exact cuttable [] true
    cases resumed.symm.trans failed
  · cases step₁ with
    | pause =>
      obtain ⟨-, neat₁, goesOn⟩ := cuttable
      have later (ends : Bool) : frame.resume schema { input with closed := ends } scratch =
          frame₁.resume schema ⟨[], input.limit, ends⟩ scratch₁ := by
        rw [← same]
        exact goesOn [] ends
      have ends : frame₁.resume schema ⟨[], input.limit, true⟩ scratch₁ =
          .ok ⟨frame', input', scratch', step⟩ := by
        rw [← later, ← same, isClosed, resumed]
      obtain ⟨completes, empty, numeric⟩ :=
        numeric_of_waits neat₁ ((later false).symm.trans turn) ends
      have exhausted : input' = _ := resume_exhausted ends
      subst exhausted
      exact ⟨rfl, empty, .inr ⟨completes, rfl, numeric⟩⟩
    | call child | complete =>
      obtain ⟨opened, -, rfl, goesOn⟩ := cuttable
      have ends := goesOn [] true
      rw [isClosed] at ends
      cases resumed.symm.trans ends
      exact ⟨rfl, rfl, .inl (by rw [Input.opened_extend_nil opened])⟩

/-! ## Whole values -/

theorem Frame.eq_of_deliverInto {slot shape : Shape} {value value' : Value}
    (put : deliverInto slot shape value = .ok value') : value' = value := by
  rw [deliverInto] at put
  split at put
  · cases put
    rfl
  · cases put

theorem Frame.numeric_of_deliver {frame : Frame} {slot : Shape} {value : Value}
    (delivered : frame.deliver slot = .ok value) : value.Numeric ↔ frame.Numeric := by
  induction frame generalizing slot value with
  | core shape body =>
    rw [deliver] at delivered
    cases read : body.result with
    | error error =>
      rw [read] at delivered
      cases delivered
    | ok result =>
      rw [read] at delivered
      rw [eq_of_deliverInto delivered]
      constructor
      · exact fun numeric => ⟨body, result, rfl, read, numeric⟩
      · rintro ⟨_, _, same, read', numeric⟩
        cases same
        cases read.symm.trans read'
        exact numeric
  | box item inner ih | present item inner ih =>
    rw [deliver] at delivered
    cases read : inner.deliver item with
    | error error =>
      rw [read] at delivered
      cases delivered
    | ok result =>
      rw [read] at delivered
      rw [eq_of_deliverInto delivered]
      have inside := ih read
      exact inside
  | undecided item | absent item rest =>
    rw [deliver] at delivered
    rw [eq_of_deliverInto delivered]
    constructor
    · exact False.elim
    · rintro ⟨_, _, same, -⟩
      cases same

/-- A body that takes over a value and goes on behind the end of the document is one of a
variant, which completes at once. -/
theorem FrameBody.accept_exhausted {body body' : FrameBody} {child : Frame} {offset : Nat}
    {scratch : Scratch} {advance : Advance FrameBody} (accepted : body.accept child = .ok body')
    (resumed : body'.resume schema ⟨[], offset, true⟩ scratch = .ok advance) :
    advance = ⟨body', ⟨[], offset, true⟩, scratch, .complete⟩ ∧
      (child.Numeric → ∃ value, body'.result = .ok value ∧ value.Numeric) := by
  cases body with
  | null | bool | string | number => cases accepted
  | array item phase items =>
    obtain ⟨value, -, rfl⟩ := map_eq_ok_iff.mp accepted
    cases resumed
  | object table phase target members presence extras =>
    obtain ⟨members, presence, extras, rfl⟩ := comma_of_accept_object accepted
    cases resumed
  | variant held =>
    cases held with
    | none => cases accepted
    | some held =>
      obtain ⟨value, delivered, rfl⟩ := map_eq_ok_iff.mp accepted
      cases resumed
      exact ⟨rfl, fun numeric => ⟨_, rfl, (Frame.numeric_of_deliver delivered).mpr numeric⟩⟩

theorem Frame.accept_exhausted {parent parent' child : Frame} {offset : Nat} {scratch : Scratch}
    {advance : Advance Frame} (accepted : parent.accept child = .ok parent')
    (resumed : parent'.resume schema ⟨[], offset, true⟩ scratch = .ok advance) :
    advance = ⟨parent', ⟨[], offset, true⟩, scratch, .complete⟩ ∧
      (child.Numeric → parent'.Numeric) := by
  induction parent generalizing parent' advance with
  | core shape body =>
    obtain ⟨body', taken, rfl⟩ := map_eq_ok_iff.mp accepted
    obtain ⟨inner, turn, rfl⟩ := map_eq_ok_iff.mp resumed
    obtain ⟨rfl, passes⟩ := FrameBody.accept_exhausted taken turn
    refine ⟨rfl, fun numeric => ?_⟩
    obtain ⟨value, read, holds⟩ := passes numeric
    exact ⟨body', value, rfl, read, holds⟩
  | box item inner ih | present item inner ih =>
    obtain ⟨inner', taken, rfl⟩ := map_eq_ok_iff.mp accepted
    obtain ⟨within, turn, rfl⟩ := map_eq_ok_iff.mp resumed
    obtain ⟨rfl, passes⟩ := ih taken turn
    exact ⟨rfl, passes⟩
  | undecided item | absent item rest => cases accepted

/-- A completed frame has come to its end: if nothing is left, its value is not a number, which
might go on. -/
def Frame.Ended (frame : Frame) (rest : Input) : Prop :=
  rest.bytes = [] → ¬ frame.Numeric

theorem Reads.ended_part {further : Nat} {parent parent' child frame' : Frame}
    {behind input' : Input} {scratch scratch' : Scratch} (closed : behind.closed = true)
    (accepted : parent.accept child = .ok parent')
    (goesOn : Reads schema further parent' behind scratch frame' input' scratch')
    (ended : frame'.Ended input') : child.Ended behind := by
  intro nothing numeric
  obtain ⟨bytes, offset, isClosed⟩ := behind
  cases nothing
  cases closed
  cases goesOn with
  | complete resumed =>
    obtain ⟨isEnd, passes⟩ := Frame.accept_exhausted accepted resumed
    cases isEnd
    exact ended rfl (passes numeric)
  | call resumed =>
    obtain ⟨isEnd, -⟩ := Frame.accept_exhausted accepted resumed
    cases isEnd

theorem Reads.closed {height : Nat} {frame frame' : Frame} {input input' : Input}
    {scratch scratch' : Scratch}
    (reads : Reads schema height frame input scratch frame' input' scratch')
    (closed : input.closed = true) (neat : frame.Tidy scratch) :
    input'.closed = true ∧ scratch' = #[] := by
  induction reads with
  | complete resumed =>
    obtain ⟨closed', empty, -⟩ := Frame.resume_opened closed neat resumed
    exact ⟨closed', empty⟩
  | call resumed inner accepted goesOn ihInner ihRest =>
    obtain ⟨closed₁, rfl, -⟩ := Frame.resume_opened closed neat resumed
    obtain ⟨closed₂, rfl⟩ := ihInner closed₁ (Frame.tidy_empty _)
    exact ihRest closed₂ (Frame.tidy_empty _)

theorem Reads.opened {height : Nat} {frame frame' : Frame} {input input' : Input}
    {scratch scratch' : Scratch}
    (reads : Reads schema height frame input scratch frame' input' scratch')
    (closed : input.closed = true) (neat : frame.Tidy scratch) (ended : frame'.Ended input') :
    Reads schema height frame input.opened scratch frame' input'.opened #[] := by
  induction reads with
  | complete resumed =>
    obtain ⟨-, -, turn | ⟨-, nothing, numeric⟩⟩ :=
      Frame.resume_opened closed neat resumed
    · exact .complete turn
    · exact absurd numeric (ended nothing)
  | call resumed inner accepted goesOn ihInner ihRest =>
    obtain ⟨closed₁, rfl, turn | ⟨completes, -⟩⟩ := Frame.resume_opened closed neat resumed
    · obtain ⟨closed₂, rfl⟩ := inner.closed closed₁ (Frame.tidy_empty _)
      have partEnded := goesOn.ended_part closed₂ accepted ended
      exact .call turn (ihInner closed₁ (Frame.tidy_empty _) partEnded) accepted
        (ihRest closed₂ (Frame.tidy_empty _) ended)
    · cases completes

/-! ## A number with nothing behind it -/

theorem NumberLexer.scanBytes_opened {lexer later : NumberLexer} {bytes : List UInt8}
    (read : lexer.readAll? bytes = some later) (before : Array UInt8) (offset : Nat) :
    ∃ text rest, lexer.scanBytes false before offset bytes = .ok ⟨later, text, rest, false⟩ := by
  induction bytes generalizing lexer before offset with
  | nil =>
    cases read
    exact ⟨before, _, rfl⟩
  | cons byte bytes ih =>
    cases next : lexer.next? byte with
    | none => simp [readAll?, List.foldlM_cons, next] at read
    | some between =>
      rw [readAll?_cons next] at read
      obtain ⟨text, rest, scanned⟩ := ih read (before.push byte) (offset + 1)
      refine ⟨text, rest, ?_⟩
      rw [scanBytes, step, next]
      exact scanned

/-- Whitespace in front of a number is passed over, and the byte behind it begins nothing else. -/
theorem Literal.significant_blank (literal : Literal) {before : List Char} (blank : Blank before)
    (offset : Nat) :
    ∃ byte offset', heldShapeOf? byte = some (.number .any) ∧
      ∀ {α : Type} (wait : Input → α) (act : UInt8 → Input → Except ParseError α),
        Input.significant ⟨Utf8.encode before ++ literal.bytes, offset, false⟩ wait act =
          act byte ⟨literal.bytes, offset', false⟩ := by
  obtain ⟨byte, more, bytes, solid, held, -⟩ := (Spells.number literal).first
  obtain ⟨offset', behind⟩ := Input.behindSpaces_blank blank solid false offset more
  refine ⟨byte, offset', held, fun wait act => ?_⟩
  rw [Literal.bytes, bytes]
  simp only [Input.significant, Input.skipSpaces, behind]

theorem ne_of_heldShapeOf? {byte other : UInt8} (held : heldShapeOf? byte = some (.number .any))
    (differs : heldShapeOf? other ≠ some (.number .any)) : byte ≠ other := by
  rintro rfl
  exact differs held

/-- What is given a number and nothing behind it waits, or calls for the number. -/
def AwaitsNumber {β : Type} (schema : Schema) (core : Shape) (literal : Literal)
    (advance : Advance β) : Prop :=
  advance.step = .pause ∨ core = .variant ∧
    ∃ offset, advance.input = ⟨literal.bytes, offset, false⟩ ∧ advance.scratch = #[] ∧
      advance.step = .call (.start schema (.number .any))

theorem FrameBody.resume_start_number {core : Shape} {before : List Char} (blank : Blank before)
    {literal : Literal} {offset : Nat} {advance : Advance FrameBody}
    (resumed : (start schema core).resume schema
      ⟨Utf8.encode before ++ literal.bytes, offset, false⟩ #[] = .ok advance) :
    AwaitsNumber schema core literal advance := by
  obtain ⟨byte, offset', held, acts⟩ := literal.significant_blank blank offset
  cases core with
  | bool =>
    simp only [start, resume, acts] at resumed
    rw [if_neg (ne_of_heldShapeOf? held (by decide)),
      if_neg (ne_of_heldShapeOf? held (by decide))] at resumed
    cases resumed
  | null | option | box | string | list | extras | record =>
    simp only [start, resume, resumeArray, resumeObject, acts] at resumed
    rw [if_neg (ne_of_heldShapeOf? held (by decide))] at resumed
    cases resumed
  | variant =>
    simp only [start, resume, acts, held] at resumed
    cases resumed
    exact .inr ⟨rfl, offset', rfl, rfl, rfl⟩
  | number type =>
    left
    simp only [start, resume, startNumber, if_true, acts] at resumed
    split at resumed
    · obtain ⟨text, rest, scanned⟩ :=
        NumberLexer.scanBytes_opened (NumberLexer.readAll?_bytes literal) #[] offset'
      simp only [resumeNumber, NumberLexer.scan, scanned] at resumed
      cases resumed
      rfl
    · cases resumed

theorem Frame.resume_start_number {shape : Shape} {before : List Char} (blank : Blank before)
    {literal : Literal} {offset : Nat} {advance : Advance Frame}
    (resumed : (start schema shape).resume schema
      ⟨Utf8.encode before ++ literal.bytes, offset, false⟩ #[] = .ok advance) :
    AwaitsNumber schema shape.core literal advance := by
  by_cases option : shape.hasOption
  · obtain ⟨byte, offset', held, acts⟩ := literal.significant_blank blank offset
    rw [resume_start_of_option option, acts, if_neg (ne_of_heldShapeOf? held (by decide))]
      at resumed
    obtain ⟨inner, resumed', rfl⟩ := resume_around_eq_ok resumed
    exact FrameBody.resume_start_number .nil resumed'
  · rw [start_of_solid (Bool.not_eq_true _ ▸ option)] at resumed
    obtain ⟨inner, resumed', rfl⟩ := resume_around_eq_ok resumed
    exact FrameBody.resume_start_number blank resumed'

theorem Reads.not_endsInNumber {height : Nat} {bytes : List UInt8} {offset : Nat}
    {frame' : Frame} {input' : Input} {scratch' : Scratch}
    (reads : Reads schema height (.start schema shape) ⟨bytes, offset, false⟩ #[] frame' input'
      scratch') : ¬ EndsInNumber bytes := by
  have itself {shape : Shape} (notVariant : shape.core ≠ .variant) {height : Nat}
      {before : List Char} (blank : Blank before) {literal : Literal} {offset : Nat}
      {frame' : Frame} {input' : Input} {scratch' : Scratch} :
      ¬ Reads schema height (.start schema shape)
        ⟨Utf8.encode before ++ literal.bytes, offset, false⟩ #[] frame' input' scratch' := by
    intro reads
    cases reads with
    | complete resumed | call resumed =>
      rcases Frame.resume_start_number blank resumed with waits | ⟨variant, -⟩
      · cases waits
      · exact notVariant variant
  rintro ⟨before, literal, blank, rfl⟩
  cases reads with
  | complete resumed =>
    rcases Frame.resume_start_number blank resumed with waits | ⟨-, -, -, -, calls⟩
    · cases waits
    · cases calls
  | call resumed inner =>
    rcases Frame.resume_start_number blank resumed with waits | ⟨-, offset', atNumber, empty, calls⟩
    · cases waits
    · cases atNumber
      cases empty
      cases calls
      exact itself (by decide) .nil inner

/-! ## Documents -/

theorem Reads.ended_of_document {height : Nat} {document : List UInt8} {frame : Frame}
    {input : Input} {scratch : Scratch} {value : Value}
    (reads : Reads schema height (.start schema shape) ⟨document, 0, true⟩ #[] frame input scratch)
    (delivered : frame.deliver shape = .ok value)
    (apart : ¬ EndsInNumber document) : frame.Ended input := by
  intro nothing numeric
  obtain ⟨-, -, means⟩ := reads.means (.start shape) rfl rfl rfl
  obtain ⟨before, text, json, blank, spells, split, understood⟩ := means value delivered
  obtain ⟨literal, rfl⟩ := Json.number_of_numeric understood
    ((Frame.numeric_of_deliver delivered).mpr numeric)
  cases spells
  rw [nothing, List.append_nil] at split
  exact apart ⟨before, literal, blank, split⟩

/-- A document that is accepted is read as well if more may follow, unless it ends in a number. -/
theorem exists_reads_opened_iff (schema : Schema) (shape : Shape) (limit : Option Nat)
    (document : List UInt8) (value : Value)
    (parsed : parse schema shape document limit = .ok value) :
    (∃ height frame input scratch,
      Reads schema height (.start schema shape) ⟨document, 0, false⟩ #[] frame input scratch ∧
        frame.deliver shape = .ok value ∧ (∀ byte ∈ input.bytes, isSpace byte) ∧
        ∀ most, limit = some most → height ≤ most) ↔ ¬ EndsInNumber document := by
  constructor
  · rintro ⟨height, frame, input, scratch, reads, -⟩
    exact reads.not_endsInNumber
  · intro apart
    obtain ⟨height, frame, input, scratch, reads, delivered, spaces, fits⟩ :=
      (parse_eq_ok_iff_reads schema shape document limit value).mp parsed
    exact ⟨height, frame, input.opened, #[],
      reads.opened rfl (Frame.tidy_empty _) (reads.ended_of_document delivered apart), delivered,
      spaces, fits⟩

end IncrementalJson
