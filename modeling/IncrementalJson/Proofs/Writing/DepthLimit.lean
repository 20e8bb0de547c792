import IncrementalJson.Proofs.Reading.DepthLimit
import IncrementalJson.Proofs.RoundTrip.Canonical
import IncrementalJson.Proofs.Writing.Buffers
import IncrementalJson.Proofs.Writing.Height

/-!
# Writing under a limit

Under a limit a value is written as it is without one if it is no higher than the
limit; otherwise the text breaks off where the first frame too many would stand.
Whatever can be read under a limit can be written under it.
-/

set_option autoImplicit false

namespace IncrementalJson

open Transcript

variable {schema : Schema} {most : Nat}

/-! ## Transcripts under a limit -/

theorem pushed_of_room {depth : Nat} (room : depth < most) (text : Transcript) :
    pushed (some most) depth text = .ok text :=
  if_neg (Nat.not_le.mpr room)

theorem pushed_of_full {depth : Nat} (full : most ≤ depth) (text : Transcript) :
    pushed (some most) depth text = .error (.maxDepthReached most) :=
  if_pos full

theorem stepsTranscript_of_fits {steps : List EmitStep} {text : List UInt8}
    (emits : Emits schema steps text) {depth : Nat}
    (fits : depth + stepsHeight schema steps ≤ most) :
    stepsTranscript schema (some most) depth steps = whole text := by
  induction emits generalizing depth with
  | nil => rfl
  | token _ ih =>
    rw [stepsTranscript, ih fits]
    rfl
  | @call lead inner text shape value emitter rest started _ _ ihInner ihRest =>
    have starts := (Emitter.start_eq_ok_iff _ _ _ _).mp started
    have height := height_of_starts starts
    rw [stepsHeight] at fits
    have deeper : depth + 1 + stepsHeight schema emitter.steps ≤ most := by omega
    have behind : depth + stepsHeight schema rest ≤ most := by omega
    rw [stepsTranscript, EmitStep.transcript, transcript_of_starts starts,
      pushed_of_room (by omega), ihInner deeper, ihRest behind]
    simp only [led, whole_append_whole, List.append_assoc]

theorem stepsTranscript_of_exceeds {steps : List EmitStep} {text : List UInt8}
    (emits : Emits schema steps text) {depth : Nat} (room : depth ≤ most)
    (exceeds : most < depth + stepsHeight schema steps) :
    ∃ front, front <+: text ∧
      stepsTranscript schema (some most) depth steps = ⟨front, some (.maxDepthReached most)⟩ := by
  induction emits generalizing depth with
  | nil => exact absurd exceeds (Nat.not_lt.mpr room)
  | @token bytes text rest _ ih =>
    obtain ⟨front, isPrefix, broken⟩ := ih room exceeds
    refine ⟨bytes ++ front, (List.prefix_append_right_inj bytes).mpr isPrefix, ?_⟩
    rw [stepsTranscript, broken]
    rfl
  | @call lead inner text shape value emitter rest started written _ ihInner ihRest =>
    have starts := (Emitter.start_eq_ok_iff _ _ _ _).mp started
    have height := height_of_starts starts
    rw [stepsTranscript, EmitStep.transcript, transcript_of_starts starts]
    rw [stepsHeight] at exceeds
    by_cases full : most ≤ depth
    · -- the part cannot begin, and what leads to it is lost with it
      rw [pushed_of_full full]
      exact ⟨[], List.nil_prefix, rfl⟩
    · rw [pushed_of_room (Nat.lt_of_not_le full)]
      by_cases deep : most < depth + 1 + stepsHeight schema emitter.steps
      · obtain ⟨front, isPrefix, broken⟩ := ihInner (Nat.lt_of_not_le full) deep
        refine ⟨lead ++ front, ?_, ?_⟩
        · rw [List.prefix_append_right_inj]
          exact isPrefix.trans (List.prefix_append _ _)
        · rw [broken]
          rfl
      · obtain ⟨front, isPrefix, broken⟩ := ihRest room (by omega)
        have fits : depth + 1 + stepsHeight schema emitter.steps ≤ most := Nat.le_of_not_lt deep
        refine ⟨lead ++ (inner ++ front), ?_, ?_⟩
        · rw [List.prefix_append_right_inj, List.prefix_append_right_inj]
          exact isPrefix
        · rw [stepsTranscript_of_fits written fits, broken, led, whole_append_whole, whole_append,
            List.append_assoc]

/-! ## Handing out -/

namespace Generator

/-- Into buffers of any sizes a text is handed out from its front to its end. -/
def HandsOut (generator : Generator) (text : List UInt8) : Prop :=
  ∀ (sizes : List Nat) (size : Nat),
    let (last, handed) := generator.fill sizes
    handed = text.take sizes.sum ∧
      (last.generate size).2 = .ok ((text.drop sizes.sum).take size) ∧
      (last.isFinished ↔ text.length ≤ sizes.sum)

/-- Into buffers of any sizes some front of a text is handed out and never more: once the buffers
would take all of the text, and from then on, every call reports the error. -/
def BreaksOff (generator : Generator) (text : List UInt8) (error : GenerateError) : Prop :=
  ∀ (sizes : List Nat) (size : Nat),
    let (last, handed) := generator.fill sizes
    handed <+: text ∧ last.isFinished = false ∧
      ((last.generate size).2 = .error error ∨
        ∃ bytes, (last.generate size).2 = .ok bytes ∧ handed ++ bytes <+: text) ∧
      (text.length < sizes.sum + size → (last.generate size).2 = .error error)

theorem HandsOut.not_breaksOff {generator : Generator} {text : List UInt8} {error : GenerateError}
    (hands : generator.HandsOut text) : ¬ generator.BreaksOff text error := by
  intro breaks
  have finished := hands [text.length] 0
  have unfinished := breaks [text.length] 0
  rcases filling : generator.fill [text.length] with ⟨last, handed⟩
  rw [filling] at finished unfinished
  have done := finished.2.2.mpr (Nat.le_refl _)
  rw [unfinished.2.1] at done
  cases done

variable {limit : Option Nat} {shape : Shape} {value : Value} {text : List UInt8}

theorem handsOut_of_whole
    (begins : value.transcript schema limit 0 shape = .ok (whole text)) :
    (create schema shape value limit).HandsOut text := by
  intro sizes size
  obtain ⟨remaining, begun⟩ := remaining_create begins
  rcases filling : (create schema shape value limit).fill sizes with ⟨last, handed⟩
  have filled := fill_remaining remaining sizes filling
  obtain ⟨produced, -, goesOn, -⟩ := filled
  obtain ⟨rfl, remaining'⟩ := goesOn (.inl rfl)
  refine ⟨rfl, ?_, ?_⟩
  · rcases generated : last.generate size with ⟨later, error | bytes⟩
    · cases (generate_hands remaining' generated).1
    · rw [(generate_hands remaining' generated).1]
      rfl
  · rw [isFinished_iff remaining']
    simp [Transcript.drop, whole]

theorem breaksOff_of_refused {error : GenerateError}
    (refused : value.transcript schema limit 0 shape = .error error) :
    (create schema shape value limit).BreaksOff text error := by
  intro sizes size
  obtain ⟨failed, -⟩ := error_create refused
  rw [fill_of_error failed]
  refine ⟨List.nil_prefix, isFinished_eq_false_of_error failed, .inl ?_, fun _ => ?_⟩
  · rw [generate_of_error failed]
  · rw [generate_of_error failed]

theorem breaksOff_of_broken {front : List UInt8} {error : GenerateError}
    (begins : value.transcript schema limit 0 shape = .ok ⟨front, some error⟩)
    (isPrefix : front <+: text) : (create schema shape value limit).BreaksOff text error := by
  intro sizes size
  obtain ⟨remaining, -⟩ := remaining_create begins
  rcases filling : (create schema shape value limit).fill sizes with ⟨last, handed⟩
  have filled := fill_remaining remaining sizes filling
  obtain ⟨unfinished, fits, exceeds⟩ := filled.next_of_failing size
  have short := isPrefix.length_le
  refine ⟨filled.front.trans isPrefix, unfinished, ?_, ?_⟩
  · by_cases enough : sizes.sum + size ≤ front.length
    · obtain ⟨bytes, generated, -, handed⟩ := fits enough
      exact .inr ⟨bytes, generated, handed.trans isPrefix⟩
    · exact .inl (exceeds (Nat.lt_of_not_le enough))
  · intro all
    exact exceeds (Nat.lt_of_le_of_lt short all)

theorem handsOut_of_fits (written : Written schema shape value text)
    (fits : value.height schema shape ≤ most) :
    (create schema shape value (some most)).HandsOut text := by
  obtain ⟨emitter, started, emits⟩ := written
  have starts := (Emitter.start_eq_ok_iff _ _ _ _).mp started
  rw [height_of_starts starts] at fits
  apply handsOut_of_whole
  rw [transcript_of_starts starts, pushed_of_room (by omega),
    stepsTranscript_of_fits emits (by omega)]

theorem breaksOff_of_exceeds (written : Written schema shape value text)
    (exceeds : most < value.height schema shape) :
    (create schema shape value (some most)).BreaksOff text (.maxDepthReached most) := by
  obtain ⟨emitter, started, emits⟩ := written
  have starts := (Emitter.start_eq_ok_iff _ _ _ _).mp started
  rw [height_of_starts starts] at exceeds
  have begins : value.transcript schema (some most) 0 shape = _ := transcript_of_starts starts
  rcases Nat.eq_zero_or_pos most with rfl | room
  · rw [pushed_of_full (Nat.le_refl 0)] at begins
    exact breaksOff_of_refused begins
  · obtain ⟨front, isPrefix, broken⟩ := stepsTranscript_of_exceeds emits room exceeds
    rw [pushed_of_room room, broken] at begins
    exact breaksOff_of_broken begins isPrefix

theorem written_of_read_under {chunks : List (List UInt8)}
    (read : ((Parser.create schema shape (some most)).feedAll chunks).finish = .ok value) :
    (∃ text, Written schema shape value text) ∧ value.height schema shape ≤ most := by
  have parsed := Parser.parse_of_finish read
  obtain ⟨text, json, whole, document, means⟩ :=
    (parse_eq_ok_iff schema shape chunks.flatten value).mp parsed
  have low := (Json.heightSteps schema).readAs json shape means
  refine ⟨((Json.settledSteps schema).readAs json shape means).written, Nat.le_trans low ?_⟩
  rw [whole] at parsed
  rw [← Parser.parse_under_eq_ok_iff document parsed, ← whole,
    ← Parser.finish_feedAll schema shape (some most) chunks]
  exact read

/-- A value that can be written without a limit is written under a limit, to the same text, if and
only if it is no higher than the limit, and otherwise its text breaks off with the error of the
limit.  Whatever is read under a limit can be written under it. -/
theorem handsOut_under_limit_iff (schema : Schema) (shape : Shape) (value : Value) (most : Nat) :
    (∀ text, writeBytes schema shape value = .ok text →
      (create schema shape value none).HandsOut text ∧
        ((create schema shape value (some most)).HandsOut text ↔
          value.height schema shape ≤ most) ∧
        (most < value.height schema shape →
          (create schema shape value (some most)).BreaksOff text (.maxDepthReached most))) ∧
      ∀ chunks, ((Parser.create schema shape (some most)).feedAll chunks).finish = .ok value →
        ∃ text, writeBytes schema shape value = .ok text ∧
          (create schema shape value (some most)).HandsOut text := by
  constructor
  · intro text collected
    have written := (writeBytes_eq_ok_iff _ _ _ _).mp collected
    have exceeds := @breaksOff_of_exceeds schema most shape value text written
    refine ⟨?_, ⟨?_, handsOut_of_fits written⟩, exceeds⟩
    · exact handsOut_of_whole (transcript_of_written written)
    · intro hands
      refine Nat.le_of_not_lt fun high => ?_
      exact hands.not_breaksOff (exceeds high)
  · intro chunks read
    obtain ⟨⟨text, written⟩, fits⟩ := written_of_read_under read
    exact ⟨text, (writeBytes_eq_ok_iff _ _ _ _).mpr written, handsOut_of_fits written fits⟩

/-- The text `[[[]]]` whose innermost array is read as a variant: reading it takes one frame more
than writing it. -/
theorem handsOut_under_limit_nested :
    let shape : Shape := .list (.option (.list .variant))
    let value : Value := .list [.present (.list [.held (.list [])])]
    let text := Utf8.encodeString "[[[]]]"
    writeBytes .empty shape value = .ok text ∧
      (create .empty shape value (some 3)).HandsOut text ∧
      (create .empty shape value (some 2)).BreaksOff text (.maxDepthReached 2) ∧
      ((Parser.create .empty shape (some 4)).feedAll [text]).finish = .ok value ∧
      (create .empty shape value (some 4)).HandsOut text := by
  intro shape value text
  have collected : writeBytes .empty shape value = .ok text := rfl
  have read : ((Parser.create .empty shape (some 4)).feedAll [text]).finish = .ok value := rfl
  have fits : value.height .empty shape ≤ 3 := by decide
  have exceeds : 2 < value.height .empty shape := by decide
  have under (most : Nat) := (handsOut_under_limit_iff .empty shape value most).1 text collected
  obtain ⟨text', collected', hands⟩ := (handsOut_under_limit_iff .empty shape value 4).2 [text] read
  rw [collected] at collected'
  cases collected'
  exact ⟨collected, (under 3).2.1.mpr fits, (under 2).2.2 exceeds, read, hands⟩

end Generator

end IncrementalJson
