import IncrementalJson.Proofs.Reading.FirstFault
import IncrementalJson.Proofs.Reading.Nesting
import IncrementalJson.Proofs.Writing.Calls

/-!
# Every loop stops

The loop over the frames of a parser ends after a number of turns that is linear
in the bytes of the chunk and the frames at hand, whatever the bytes are; the loop
over the emitters of a generator ends after at most one turn for every byte of the
buffer and every frame, and one.  A call of a generator fills its buffer, fails or
finishes the text, and so collecting a text in pieces ends as well.
-/

set_option autoImplicit false

namespace IncrementalJson

namespace Parser

theorem exists_stops (schema : Schema) (shape : Shape) (stack : Stack Frame) (input : Input)
    (value : Value) :
    ∃ run turns, stack.Stops (readDriver schema shape) ⟨input, value⟩ run turns ∧
      turns ≤ 8 * (input.bytes.length + stack.depth + 1) := by
  obtain ⟨run, turns, stops, few⟩ := Stack.exists_stops (progress_readDriver schema shape)
    ⟨input, value⟩ stack (fun _ _ => trivial)
  have light := Stack.weight_frames_le stack.frames
  refine ⟨run, turns, stops, ?_⟩
  simp only [Reading.room, Input.room, Stack.weight] at few
  simp only [Stack.depth]
  omega

theorem feed_stops {parser : Parser} (live : parser.Live) (chunk : List UInt8) :
    ∃ run turns, parser.stack.Stops (readDriver parser.schema parser.shape)
        ⟨⟨chunk, parser.offset, false⟩, parser.value⟩ run turns ∧
      turns ≤ 8 * (chunk.length + parser.depth + 1) ∧
      parser.feed chunk =
        settle parser.schema parser.shape (parser.offset + chunk.length) run := by
  obtain ⟨run, turns, stops, few⟩ := exists_stops parser.schema parser.shape parser.stack
    ⟨chunk, parser.offset, false⟩ parser.value
  exact ⟨run, turns, stops, few, feed_of_runs parser live stops.runs⟩

theorem finish_stops {parser : Parser} (live : parser.Live) :
    ∃ run turns, parser.stack.Stops (readDriver parser.schema parser.shape)
        ⟨⟨[], parser.offset, true⟩, parser.value⟩ run turns ∧
      turns ≤ 8 * (parser.depth + 1) ∧ parser.finish = run.answer := by
  obtain ⟨run, turns, stops, few⟩ := exists_stops parser.schema parser.shape parser.stack
    ⟨[], parser.offset, true⟩ parser.value
  rw [List.length_nil, Nat.zero_add] at few
  exact ⟨run, turns, stops, few, finish_of_runs parser live stops.runs⟩

end Parser

/-- For every document in any chunks, the loop behind feeding one more chunk and the loop behind
ending the document stop after a number of turns that is linear in the bytes of the chunk and the
frames at hand.  For every value and any buffers, the loop behind every call stops, every call
that neither fails nor finishes the text fills its buffer, and so the loop stops that collects
the text. -/
theorem loops_stop (schema : Schema) (shape : Shape) (limit : Option Nat) :
    (∀ chunks, let parser := (Parser.create schema shape limit).feedAll chunks
      match parser.error? with
      | some error => (∀ chunk, parser.feed chunk = parser) ∧ parser.finish = .error error
      | none =>
        (∀ chunk, ∃ run turns, parser.stack.Stops (readDriver parser.schema parser.shape)
            ⟨⟨chunk, parser.offset, false⟩, parser.value⟩ run turns ∧
          turns ≤ 8 * (chunk.length + parser.depth + 1) ∧
          parser.feed chunk =
            .settle parser.schema parser.shape (parser.offset + chunk.length) run) ∧
        ∃ run turns, parser.stack.Stops (readDriver parser.schema parser.shape)
            ⟨⟨[], parser.offset, true⟩, parser.value⟩ run turns ∧
          turns ≤ 8 * (parser.depth + 1) ∧ parser.finish = run.answer) ∧
    ∀ value,
      (∀ sizes size, let generator := ((Generator.create schema shape value limit).fill sizes).1
        match generator.error with
        | some error => generator.generate size = (generator, .error error)
        | none => generator.Stops size (size + generator.stack.depth + 1) ∧
          ∀ later bytes, generator.generate size = (later, .ok bytes) →
            later.isFinished ∨ bytes.length = size) ∧
      ∃ calls, calls ≤ value.extent schema.nameBound / pieceSize + 1 ∧
        Generator.Collects pieceSize (.create schema shape value none) calls
          (writeBytes schema shape value) := by
  constructor
  · intro chunks parser
    split
    · rename_i error failed
      have status := Parser.error?_eq_some_iff.mp failed
      refine ⟨fun chunk => Parser.feed_of_failed status chunk, ?_⟩
      rw [Parser.finish, status]
    · rename_i live
      exact ⟨Parser.feed_stops live, Parser.finish_stops live⟩
  · intro value
    refine ⟨?_, Generator.collects_writeBytes schema shape value⟩
    intro sizes size generator
    split
    · rename_i error failed
      exact Generator.generate_of_error failed size
    · rename_i noError
      rcases Generator.failed_or_remaining schema shape value limit sizes with
        ⟨error, failed⟩ | ⟨text, remaining⟩
      · cases noError.symm.trans failed
      · refine ⟨Generator.generate_stops remaining size, ?_⟩
        intro later bytes generated
        exact Generator.full_or_finished remaining generated

/-- A bracket and a brace, fed inside two arrays, and the text of an array in pieces. -/
theorem loops_stop_mismatched :
    let parser := (Parser.create .empty .variant).feedAll [[0x5B, 0x5B]]
    let value : Value := .list [.held (.bool true)]
    let generator := ((Generator.create .empty (.list .variant) value (some 3)).fill [3]).1
    parser.error? = none ∧
      (∃ run turns, parser.stack.Stops (readDriver parser.schema parser.shape)
          ⟨⟨[0x5D, 0x7D], 2, false⟩, parser.value⟩ run turns ∧ turns ≤ 56 ∧
        (parser.feed [0x5D, 0x7D]).error? = some (.unexpectedByte 0x7D 3)) ∧
      generator.error = none ∧ generator.Stops 2 4 ∧
      (generator.generate 2).2 = .ok [0x75, 0x65] ∧
      ∃ calls, calls ≤ 1 ∧ Generator.Collects 256 (.create .empty (.list .variant) value none) calls
        (.ok [0x5B, 0x74, 0x72, 0x75, 0x65, 0x5D]) := by
  intro parser value generator
  obtain ⟨reading, -⟩ := loops_stop .empty .variant none
  obtain ⟨-, writing⟩ := loops_stop .empty (.list .variant) (some 3)
  obtain ⟨run, turns, stops, few, -⟩ := (reading [[0x5B, 0x5B]]).1 [0x5D, 0x7D]
  obtain ⟨handing, calls, fewCalls, collects⟩ := writing value
  have written : writeBytes .empty (.list .variant) value =
      .ok [0x5B, 0x74, 0x72, 0x75, 0x65, 0x5D] := rfl
  have extent : value.extent (Schema.nameBound .empty) = 8 := rfl
  rw [extent] at fewCalls
  rw [written] at collects
  exact ⟨rfl, ⟨run, turns, stops, few, rfl⟩, rfl, (handing [3] 2).1, rfl, calls, fewCalls,
    collects⟩

end IncrementalJson
