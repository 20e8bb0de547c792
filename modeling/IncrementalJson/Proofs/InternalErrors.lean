import IncrementalJson.Proofs.Reading.Linked
import IncrementalJson.Proofs.RoundTrip.Reparsing
import IncrementalJson.Proofs.Writing.Buffers

/-!
# No internal errors

Neither reading nor writing ever reports a broken invariant.  For reading this
rests on the frames of a parser fitting together; for writing on the transcripts
of the values of a shape, none of which ends in such an error and all of which are
UTF-8, up to the failing point if there is one.
-/

set_option autoImplicit false

namespace IncrementalJson

open Ascii Transcript

variable {schema : Schema} {limit : Option Nat} {depth : Nat}

/-! ## Transcripts of values of a shape -/

/-- A transcript is UTF-8, and an error at its end reports no broken invariant. -/
structure Transcript.Proper (text : Transcript) : Prop where
  utf8 : ∃ chars, text.bytes = Utf8.encode chars
  clean : ∀ error, text.error = some error → error.kind ≠ .internal

/-- The transcript of a part, if it begins, is proper. -/
def Transcript.Fit : Except GenerateError Transcript → Prop
  | .ok text => text.Proper
  | .error error => error.kind ≠ .internal

namespace Transcript

theorem Proper.whole (chars : List Char) : (whole (Utf8.encode chars)).Proper :=
  ⟨⟨chars, rfl⟩, nofun⟩

theorem Proper.append {front back : Transcript} (first : front.Proper) (second : back.Proper) :
    (front ++ back).Proper := by
  obtain ⟨bytes, error⟩ := front
  cases error with
  | some error => exact first
  | none =>
    obtain ⟨⟨chars, here⟩, -⟩ := first
    obtain ⟨⟨chars', behind⟩, clean⟩ := second
    refine ⟨⟨chars ++ chars', ?_⟩, clean⟩
    rw [Utf8.encode_append, ← here, ← behind]
    rfl

theorem Proper.led {part : Except GenerateError Transcript} (fit : Fit part) (chars : List Char) :
    (led (Utf8.encode chars) part).Proper := by
  cases part with
  | error error =>
    refine ⟨⟨[], rfl⟩, ?_⟩
    intro error' same
    cases same
    exact fit
  | ok part => exact (Proper.whole chars).append fit

theorem Proper.separated {texts : List Transcript} (proper : ∀ text ∈ texts, text.Proper) :
    (separated texts).Proper := by
  match texts with
  | [] => exact Proper.whole []
  | [text] => exact proper text List.mem_cons_self
  | text :: next :: rest =>
    obtain ⟨first, others⟩ := List.forall_mem_cons.mp proper
    exact first.append ((Proper.whole [',']).append (Proper.separated others))

theorem Proper.quoted (text : String) : (quoted text).Proper := by
  rw [Transcript.quoted, ← encode_quoted_writtenItems]
  exact Proper.whole _

theorem Fit.pushed {text : Transcript} (proper : text.Proper) : Fit (pushed limit depth text) := by
  cases limit with
  | none => exact proper
  | some limit =>
    rw [Transcript.pushed]
    split
    · rintro ⟨⟩
    · exact proper

end Transcript

theorem proper_items {item : Shape} {items : List Value}
    (fit : ∀ value ∈ items, Fit (value.transcript schema limit depth item)) (chars : List Char) :
    (itemsTranscript schema limit depth item (Utf8.encode chars) items).Proper := by
  induction items generalizing chars with
  | nil =>
    rw [itemsTranscript]
    exact Proper.whole []
  | cons value rest ih =>
    obtain ⟨first, others⟩ := List.forall_mem_cons.mp fit
    rw [itemsTranscript]
    exact (Proper.led first chars).append (ih others [','])

theorem HasShape.fit {shape : Shape} {value : Value} (typed : HasShape schema shape value)
    (limit : Option Nat) (depth : Nat) : Fit (value.transcript schema limit depth shape) := by
  induction typed generalizing depth with
  | null =>
    rw [Value.transcript.eq_def]
    exact Fit.pushed (Proper.whole "null".toList)
  | bool value =>
    rw [Value.transcript.eq_def]
    cases value with
    | true => exact Fit.pushed (Proper.whole "true".toList)
    | false => exact Fit.pushed (Proper.whole "false".toList)
  | string text =>
    rw [Value.transcript.eq_def]
    exact Fit.pushed (Proper.quoted text)
  | @number type value typed =>
    rw [Value.transcript.eq_def]
    simp only [Shape.unbox]
    cases value.text? with
    | none => nofun
    | some text => exact Fit.pushed (Proper.whole text)
  | list typed ih =>
    rw [Value.transcript.eq_def]
    refine Fit.pushed ((Proper.whole ['[']).append (Proper.append ?_ (Proper.whole [']'])))
    exact proper_items (fun value among => ih value among (depth + 1)) []
  | unset =>
    rw [Value.transcript.eq_def]
    nofun
  | held typed ih =>
    rw [Value.transcript.eq_def]
    exact ih depth
  | absent item =>
    rw [Value.transcript.eq_def]
    exact Fit.pushed (Proper.whole "null".toList)
  | present typed ih =>
    rw [Value.transcript.eq_def]
    exact ih depth
  | @box item value typed ih =>
    rw [Value.transcript_box]
    exact ih depth
  | @object shape table members presence extras declared complete distinct typed ih =>
    rw [Value.transcript.eq_def]
    simp only [Schema.unbox_of_table? declared, declared, liveMembers_transcripts]
    refine Fit.pushed ((Proper.whole ['{']).append (Proper.append ?_ (Proper.whole ['}'])))
    apply Proper.separated
    intro text among
    obtain ⟨member, inside, rfl⟩ := List.mem_map.mp among
    exact (Proper.quoted member.1).append (Proper.led (ih member inside (depth + 1)) [':'])

/-! ## Generators -/

namespace Generator

theorem error_of_generate {shape : Shape} {value : Value} {sizes : List Nat} {size : Nat}
    {error : GenerateError}
    (reported : (((create schema shape value limit).fill sizes).1.generate size).2 =
      .error error) :
    value.transcript schema limit 0 shape = .error error ∨
      ∃ text, value.transcript schema limit 0 shape = .ok text ∧ text.error = some error := by
  rcases filling : (create schema shape value limit).fill sizes with ⟨last, handed⟩
  rw [filling] at reported
  cases begins : value.transcript schema limit 0 shape with
  | error error' =>
    obtain ⟨failed, -⟩ := error_create begins
    rw [fill_of_error failed] at filling
    cases filling
    rw [generate_of_error failed] at reported
    cases reported
    exact .inl rfl
  | ok text =>
    refine .inr ⟨text, rfl, ?_⟩
    obtain ⟨remaining, -⟩ := remaining_create begins
    obtain ⟨-, -, goesOn, fails⟩ := fill_remaining remaining sizes filling
    by_cases enough : text.error = none ∨ sizes.sum ≤ text.bytes.length
    · obtain ⟨-, remaining⟩ := goesOn enough
      rcases generated : last.generate size with ⟨later, result⟩
      rw [generated] at reported
      cases reported
      exact (generate_hands remaining generated).1
    · rw [not_or, Nat.not_le] at enough
      obtain ⟨some', behind⟩ := enough
      cases failed : text.error with
      | none => exact absurd failed some'
      | some error' =>
        rw [generate_of_error (fails error' failed behind)] at reported
        cases reported
        rfl

theorem handed_of_isFinished {shape : Shape} {value : Value} {sizes : List Nat}
    (finished : ((create schema shape value limit).fill sizes).1.isFinished) :
    value.transcript schema limit 0 shape =
      .ok (.whole ((create schema shape value limit).fill sizes).2) := by
  rcases filling : (create schema shape value limit).fill sizes with ⟨last, handed⟩
  rw [filling] at finished
  simp only at finished
  cases begins : value.transcript schema limit 0 shape with
  | error error =>
    obtain ⟨failed, -⟩ := error_create begins
    rw [fill_of_error failed] at filling
    cases filling
    rw [isFinished_eq_false_of_error failed] at finished
    cases finished
  | ok text =>
    obtain ⟨remaining, -⟩ := remaining_create begins
    obtain ⟨-, -, goesOn, fails⟩ := fill_remaining remaining sizes filling
    by_cases enough : text.error = none ∨ sizes.sum ≤ text.bytes.length
    · obtain ⟨rfl, remaining⟩ := goesOn enough
      have nothing := (isFinished_iff remaining).mp finished
      obtain ⟨bytes, error⟩ := text
      cases congrArg Transcript.error nothing
      have behind : bytes.drop sizes.sum = [] := congrArg Transcript.bytes nothing
      rw [List.take_of_length_le (List.drop_eq_nil_iff.mp behind)]
      rfl
    · rw [not_or, Nat.not_le] at enough
      obtain ⟨some', behind⟩ := enough
      cases failed : text.error with
      | none => exact absurd failed some'
      | some error =>
        rw [isFinished_eq_false_of_error (fails error failed behind)] at finished
        cases finished

end Generator

theorem Clean.ne_unexpected {α : Type} {result : Except ParseError α} (clean : Clean result)
    (state : UnexpectedState) : result ≠ .error (.unexpected state) := by
  intro same
  exact clean _ same rfl

theorem Utf8.encodeString_ofList (chars : List Char) :
    encodeString (String.ofList chars) = encode chars :=
  congrArg encode String.toList_ofList

theorem writeValue_ne_unexpected {shape : Shape} {value : Value}
    (typed : HasShape schema shape value) (state : UnexpectedState) :
    writeValue schema shape value ≠ .error (.unexpected state) := by
  have fit := typed.fit none 0
  rw [writeValue, writeBytes_eq]
  cases begins : value.transcript schema none 0 shape with
  | error error =>
    rw [begins] at fit
    intro same
    cases same
    exact fit rfl
  | ok text =>
    rw [begins] at fit
    obtain ⟨bytes, error⟩ := text
    cases error with
    | some error =>
      intro same
      cases same
      exact fit.clean _ rfl rfl
    | none =>
      obtain ⟨chars, rfl⟩ := fit.utf8
      simp only [Except.bind, Transcript.outcome]
      rw [(Utf8.decodeString_eq_ok_iff _ _).mpr (Utf8.encodeString_ofList chars).symm]
      rintro ⟨⟩

theorem Generator.generate_ne_unexpected {shape : Shape} {value : Value}
    (typed : HasShape schema shape value) (sizes : List Nat) (size : Nat)
    (state : UnexpectedState) :
    (((create schema shape value limit).fill sizes).1.generate size).2 ≠
      .error (.unexpected state) := by
  intro reported
  have fit := typed.fit limit 0
  rcases error_of_generate reported with begins | ⟨text, begins, failed⟩
  · rw [begins] at fit
    exact fit rfl
  · rw [begins] at fit
    exact fit.clean _ failed rfl

theorem Generator.utf8_of_isFinished {shape : Shape} {value : Value}
    (typed : HasShape schema shape value) {sizes : List Nat}
    (finished : ((create schema shape value limit).fill sizes).1.isFinished) :
    ∃ text, ((create schema shape value limit).fill sizes).2 = Utf8.encodeString text := by
  have fit := typed.fit limit 0
  rw [handed_of_isFinished finished] at fit
  obtain ⟨chars, same⟩ := fit.utf8
  exact ⟨String.ofList chars, same.trans (Utf8.encodeString_ofList chars).symm⟩

/-- No document in any chunks, and no value of a shape into any buffers, is ever answered with an
error that reports a broken invariant; and whatever is written to its end is UTF-8. -/
theorem never_unexpected (schema : Schema) (shape : Shape) (limit : Option Nat)
    (state : UnexpectedState) :
    (∀ chunks, let parser := (Parser.create schema shape limit).feedAll chunks
      parser.error? ≠ some (.unexpected state) ∧ parser.finish ≠ .error (.unexpected state)) ∧
    ∀ value, HasShape schema shape value →
      (∀ sizes, let (generator, handed) := (Generator.create schema shape value limit).fill sizes
        (∀ size, (generator.generate size).2 ≠ .error (.unexpected state)) ∧
          (generator.isFinished → ∃ text, handed = Utf8.encodeString text)) ∧
      writeValue schema shape value ≠ .error (.unexpected state) := by
  constructor
  · intro chunks
    obtain ⟨clean, finish⟩ := Parser.feedAll_regular schema shape limit chunks
    refine ⟨?_, finish.ne_unexpected state⟩
    intro failed
    exact clean _ failed rfl
  · intro value typed
    refine ⟨?_, writeValue_ne_unexpected typed state⟩
    intro sizes
    constructor
    · intro size
      exact Generator.generate_ne_unexpected typed sizes size state
    · exact Generator.utf8_of_isFinished typed

/-- The text `["\n"]`, written into a buffer of three bytes and one of five, and read in two
chunks that part the escape. -/
theorem never_unexpected_escape :
    let value : Value := .list [.held (.string "\n")]
    let generator := ((Generator.create .empty (.list .variant) value (some 3)).fill [3, 5]).1
    let parser := (Parser.create .empty (.list .variant) (some 3)).feedAll
      [[0x5B, 0x22, 0x5C], [0x75]]
    HasShape .empty (.list .variant) value ∧ generator.isFinished ∧
      (∃ text, ((Generator.create .empty (.list .variant) value (some 3)).fill [3, 5]).2 =
        Utf8.encodeString text) ∧
      parser.finish = .error .endOfData ∧
      parser.finish ≠ .error (.unexpected .invalidUnicodeEscape) := by
  have typed : HasShape .empty (.list .variant) (.list [.held (.string "\n")]) := by
    apply HasShape.list
    intro value among
    rw [List.mem_singleton.mp among]
    exact .held (.string "\n")
  obtain ⟨reading, writing⟩ := never_unexpected .empty (.list .variant) (some 3) .invalidUnicodeEscape
  obtain ⟨filled, -⟩ := writing _ typed
  have finished : ((Generator.create .empty (.list .variant) (.list [.held (.string "\n")])
      (some 3)).fill [3, 5]).1.isFinished := by decide +kernel
  exact ⟨typed, finished, (filled [3, 5]).2 finished, rfl,
    (reading [[0x5B, 0x22, 0x5C], [0x75]]).2⟩

end IncrementalJson
