import IncrementalJson.Proofs.Writing.Generating

/-!
# Buffers of any sizes

However the buffers are cut that a text is handed out into, every byte of it comes
once and in its place.  What a generator has handed out after any calls is the
front of the transcript of its value, and the transcript decides what the next
call comes to.
-/

set_option autoImplicit false

namespace IncrementalJson

variable {schema : Schema} {limit : Option Nat}

namespace Generator

def fill (generator : Generator) : List Nat → Generator × List UInt8
  | [] => (generator, [])
  | size :: sizes =>
    let (later, result) := generator.generate size
    let (last, handed) := later.fill sizes
    (last, result.toOption.getD [] ++ handed)

theorem fill_of_error {generator : Generator} {error : GenerateError}
    (failed : generator.error = some error) (sizes : List Nat) :
    generator.fill sizes = (generator, []) := by
  induction sizes with
  | nil => rfl
  | cons size sizes ih => simp only [fill, generate_of_error failed, ih]; rfl

/-- What calls with buffers of `total` bytes in all come to. -/
structure Filled (generator : Generator) (text : Transcript) (total : Nat) (last : Generator)
    (handed : List UInt8) : Prop where
  produced : last.produced = generator.produced + handed.length
  front : handed <+: text.bytes
  goesOn : text.error = none ∨ total ≤ text.bytes.length →
    handed = text.bytes.take total ∧ last.Remaining (text.drop total)
  fails : ∀ error, text.error = some error → text.bytes.length < total →
    last.error = some error

theorem fill_remaining {generator last : Generator} {text : Transcript} {handed : List UInt8}
    (remaining : generator.Remaining text) (sizes : List Nat)
    (filled : generator.fill sizes = (last, handed)) :
    generator.Filled text sizes.sum last handed := by
  induction sizes generalizing generator text last handed with
  | nil =>
    cases filled
    refine ⟨rfl, List.nil_prefix, ?_, ?_⟩
    · intro _
      exact ⟨rfl, remaining⟩
    · intro error _ behind
      exact absurd behind (Nat.not_lt_zero _)
  | cons size sizes ih =>
    rw [List.sum_cons]
    rcases generated : generator.generate size with ⟨later, result⟩
    have hands := generate_hands remaining generated
    cases result with
    | error error =>
      obtain ⟨failed, short, stays, produced⟩ := hands
      simp only [fill, generated, fill_of_error stays] at filled
      cases filled
      refine ⟨produced, List.nil_prefix, ?_, ?_⟩
      · intro goesOn
        rcases goesOn with none' | long
        · rw [none'] at failed
          cases failed
        · omega
      · intro error' failed' _
        rw [failed] at failed'
        cases failed'
        exact stays
    | ok bytes =>
      obtain ⟨rfl, reached, remaining', produced⟩ := hands
      rcases rest : later.fill sizes with ⟨last', handed'⟩
      simp only [fill, generated, rest] at filled
      cases filled
      obtain ⟨produced', front, goesOn, fails⟩ := ih remaining' rest
      simp only [Transcript.bytes_drop, Transcript.error_drop, List.length_drop] at front goesOn fails
      refine ⟨?_, ?_, ?_, ?_⟩
      · rw [produced', produced, Nat.add_assoc, ← List.length_append]
        rfl
      · have behind := (List.prefix_append_right_inj (text.bytes.take size)).mpr front
        rw [List.take_append_drop] at behind
        exact behind
      · intro enough
        have enough' : text.error = none ∨ sizes.sum ≤ text.bytes.length - size := by
          rcases enough with none' | enough
          · exact .inl none'
          · right
            omega
        obtain ⟨rfl, last⟩ := goesOn enough'
        rw [Transcript.drop_drop] at last
        exact ⟨(List.take_add ..).symm, last⟩
      · intro error failed short
        apply fails error failed
        rcases reached with none' | long
        · rw [none'] at failed
          cases failed
        · omega

theorem take_next_prefix {text : List UInt8} (total size : Nat) :
    text.take total ++ (text.drop total).take size <+: text := by
  rw [← List.take_add]
  exact List.take_prefix _ _

theorem Filled.next_of_whole {generator last : Generator} {text handed : List UInt8} {total : Nat}
    (filled : generator.Filled (.whole text) total last handed)
    (begun : generator.produced = 0) (size : Nat) :
    handed = text.take total ∧
      (∃ bytes, (last.generate size).2 = .ok bytes ∧
        bytes.length = min size (text.length - handed.length) ∧ handed ++ bytes <+: text) ∧
      (last.isFinished ↔ last.produced = text.length) := by
  obtain ⟨produced, -, goesOn, -⟩ := filled
  obtain ⟨rfl, remaining⟩ := goesOn (.inl rfl)
  have finished : last.isFinished ↔ text.drop total = [] := by
    rw [isFinished_iff remaining]
    simp [Transcript.drop, Transcript.whole]
  refine ⟨rfl, ?_, ?_⟩
  · rcases generated : last.generate size with ⟨later, error | bytes⟩
    · cases (generate_hands remaining generated).1
    · obtain ⟨rfl, -⟩ := generate_hands remaining generated
      refine ⟨_, rfl, ?_, take_next_prefix total size⟩
      simp only [Transcript.bytes_drop, List.length_take, List.length_drop, Transcript.whole]
      omega
  · have taken : ((Transcript.whole text).bytes.take total).length = min total text.length :=
      List.length_take
    rw [finished, produced, begun, List.drop_eq_nil_iff, taken]
    omega

theorem Filled.next_of_failing {generator last : Generator} {front handed : List UInt8}
    {error : GenerateError} {total : Nat}
    (filled : generator.Filled ⟨front, some error⟩ total last handed) (size : Nat) :
    last.isFinished = false ∧
      (total + size ≤ front.length → ∃ bytes, (last.generate size).2 = .ok bytes ∧
        bytes.length = size ∧ handed ++ bytes <+: front) ∧
      (front.length < total + size → (last.generate size).2 = .error error) := by
  obtain ⟨-, -, goesOn, fails⟩ := filled
  simp only at goesOn fails
  by_cases enough : total ≤ front.length
  · obtain ⟨rfl, remaining⟩ := goesOn (.inr enough)
    have unfinished : last.isFinished = false := by
      rw [Bool.eq_false_iff, ne_eq, isFinished_iff remaining]
      intro nothing
      cases congrArg Transcript.error nothing
    refine ⟨unfinished, ?_⟩
    rcases generated : last.generate size with ⟨later, error' | bytes⟩
    · obtain ⟨same, short, -⟩ := generate_hands remaining generated
      cases same
      simp only [Transcript.bytes_drop, List.length_drop] at short
      refine ⟨?_, fun _ => rfl⟩
      intro fits
      omega
    · obtain ⟨rfl, reached, -⟩ := generate_hands remaining generated
      have fits : size ≤ front.length - total := by
        rcases reached with none' | fits
        · cases none'
        · simpa using fits
      constructor
      · intro _
        refine ⟨_, rfl, ?_, take_next_prefix total size⟩
        rw [List.length_take, Transcript.bytes_drop, List.length_drop]
        exact Nat.min_eq_left fits
      · intro behind
        omega
  · have failed := fails error rfl (Nat.lt_of_not_le enough)
    rw [generate_of_error failed]
    refine ⟨isFinished_eq_false_of_error failed, ?_, fun _ => rfl⟩
    intro fits
    omega

/-- However the buffers are cut: if the value can be written, every call hands out the next bytes
of its text, as many as its buffer takes, until none is left; otherwise every call that ends
before the failing point fills its buffer, and every other one reports the same error. -/
theorem fill_then_generate (schema : Schema) (shape : Shape) (value : Value) (limit : Option Nat)
    (sizes : List Nat) (size : Nat) :
    let (generator, handed) := (create schema shape value limit).fill sizes
    let result := (generator.generate size).2
    generator.produced = handed.length ∧
    match value.transcript schema limit 0 shape with
    | .ok ⟨text, none⟩ =>
      writeBytes schema shape value = .ok text ∧ handed = text.take sizes.sum ∧
      (∃ bytes, result = .ok bytes ∧ bytes.length = min size (text.length - handed.length) ∧
        handed ++ bytes <+: text) ∧
      (generator.isFinished ↔ generator.produced = text.length)
    | .ok ⟨front, some error⟩ =>
      handed <+: front ∧ generator.isFinished = false ∧
      (sizes.sum + size ≤ front.length → ∃ bytes, result = .ok bytes ∧ bytes.length = size ∧
        handed ++ bytes <+: front) ∧
      (front.length < sizes.sum + size → result = .error error)
    | .error error => handed = [] ∧ generator.isFinished = false ∧ result = .error error := by
  rcases filling : (create schema shape value limit).fill sizes with ⟨generator, handed⟩
  cases begins : value.transcript schema limit 0 shape with
  | error error =>
    obtain ⟨failed, produced⟩ := error_create begins
    rw [fill_of_error failed] at filling
    cases filling
    refine ⟨produced, rfl, isFinished_eq_false_of_error failed, ?_⟩
    rw [generate_of_error failed]
  | ok text =>
    obtain ⟨remaining, begun⟩ := remaining_create begins
    have filled := fill_remaining remaining sizes filling
    have produced := filled.produced
    rw [begun, Nat.zero_add] at produced
    refine ⟨produced, ?_⟩
    obtain ⟨bytes, error⟩ := text
    cases error with
    | none =>
      have written := (writeBytes_eq_ok_iff _ _ _ _).mpr (written_of_transcript value begins)
      exact ⟨written, filled.next_of_whole begun size⟩
    | some error => exact ⟨filled.front, filled.next_of_failing size⟩

/-- The second token is cut in two, and the call that fails hands out nothing. -/
example : (create .empty (.list .variant) (.list [.held (.bool true), .unset]) none).fill [0, 2, 3, 1] =
    (⟨.empty, {}, 5, some .unsetVariant⟩, [0x5B, 0x74, 0x72, 0x75, 0x65]) := rfl

end Generator

end IncrementalJson
