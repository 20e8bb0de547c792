import IncrementalJson.Proofs.Writing.Emitting

/-!
# Transcripts

A `Transcript` is what can be handed out of a text, together with the error that
stands behind it if the text cannot be written to its end.  `Value.transcript`
gives the transcript of a value by recursion on the value: no buffer, no frame
and no state of a generator comes into it.  What the steps of an emitter stand
for is a transcript as well, and it is that of the value it was started for.
-/

set_option autoImplicit false

namespace IncrementalJson

open Ascii

structure Transcript where
  bytes : List UInt8
  error : Option GenerateError
  deriving DecidableEq, Repr

namespace Transcript

def whole (bytes : List UInt8) : Transcript := ⟨bytes, none⟩

/-- One text behind another; nothing comes behind an error. -/
def append (front back : Transcript) : Transcript :=
  match front.error with
  | none => ⟨front.bytes ++ back.bytes, back.error⟩
  | some error => ⟨front.bytes, some error⟩

instance : Append Transcript := ⟨append⟩

theorem whole_append (bytes : List UInt8) (back : Transcript) :
    whole bytes ++ back = ⟨bytes ++ back.bytes, back.error⟩ := rfl

@[simp] theorem failed_append (bytes : List UInt8) (error : GenerateError) (back : Transcript) :
    (⟨bytes, some error⟩ : Transcript) ++ back = ⟨bytes, some error⟩ := rfl

@[simp] theorem whole_append_whole (front back : List UInt8) :
    whole front ++ whole back = whole (front ++ back) := rfl

@[simp] theorem append_whole_nil (front : Transcript) : front ++ whole [] = front := by
  obtain ⟨bytes, error⟩ := front
  cases error with
  | none =>
    rw [← whole, whole_append_whole, List.append_nil]
  | some error => rfl

theorem append_assoc (front middle back : Transcript) :
    front ++ middle ++ back = front ++ (middle ++ back) := by
  obtain ⟨bytes, error⟩ := front
  cases error with
  | some error => rfl
  | none =>
    obtain ⟨bytes', error'⟩ := middle
    cases error' with
    | some error' => rfl
    | none =>
      have front : (⟨bytes, none⟩ : Transcript) = whole bytes := rfl
      have middle : (⟨bytes', none⟩ : Transcript) = whole bytes' := rfl
      rw [front, middle, whole_append_whole]
      simp only [whole_append, List.append_assoc]

theorem append_eq_whole {front back : Transcript} {text : List UInt8}
    (whole_ : front ++ back = whole text) :
    ∃ bytes bytes', front = whole bytes ∧ back = whole bytes' ∧ text = bytes ++ bytes' := by
  obtain ⟨bytes, error⟩ := front
  obtain ⟨bytes', error'⟩ := back
  cases error with
  | some error => cases whole_
  | none =>
    cases whole_
    exact ⟨bytes, bytes', rfl, rfl, rfl⟩

theorem length_append_le (front back : Transcript) :
    (front ++ back).bytes.length ≤ front.bytes.length + back.bytes.length := by
  obtain ⟨bytes, error⟩ := front
  cases error with
  | some error => exact Nat.le_add_right _ _
  | none => exact Nat.le_of_eq List.length_append

def drop (size : Nat) (text : Transcript) : Transcript := ⟨text.bytes.drop size, text.error⟩

@[simp] theorem bytes_drop (size : Nat) (text : Transcript) :
    (text.drop size).bytes = text.bytes.drop size := rfl

@[simp] theorem error_drop (size : Nat) (text : Transcript) :
    (text.drop size).error = text.error := rfl

theorem drop_drop (size more : Nat) (text : Transcript) :
    (text.drop size).drop more = text.drop (size + more) := by
  simp only [drop, List.drop_drop]

theorem drop_whole_append {bytes : List UInt8} {size : Nat} (enough : size ≤ bytes.length)
    (back : Transcript) : (whole bytes ++ back).drop size = whole (bytes.drop size) ++ back := by
  simp only [drop, whole_append, List.drop_append_of_le_length enough]

def outcome (text : Transcript) : Except GenerateError (List UInt8) :=
  match text.error with
  | none => .ok text.bytes
  | some error => .error error

/-- A part of a text behind what leads to it.  If the part cannot even begin, what leads to it
is lost with it. -/
def led (lead : List UInt8) : Except GenerateError Transcript → Transcript
  | .ok part => whole lead ++ part
  | .error error => ⟨[], some error⟩

/-- The transcript of a value for which a frame has to go on top of others. -/
def pushed (limit : Option Nat) (depth : Nat) (text : Transcript) :
    Except GenerateError Transcript :=
  match limit with
  | none => .ok text
  | some limit => if limit ≤ depth then .error (.maxDepthReached limit) else .ok text

def separated : List Transcript → Transcript
  | [] => whole []
  | [text] => text
  | text :: next :: rest => text ++ (whole [comma] ++ separated (next :: rest))

def quoted (text : String) : Transcript := whole (stringTokens text).flatten

def named (name : String) (value : Except GenerateError Transcript) : Transcript :=
  quoted name ++ led [colon] value

end Transcript

open Transcript

mutual

def Value.transcript (schema : Schema) (limit : Option Nat) (depth : Nat) (shape : Shape)
    (value : Value) : Except GenerateError Transcript :=
  match value, shape.unbox with
  | .null, .null => pushed limit depth (whole nullText)
  | .bool value, .bool => pushed limit depth (whole (boolText value))
  | .string text, .string => pushed limit depth (quoted text)
  | .number value, .number _ =>
    match value.text? with
    | some text => pushed limit depth (whole (Utf8.encode text))
    | none => .error .nonFiniteNumber
  | .list items, .list item =>
    pushed limit depth
      (whole [leftBracket] ++ (itemsTranscript schema limit (depth + 1) item [] items ++
        whole [rightBracket]))
  | .unset, .variant => .error .unsetVariant
  | .held value, .variant => value.transcript schema limit depth value.heldShape
  | .absent, .option _ => pushed limit depth (whole nullText)
  | .present value, .option item => value.transcript schema limit depth item
  | .object members presence extras, shape =>
    match schema.table? shape with
    | some table =>
      let fields := fieldTranscripts schema limit (depth + 1) presence table.fields members 0
      let others := extraTranscripts schema limit (depth + 1) table.extra extras
      pushed limit depth
        (whole [leftBrace] ++ (separated (fields ++ others) ++ whole [rightBrace]))
    | none => .error (.unexpected .slotTypeMismatch)
  | _, _ => .error (.unexpected .slotTypeMismatch)

def itemsTranscript (schema : Schema) (limit : Option Nat) (depth : Nat) (item : Shape)
    (lead : List UInt8) : List Value → Transcript
  | [] => whole []
  | value :: rest =>
    led lead (value.transcript schema limit depth item) ++
      itemsTranscript schema limit depth item [comma] rest

def fieldTranscripts (schema : Schema) (limit : Option Nat) (depth : Nat)
    (bits : PresenceBits 64) (fields : List Field) : List Value → Nat → List Transcript
  | [], _ => []
  | value :: values, index =>
    match fields with
    | [] => []
    | field :: fields =>
      let rest := fieldTranscripts schema limit depth bits fields values (index + 1)
      if field.isLive index value bits then
        named field.name (value.transcript schema limit depth field.shape) :: rest
      else rest

def extraTranscripts (schema : Schema) (limit : Option Nat) (depth : Nat) (extra : Option Shape) :
    List (String × Value) → List Transcript
  | [] => []
  | (name, value) :: rest =>
    match extra with
    | some item =>
      named name (value.transcript schema limit depth item) ::
        extraTranscripts schema limit depth extra rest
    | none => []

end

variable {schema : Schema} {limit : Option Nat} {depth : Nat}

theorem Value.transcript_box (item : Shape) (value : Value) :
    value.transcript schema limit depth (.box item) =
      value.transcript schema limit depth item := by
  rw [transcript.eq_def schema limit depth (.box item), transcript.eq_def schema limit depth item]
  rfl

/-! ## Steps of emitters -/

def EmitStep.transcript (schema : Schema) (limit : Option Nat) (depth : Nat) :
    EmitStep → Transcript
  | .token bytes => whole bytes
  | .call lead shape value => led lead (value.transcript schema limit depth shape)
  | .fail lead error => led lead (.error error)

def stepsTranscript (schema : Schema) (limit : Option Nat) (depth : Nat) :
    List EmitStep → Transcript
  | [] => whole []
  | step :: rest => step.transcript schema limit depth ++ stepsTranscript schema limit depth rest

theorem stepsTranscript_append (front back : List EmitStep) :
    stepsTranscript schema limit depth (front ++ back) =
      stepsTranscript schema limit depth front ++ stepsTranscript schema limit depth back := by
  induction front with
  | nil => rfl
  | cons step rest ih =>
    simp only [List.cons_append, stepsTranscript, ih, Transcript.append_assoc]

theorem stepsTranscript_token (bytes : List UInt8) :
    stepsTranscript schema limit depth (Emitter.token bytes).steps = whole bytes :=
  append_whole_nil (whole bytes)

theorem stepsTranscript_tokens (tokens : List (List UInt8)) :
    stepsTranscript schema limit depth (tokens.map .token) = whole tokens.flatten := by
  induction tokens with
  | nil => rfl
  | cons token rest ih =>
    simp only [List.map_cons, stepsTranscript, EmitStep.transcript, ih, whole_append_whole,
      List.flatten_cons]

theorem stepsTranscript_items (item : Shape) (items : List Value) :
    stepsTranscript schema limit depth (Emitter.ofItems item items).steps =
      whole [leftBracket] ++
        (itemsTranscript schema limit depth item [] items ++ whole [rightBracket]) := by
  have later : ∀ items : List Value,
      stepsTranscript schema limit depth (items.map (.call [comma] item)) =
        itemsTranscript schema limit depth item [comma] items := by
    intro items
    induction items with
    | nil => rw [itemsTranscript]; rfl
    | cons value rest ih =>
      rw [itemsTranscript, List.map_cons, stepsTranscript, ih]
      rfl
  cases items with
  | nil =>
    rw [itemsTranscript]
    rfl
  | cons first rest =>
    rw [Emitter.ofItems, Emitter.steps, itemSteps, itemsTranscript, ← later rest]
    simp only [List.cons_append, stepsTranscript, stepsTranscript_append,
      Transcript.append_assoc]
    rfl

def memberTranscript (schema : Schema) (limit : Option Nat) (depth : Nat) :
    String × Shape × Value → Transcript
  | (name, shape, value) => named name (value.transcript schema limit depth shape)

theorem stepsTranscript_member (member : String × Shape × Value) :
    stepsTranscript schema limit depth (memberSteps member) =
      memberTranscript schema limit depth member := by
  obtain ⟨name, shape, value⟩ := member
  rw [memberSteps, stepsTranscript_append, stepsTranscript_tokens]
  simp only [stepsTranscript, append_whole_nil]
  rfl

theorem stepsTranscript_members (members : List (String × Shape × Value)) :
    stepsTranscript schema limit depth (objectSteps members) =
      whole [leftBrace] ++ (separated (members.map (memberTranscript schema limit depth)) ++
        whole [rightBrace]) := by
  cases members with
  | nil => rfl
  | cons first rest =>
    have joined : ∀ (first : String × Shape × Value) (rest : List (String × Shape × Value)),
        stepsTranscript schema limit depth (memberSteps first ++ laterMemberSteps rest) =
        separated ((first :: rest).map (memberTranscript schema limit depth)) := by
      intro first rest
      induction rest generalizing first with
      | nil =>
        rw [laterMemberSteps, List.flatMap_nil, List.append_nil, stepsTranscript_member]
        rfl
      | cons next rest ih =>
        rw [laterMemberSteps, List.flatMap_cons, List.cons_append, stepsTranscript_append,
          stepsTranscript_member, stepsTranscript, ← laterMemberSteps, ih next]
        rfl
    rw [objectSteps, MembersWriter.nextSteps]
    simp only [Bool.false_eq_true, if_false, List.nil_append, List.cons_append, stepsTranscript,
      stepsTranscript_append _ [_], joined]
    rfl

theorem fieldTranscripts_eq (bits : PresenceBits 64) (fields : List Field) (values : List Value)
    (index : Nat) :
    fieldTranscripts schema limit depth bits fields values index =
      (Table.liveFields bits fields values index).map (memberTranscript schema limit depth) := by
  induction values generalizing fields index with
  | nil =>
    rw [fieldTranscripts]
    cases fields <;> rfl
  | cons value values ih =>
    rw [fieldTranscripts.eq_def]
    cases fields with
    | nil => rfl
    | cons field fields =>
      simp only [Table.liveFields, ih]
      split <;> rfl

theorem extraTranscripts_eq (item : Shape) (extras : Entries Value) :
    extraTranscripts schema limit depth (some item) extras =
      (extras.map fun (name, value) => (name, item, value)).map
        (memberTranscript schema limit depth) := by
  induction extras with
  | nil =>
    rw [extraTranscripts]
    rfl
  | cons entry rest ih =>
    rw [extraTranscripts.eq_def]
    simp only [ih, List.map_cons]
    rfl

theorem liveMembers_transcripts (table : Table) (members : List Value)
    (presence : PresenceBits 64) (extras : Entries Value) :
    fieldTranscripts schema limit depth presence table.fields members 0 ++
        extraTranscripts schema limit depth table.extra extras =
      (table.liveMembers members presence extras).map (memberTranscript schema limit depth) := by
  rw [Table.liveMembers, List.map_append, fieldTranscripts_eq]
  cases table.extra with
  | some item => rw [extraTranscripts_eq]
  | none => cases extras <;> rw [extraTranscripts.eq_def] <;> rfl

theorem transcript_of_starts {shape : Shape} {value : Value} {emitter : Emitter}
    (starts : Starts schema shape value emitter) :
    value.transcript schema limit depth shape =
      pushed limit depth (stepsTranscript schema limit (depth + 1) emitter.steps) := by
  induction starts with
  | null unboxed | bool value unboxed | absent unboxed =>
    rw [Value.transcript.eq_def, unboxed, stepsTranscript_token]
  | string text unboxed =>
    rw [Value.transcript.eq_def, unboxed, Emitter.steps_ofString, stepsTranscript_tokens]
    rfl
  | number unboxed written =>
    rw [Value.transcript.eq_def, unboxed]
    simp only [written, stepsTranscript_token]
  | list items unboxed =>
    rw [Value.transcript.eq_def, unboxed, stepsTranscript_items]
  | held unboxed _ ih | present unboxed _ ih =>
    rw [Value.transcript.eq_def, unboxed]
    exact ih
  | object members presence extras declared =>
    rw [Value.transcript.eq_def]
    simp only [declared, liveMembers_transcripts, Emitter.steps_ofObject, stepsTranscript_members]

theorem transcript_of_start_error {shape : Shape} {value : Value} {error : GenerateError}
    (failed : Emitter.start schema shape value = .error error) :
    value.transcript schema limit depth shape = .error error := by
  fun_induction Emitter.start schema shape value with
  | case5 _ value type unboxed noText =>
    rw [Value.transcript.eq_def, unboxed]
    simp only [noText]
    cases failed
    rfl
  | case7 _ unboxed =>
    rw [Value.transcript.eq_def, unboxed]
    cases failed
    rfl
  | case8 _ value unboxed ih | case10 _ value item unboxed ih =>
    rw [Value.transcript.eq_def, unboxed]
    exact ih failed
  | case12 _ members presence extras undeclared =>
    rw [Value.transcript.eq_def]
    simp only [undeclared]
    cases failed
    rfl
  | case13 shape value =>
    cases failed
    rw [Value.transcript.eq_def]
    split <;> simp_all
  | _ => cases failed

/-! ## Parts -/

theorem mem_of_mem_liveMembers {table : Table} {members : List Value}
    {presence : PresenceBits 64} {extras : Entries Value} {member : String × Shape × Value}
    (among : member ∈ table.liveMembers members presence extras) :
    member.2.2 ∈ members ∨ (member.1, member.2.2) ∈ extras := by
  rcases Table.mem_liveMembers.mp among with ⟨_, _, _, -, there, -, rfl⟩ | ⟨_, _, -, inside, rfl⟩
  · exact .inl (List.mem_of_getElem? there)
  · exact .inr inside

theorem sizeOf_lt_of_mem_liveMembers {table : Table} {members : List Value}
    {presence : PresenceBits 64} {extras : Entries Value} {member : String × Shape × Value}
    (among : member ∈ table.liveMembers members presence extras) :
    sizeOf member.2.2 < sizeOf (Value.object members presence extras) := by
  rw [Value.object.sizeOf_spec]
  rcases mem_of_mem_liveMembers among with inside | inside
  · have smaller := List.sizeOf_lt_of_mem inside
    omega
  · have smaller := List.sizeOf_lt_of_mem inside
    rw [Prod.mk.sizeOf_spec] at smaller
    omega

theorem mem_of_call_mem_items {item shape : Shape} {items : List Value} {lead : List UInt8}
    {value : Value} (among : .call lead shape value ∈ (Emitter.ofItems item items).steps) :
    shape = item ∧ value ∈ items := by
  cases items with
  | nil => simp [Emitter.ofItems, Emitter.steps, itemSteps] at among
  | cons first rest =>
    simp only [Emitter.ofItems, Emitter.steps, itemSteps, List.cons_append, List.mem_cons, List.mem_append, List.mem_map,
      EmitStep.call.injEq, reduceCtorEq, false_or, or_false, List.not_mem_nil] at among
    rcases among with ⟨-, rfl, rfl⟩ | ⟨value, inside, -, rfl, rfl⟩
    · exact ⟨rfl, List.mem_cons_self⟩
    · exact ⟨rfl, List.mem_cons_of_mem _ inside⟩

theorem mem_of_call_mem_members {members : List (String × Shape × Value)} {lead : List UInt8}
    {shape : Shape} {value : Value}
    (among : .call lead shape value ∈ (objectSteps members)) :
    ∃ name, (name, shape, value) ∈ members := by
  have single : ∀ member : String × Shape × Value,
      .call lead shape value ∈ memberSteps member → member = (member.1, shape, value) := by
    rintro ⟨name, inner, part⟩ inside
    simp only [memberSteps, List.mem_append, List.mem_map, List.mem_singleton,
      EmitStep.call.injEq, reduceCtorEq, and_false, exists_false, false_or] at inside
    obtain ⟨-, rfl, rfl⟩ := inside
    rfl
  cases members with
  | nil => simp [objectSteps, MembersWriter.nextSteps] at among
  | cons first rest =>
    simp only [objectSteps, MembersWriter.nextSteps, laterMemberSteps, Bool.false_eq_true, if_false,
      List.nil_append, List.cons_append, List.mem_cons, List.mem_append, List.mem_flatMap,
      reduceCtorEq, false_or, or_false, List.not_mem_nil] at among
    rcases among with here | ⟨member, inside, here⟩
    · exact ⟨first.1, single first here ▸ List.mem_cons_self⟩
    · exact ⟨member.1, single member here ▸ List.mem_cons_of_mem _ inside⟩

/-- Whatever an emitter calls for is a part of its value, and smaller. -/
theorem Starts.sizeOf_lt {shape inner : Shape} {value part : Value} {emitter : Emitter}
    {lead : List UInt8} (starts : Starts schema shape value emitter)
    (among : .call lead inner part ∈ emitter.steps) : sizeOf part < sizeOf value := by
  induction starts with
  | null | bool | absent | number =>
    simp [Emitter.steps] at among
  | string text =>
    simp [Emitter.ofString, Emitter.steps] at among
  | list items =>
    have inside := List.sizeOf_lt_of_mem (mem_of_call_mem_items among).2
    simp only [Value.list.sizeOf_spec]
    omega
  | held _ _ ih =>
    have inside := ih among
    simp only [Value.held.sizeOf_spec]
    omega
  | present _ _ ih =>
    have inside := ih among
    simp only [Value.present.sizeOf_spec]
    omega
  | object members presence extras =>
    obtain ⟨name, live⟩ := mem_of_call_mem_members among
    exact sizeOf_lt_of_mem_liveMembers live

/-- The transcript of a value: it cannot begin, or there is its emitter and room for one more
frame. -/
theorem transcript_eq_ok {shape : Shape} {value : Value} {text : Transcript}
    (begins : value.transcript schema limit depth shape = .ok text) :
    ∃ emitter, Starts schema shape value emitter ∧
      text = stepsTranscript schema limit (depth + 1) emitter.steps := by
  cases started : Emitter.start schema shape value with
  | error error =>
    rw [transcript_of_start_error started] at begins
    cases begins
  | ok emitter =>
    have starts := (Emitter.start_eq_ok_iff _ _ _ _).mp started
    refine ⟨emitter, starts, ?_⟩
    rw [transcript_of_starts starts] at begins
    cases limit with
    | none =>
      cases begins
      rfl
    | some limit =>
      simp only [pushed] at begins
      split at begins <;> cases begins
      rfl

/-! ## Whole texts -/

theorem led_eq_whole {lead : List UInt8} {part : Except GenerateError Transcript}
    {text : List UInt8} (whole_ : led lead part = whole text) :
    ∃ inner, part = .ok (whole inner) ∧ text = lead ++ inner := by
  cases part with
  | error error => cases whole_
  | ok part =>
    obtain ⟨bytes, inner, front, rfl, rfl⟩ := append_eq_whole whole_
    cases front
    exact ⟨inner, rfl, rfl⟩

/-- Steps write a whole text if the parts that they call for are written. -/
theorem emits_of_stepsTranscript {steps : List EmitStep} {text : List UInt8}
    (parts : ∀ lead shape value, .call lead shape value ∈ steps → ∀ inner,
      value.transcript schema limit depth shape = .ok (whole inner) →
        Written schema shape value inner)
    (whole_ : stepsTranscript schema limit depth steps = whole text) :
    Emits schema steps text := by
  induction steps generalizing text with
  | nil =>
    cases whole_
    exact .nil
  | cons step rest ih =>
    obtain ⟨front, more, here, behind, rfl⟩ := append_eq_whole whole_
    have emits := ih (fun lead shape value among => parts lead shape value (.tail _ among)) behind
    cases step with
    | token bytes =>
      cases here
      exact .token emits
    | call lead shape value =>
      obtain ⟨inner, begins, rfl⟩ := led_eq_whole here
      have written := parts lead shape value List.mem_cons_self inner begins
      rw [List.append_assoc]
      exact (emits_call _ _ _ _ _).mpr ⟨inner, more, written, emits, rfl⟩
    | fail lead error => cases here

theorem written_of_transcript (value : Value) {limit : Option Nat} {depth : Nat} {shape : Shape}
    {text : List UInt8} (begins : value.transcript schema limit depth shape = .ok (whole text)) :
    Written schema shape value text := by
  obtain ⟨emitter, starts, steps⟩ := transcript_eq_ok begins
  refine ⟨emitter, (Emitter.start_eq_ok_iff _ _ _ _).mpr starts, ?_⟩
  refine emits_of_stepsTranscript ?_ steps.symm
  intro lead inner part among text begins
  have smaller := starts.sizeOf_lt among
  exact written_of_transcript part begins
termination_by sizeOf value

theorem stepsTranscript_of_emits {steps : List EmitStep} {text : List UInt8}
    (emits : Emits schema steps text) (depth : Nat) :
    stepsTranscript schema none depth steps = whole text := by
  induction emits generalizing depth with
  | nil => rfl
  | token _ ih =>
    rw [stepsTranscript, ih]
    rfl
  | call started _ _ inner rest =>
    have starts := (Emitter.start_eq_ok_iff _ _ _ _).mp started
    rw [stepsTranscript, EmitStep.transcript, transcript_of_starts starts, rest, inner]
    simp only [pushed, led, whole_append_whole, List.append_assoc]

/-- Whatever is written of a value is its transcript if the frames are not limited. -/
theorem transcript_of_written {shape : Shape} {value : Value} {text : List UInt8}
    (written : Written schema shape value text) :
    value.transcript schema none 0 shape = .ok (whole text) := by
  obtain ⟨emitter, started, emits⟩ := written
  have starts := (Emitter.start_eq_ok_iff _ _ _ _).mp started
  rw [transcript_of_starts starts, stepsTranscript_of_emits emits]
  rfl

end IncrementalJson
