import IncrementalJson.Proofs.Writing.Numerals
import IncrementalJson.Proofs.Writing.Transcript

/-!
# How long a text can get

`Value.extent` bounds every text of a value, so that collecting a text in pieces
ends in as many calls as the extent allows for.
-/

set_option autoImplicit false

namespace IncrementalJson

variable {schema : Schema}

/-- No step writes more bytes than this. -/
def EmitStep.extent (bound : Nat) : EmitStep → Nat
  | .token bytes => bytes.length
  | .call lead _ value => lead.length + value.extent bound
  | .fail lead _ => lead.length

def stepsExtent (bound : Nat) (steps : List EmitStep) : Nat :=
  (steps.map (EmitStep.extent bound)).sum

@[simp] theorem stepsExtent_nil (bound : Nat) : stepsExtent bound [] = 0 := rfl

@[simp] theorem stepsExtent_cons (bound : Nat) (step : EmitStep) (steps : List EmitStep) :
    stepsExtent bound (step :: steps) = step.extent bound + stepsExtent bound steps := by
  simp [stepsExtent]

@[simp] theorem stepsExtent_append (bound : Nat) (front back : List EmitStep) :
    stepsExtent bound (front ++ back) = stepsExtent bound front + stepsExtent bound back := by
  simp [stepsExtent]

/-! ## Strings and names -/

theorem length_encodeString (text : String) :
    (Utf8.encodeString text).length = text.utf8ByteSize := by
  rw [← String.size_toByteArray, ← String.utf8Encode_toList, List.utf8Encode,
    List.size_toByteArray]
  rfl

theorem length_octetToken_le (octet : UInt8) : (octetToken octet).length ≤ 6 := by
  rw [octetToken, Escape.escape?]
  repeat' split
  all_goals simp

theorem stepsExtent_octets (bound : Nat) (octets : List UInt8) :
    stepsExtent bound ((octets.map octetToken).map .token) ≤ 6 * octets.length := by
  induction octets with
  | nil => exact Nat.zero_le _
  | cons octet octets ih =>
    have short := length_octetToken_le octet
    simp only [List.map_cons, stepsExtent_cons, EmitStep.extent, List.length_cons]
    omega

theorem stepsExtent_string (bound : Nat) (text : String) :
    stepsExtent bound ((stringTokens text).map .token) ≤ 6 * text.utf8ByteSize + 2 := by
  have octets := stepsExtent_octets bound (Utf8.encodeString text)
  rw [length_encodeString] at octets
  simp only [stringTokens, List.map_cons, List.cons_append, List.map_append, stepsExtent_cons,
    stepsExtent_append, EmitStep.extent, List.map_nil, List.length_cons, List.length_nil,
    stepsExtent_nil]
  omega

theorem le_foldl_of_grows {α : Type} {step : Nat → α → Nat}
    (grows : ∀ bound item, bound ≤ step bound item) (items : List α) (bound : Nat) :
    bound ≤ items.foldl step bound := by
  induction items generalizing bound with
  | nil => exact Nat.le_refl bound
  | cons item items ih => exact Nat.le_trans (grows bound item) (ih _)

theorem le_foldl_of_mem {α : Type} {step : Nat → α → Nat} {size : Nat}
    (grows : ∀ bound item, bound ≤ step bound item) {items : List α} {item : α}
    (among : item ∈ items) (covers : ∀ bound, size ≤ step bound item) (bound : Nat) :
    size ≤ items.foldl step bound := by
  induction items generalizing bound with
  | nil => cases among
  | cons first items ih =>
    rcases List.mem_cons.mp among with rfl | among
    · exact Nat.le_trans (covers bound) (le_foldl_of_grows grows items _)
    · exact ih among _

theorem Schema.le_nameBound {shape : Shape} {table : Table}
    (declared : schema.table? shape = some table) {field : Field} (among : field ∈ table.fields) :
    6 * field.name.utf8ByteSize + 2 ≤ schema.nameBound := by
  have grows : ∀ (bound : Nat) (field : Field),
      bound ≤ max bound (6 * field.name.utf8ByteSize + 2) := fun bound _ => Nat.le_max_left _ _
  rw [nameBound]
  cases shape with
  | extras item =>
    cases declared
    cases among
  | record position =>
    simp only [table?, record, Option.some.injEq] at declared
    subst declared
    cases found : schema.records[position]? with
    | none =>
      rw [found] at among
      cases among
    | some table =>
      rw [found] at among
      refine le_foldl_of_mem ?_ (List.mem_of_getElem? found) ?_ 0
      · intro bound table
        exact le_foldl_of_grows grows table.fields bound
      · intro bound
        exact le_foldl_of_mem grows among (fun bound => Nat.le_max_right _ _) bound
  | _ => cases declared

/-! ## Items and members -/

theorem stepsExtent_items (bound : Nat) (item : Shape) (items : List Value) :
    stepsExtent bound (Emitter.ofItems item items).steps ≤
      Value.extentOfItems bound items + 2 := by
  have calls : ∀ items : List Value, stepsExtent bound (items.map (.call [Ascii.comma] item)) ≤
      Value.extentOfItems bound items := by
    intro items
    induction items with
    | nil => exact Nat.zero_le _
    | cons value items ih =>
      simp only [List.map_cons, stepsExtent_cons, EmitStep.extent, Value.extentOfItems,
        List.length_cons, List.length_nil]
      omega
  cases items with
  | nil => simp [Emitter.ofItems, Emitter.steps, itemSteps, EmitStep.extent, Value.extentOfItems]
  | cons first rest =>
    have behind := calls rest
    simp only [Emitter.ofItems, Emitter.steps, itemSteps, Bool.false_eq_true, if_false,
      stepsExtent_append, stepsExtent_cons, EmitStep.extent, Value.extentOfItems,
      List.length_cons, List.length_nil, stepsExtent_nil]
    omega

/-- No member writes more bytes than this, a comma in front included. -/
def memberExtent (bound : Nat) (member : String × Shape × Value) : Nat :=
  6 * member.1.utf8ByteSize + 4 + member.2.2.extent bound

theorem stepsExtent_member (bound : Nat) (member : String × Shape × Value) :
    stepsExtent bound (memberSteps member) + 1 ≤ memberExtent bound member := by
  obtain ⟨name, shape, value⟩ := member
  have named := stepsExtent_string bound name
  simp only [memberSteps, stepsExtent_append, stepsExtent_cons, EmitStep.extent,
    memberExtent, List.length_cons, List.length_nil, stepsExtent_nil]
  omega

theorem stepsExtent_members (bound : Nat) (members : List (String × Shape × Value)) :
    stepsExtent bound (objectSteps members) ≤
      (members.map (memberExtent bound)).sum + 2 := by
  have more : ∀ members : List (String × Shape × Value),
      stepsExtent bound (laterMemberSteps members) ≤ (members.map (memberExtent bound)).sum := by
    intro members
    induction members with
    | nil => exact Nat.zero_le _
    | cons member members ih =>
      have first := stepsExtent_member bound member
      rw [laterMemberSteps] at ih ⊢
      simp only [List.flatMap_cons, stepsExtent_append, stepsExtent_cons, EmitStep.extent,
        List.length_cons, List.length_nil, List.map_cons, List.sum_cons]
      omega
  cases members with
  | nil => simp [objectSteps, MembersWriter.nextSteps, EmitStep.extent]
  | cons member members =>
    have first := stepsExtent_member bound member
    have behind := more members
    simp only [objectSteps, MembersWriter.nextSteps, Bool.false_eq_true, if_false, List.nil_append,
      stepsExtent_append, stepsExtent_cons, EmitStep.extent, List.length_cons, List.length_nil, List.map_cons, List.sum_cons, stepsExtent_nil]
    omega

theorem sum_liveFields_le (bits : PresenceBits 64) {fields : List Field}
    (named : ∀ field ∈ fields, 6 * field.name.utf8ByteSize + 2 ≤ schema.nameBound)
    (values : List Value) (index : Nat) :
    ((Table.liveFields bits fields values index).map (memberExtent schema.nameBound)).sum ≤
      values.length * (schema.nameBound + 2) +
        Value.extentOfItems schema.nameBound values := by
  induction fields generalizing values index with
  | nil => exact Nat.zero_le _
  | cons field fields ih =>
    cases values with
    | nil => exact Nat.zero_le _
    | cons value values =>
      have first := named field List.mem_cons_self
      have behind := ih (fun field among => named field (List.mem_cons_of_mem _ among)) values
        (index + 1)
      have split : (values.length + 1) * (schema.nameBound + 2) =
          values.length * (schema.nameBound + 2) + (schema.nameBound + 2) := Nat.succ_mul _ _
      simp only [Table.liveFields, List.length_cons, Value.extentOfItems, split]
      split
      · simp only [List.map_cons, List.sum_cons, memberExtent] at behind ⊢
        omega
      · omega

theorem sum_extras (bound : Nat) (shape : Shape) (extras : Entries Value) :
    ((extras.map fun (name, value) => (name, shape, value)).map (memberExtent bound)).sum =
      Value.extentOfEntries bound extras := by
  induction extras with
  | nil => rfl
  | cons entry extras ih =>
    obtain ⟨name, value⟩ := entry
    simp only [List.map_cons, List.sum_cons, ih, memberExtent, Value.extentOfEntries]

theorem sum_liveMembers_le {shape : Shape} {table : Table}
    (declared : schema.table? shape = some table) (members : List Value)
    (presence : PresenceBits 64) (extras : Entries Value) :
    ((table.liveMembers members presence extras).map (memberExtent schema.nameBound)).sum ≤
      members.length * (schema.nameBound + 2) + Value.extentOfItems schema.nameBound members +
        Value.extentOfEntries schema.nameBound extras := by
  have fields := sum_liveFields_le presence (fun field among => schema.le_nameBound declared among)
    members 0
  rw [Table.liveMembers, List.map_append, List.sum_append]
  cases table.extra with
  | none => exact Nat.le_trans fields (Nat.le_add_right _ _)
  | some shape =>
    simp only [sum_extras]
    omega

/-! ## Values -/

theorem stepsExtent_start {shape : Shape} {value : Value} {emitter : Emitter}
    (starts : Starts schema shape value emitter) :
    stepsExtent schema.nameBound emitter.steps ≤ value.extent schema.nameBound := by
  induction starts with
  | null => exact Nat.le_refl 4
  | bool truth =>
    cases truth with
    | false => exact Nat.le_refl 5
    | true => exact Nat.le_succ 4
  | string text => exact stepsExtent_string _ text
  | number unboxed written =>
    obtain ⟨literal, rfl, -⟩ := NumberValue.literal_of_text? written
    rw [Value.extent, written]
    exact Nat.le_of_eq (length_encode_ascii literal.ascii_text)
  | @list _ item items => exact stepsExtent_items _ item items
  | held _ _ ih => exact ih
  | absent => exact Nat.le_refl 4
  | present _ _ ih => exact ih
  | @object _ table members presence extras declared =>
    have live := sum_liveMembers_le declared members presence extras
    have steps := stepsExtent_members schema.nameBound
      (table.liveMembers members presence extras)
    rw [Value.extent, Emitter.steps_ofObject]
    omega

/-- Nothing that steps hand out is longer than their extent. -/
theorem length_stepsTranscript_le {limit : Option Nat} {depth : Nat} {steps : List EmitStep}
    (parts : ∀ lead shape value, .call lead shape value ∈ steps → ∀ text,
      value.transcript schema limit depth shape = .ok text →
        text.bytes.length ≤ value.extent schema.nameBound) :
    (stepsTranscript schema limit depth steps).bytes.length ≤
      stepsExtent schema.nameBound steps := by
  induction steps with
  | nil => exact Nat.zero_le _
  | cons step rest ih =>
    have behind := ih (fun lead shape value among => parts lead shape value (.tail _ among))
    have here : (step.transcript schema limit depth).bytes.length ≤
        step.extent schema.nameBound := by
      cases step with
      | token bytes => exact Nat.le_refl _
      | fail lead error => exact Nat.zero_le _
      | call lead shape value =>
        rw [EmitStep.transcript, EmitStep.extent]
        cases begins : value.transcript schema limit depth shape with
        | error error => exact Nat.zero_le _
        | ok text =>
          have inside := parts lead shape value List.mem_cons_self text begins
          exact Nat.le_trans (Transcript.length_append_le _ text)
            (Nat.add_le_add_left inside _)
    have both := Transcript.length_append_le (step.transcript schema limit depth)
      (stepsTranscript schema limit depth rest)
    rw [stepsTranscript, stepsExtent_cons]
    omega

/-- Nothing that is handed out of a value is longer than its extent. -/
theorem Value.length_transcript_le (value : Value) {limit : Option Nat} {depth : Nat}
    {shape : Shape} {text : Transcript}
    (begins : value.transcript schema limit depth shape = .ok text) :
    text.bytes.length ≤ value.extent schema.nameBound := by
  obtain ⟨emitter, starts, rfl⟩ := transcript_eq_ok begins
  refine Nat.le_trans (length_stepsTranscript_le ?_) (stepsExtent_start starts)
  intro lead shape part among text begins
  have smaller := starts.sizeOf_lt among
  exact part.length_transcript_le begins
termination_by sizeOf value

end IncrementalJson
