import IncrementalJson.Parser
import IncrementalJson.Proofs.Reading.Forwarding
import IncrementalJson.Proofs.Stack.Runs

/-!
# Reading makes progress

A turn of a reading frame that calls or completes uses up a byte of the input, or
some of the weight of the frame.  So the turns that a parser allows for a chunk
are enough, whatever frames it finds on its stack.
-/

set_option autoImplicit false

namespace IncrementalJson

open Ascii

/-- What a body has to spend on turns that take no byte. -/
def FrameBody.weight : FrameBody → Nat
  | .variant none => 3
  | .array _ .element _ => 5
  | _ => 1

def Frame.weight : Frame → Nat
  | .core _ body => body.weight
  | .box _ inner | .present _ inner => inner.weight
  | .undecided _ => 3
  | .absent _ _ => 1

/-- What the unread bytes of an input are worth. -/
def Input.room (input : Input) : Nat := 8 * input.bytes.length

def Reading.room (reading : Reading) : Nat := reading.input.room

/-- A call or a completion is paid for out of a budget. -/
def Affords {β : Type} (weight : β → Nat) (budget : Nat) : Except ParseError (Advance β) → Prop
  | .ok ⟨body, rest, _, .call child⟩ => rest.room + weight body + child.weight < budget
  | .ok ⟨_, rest, _, .complete⟩ => rest.room < budget
  | _ => True

theorem Input.length_behindSpaces (closed : Bool) (offset : Nat) (bytes : List UInt8) :
    (behindSpaces closed offset bytes).bytes.length ≤ bytes.length := by
  induction bytes generalizing offset with
  | nil => exact Nat.le_refl _
  | cons byte rest ih =>
    rw [behindSpaces]
    split
    · exact Nat.le_succ_of_le (ih (offset + 1))
    · exact Nat.le_refl _

theorem Input.room_next {input : Input} (filled : input.bytes ≠ []) :
    input.next.room + 8 = input.room := by
  obtain ⟨bytes, offset, closed⟩ := input
  cases bytes with
  | nil => exact absurd rfl filled
  | cons byte rest =>
    simp only [room, next, List.tail_cons, List.length_cons]
    omega

/-- Passing over whitespace costs nothing, and nor does waiting behind it. -/
theorem Affords.significant {β : Type} {weight : β → Nat} {budget : Nat} {input : Input}
    {body : β} {scratch : Scratch} {act : UInt8 → Input → Except ParseError (Advance β)}
    (acts : ∀ byte here, here.room ≤ input.room → here.bytes ≠ [] →
      Affords weight budget (act byte here)) :
    Affords weight budget
      (input.significant (fun rest => ⟨body, rest, scratch, .pause⟩) act) := by
  have shorter := Input.length_behindSpaces input.closed input.offset input.bytes
  rw [Input.significant]
  unfold Input.skipSpaces
  rcases skipped : Input.behindSpaces input.closed input.offset input.bytes with
    ⟨bytes, offset, closed⟩
  rw [skipped] at shorter
  cases bytes with
  | nil => cases closed <;> trivial
  | cons byte rest =>
    apply acts
    · exact Nat.mul_le_mul_left 8 shorter
    · exact List.cons_ne_nil _ _

theorem Input.room_matchBytes {closed : Bool} {rest left : List UInt8} {offset : Nat}
    {bytes : List UInt8} {input : Input}
    (matched : matchBytes closed rest offset bytes = .ok (left, input)) :
    input.bytes.length ≤ bytes.length := by
  induction rest generalizing offset bytes with
  | nil =>
    cases matched
    exact Nat.le_refl _
  | cons expected more ih =>
    cases bytes with
    | nil =>
      rw [matchBytes] at matched
      split at matched
      · cases matched
      · cases matched
        exact Nat.le_refl _
    | cons byte bytes =>
      rw [matchBytes] at matched
      split at matched
      · exact Nat.le_succ_of_le (ih matched)
      · cases matched

theorem Affords.literal {β : Type} {weight : β → Nat} {budget : Nat} {input : Input}
    {scratch : Scratch} (wrap : List UInt8 → β) (rest : List UInt8)
    (enough : input.room < budget) :
    Affords weight budget ((input.matchLiteral rest).map fun (left, input) =>
      ⟨wrap left, input, scratch, literalStep left⟩) := by
  rcases matched : input.matchLiteral rest with error | ⟨left, later⟩
  · trivial
  · have shorter : later.bytes.length ≤ input.bytes.length := by
      rw [Input.matchLiteral] at matched
      split at matched
      · cases matched
        simp [Input.advance]
      · exact Input.room_matchBytes matched
    simp only [Except.map, literalStep]
    split
    · simp only [Affords, Input.room] at enough ⊢
      omega
    · trivial

theorem NumberLexer.length_scanBytes {closed : Bool} {lexer : NumberLexer} {text : Array UInt8}
    {offset : Nat} {bytes : List UInt8} {scan : NumberScan}
    (scanned : lexer.scanBytes closed text offset bytes = .ok scan) :
    scan.input.bytes.length ≤ bytes.length := by
  induction bytes generalizing lexer text offset with
  | nil =>
    cases scanned
    exact Nat.le_refl _
  | cons byte rest ih =>
    rw [scanBytes] at scanned
    split at scanned
    · exact Nat.le_succ_of_le (ih scanned)
    · cases scanned
      exact Nat.le_refl _
    · cases scanned

theorem StringLexer.length_scanBytes {closed : Bool} {lexer : StringLexer}
    {octets run octets' tail : Array UInt8} {offset : Nat} {bytes : List UInt8} {input : Input}
    (scanned : lexer.scanBytes closed octets run offset bytes =
      .ok (.closed octets' tail input)) :
    input.bytes.length < bytes.length := by
  induction bytes generalizing lexer octets run offset with
  | nil =>
    rw [scanBytes] at scanned
    split at scanned <;> cases scanned
  | cons byte rest ih =>
    rw [scanBytes] at scanned
    split at scanned
    · exact Nat.lt_succ_of_lt (ih scanned)
    · exact Nat.lt_succ_of_lt (ih scanned)
    · cases scanned
      exact Nat.lt_succ_self _
    · cases scanned

namespace FrameBody

variable {schema : Schema} {input : Input} {scratch : Scratch} {budget : Nat}

theorem weight_pos (body : FrameBody) : 0 < body.weight := by
  unfold weight
  split <;> omega

theorem weight_start_le (schema : Schema) (shape : Shape) :
    (Frame.start schema shape).weight ≤ 3 := by
  induction shape with
  | box item ih => exact ih
  | option item => exact Nat.le_refl 3
  | null | bool | string | number | variant | list | extras | record =>
    simp [Frame.start, Frame.weight, start, weight]

theorem weight_start_of_byte {byte : UInt8} {shape : Shape} (held : heldShapeOf? byte = some shape) :
    (Frame.start schema shape).weight = 1 := by
  unfold heldShapeOf? at held
  repeat' split at held
  all_goals cases held <;> rfl

@[simp] theorem weight_pending (item : Shape) (items : Array Value) :
    (array item .pending items).weight = 1 :=
  rfl

@[simp] theorem weight_object (table : Table) (phase : ObjectPhase) (target : Option Target)
    (members : List Value) (presence : PresenceBits 64) (extras : Entries Value) :
    (object table phase target members presence extras).weight = 1 :=
  rfl

@[simp] theorem weight_held (value : Value) : (variant (some value)).weight = 1 :=
  rfl

theorem affords_resumeNumber (type : NumberType) (lexer : NumberLexer) (spilled : Bool)
    (result : Option NumberValue) (enough : input.room < budget) :
    Affords weight budget (resumeNumber type lexer spilled result input scratch) := by
  have ends (lexer : NumberLexer) (text : Array UInt8) (rest : Input) (scratch : Scratch)
      (shorter : rest.bytes.length ≤ input.bytes.length) :
      Affords weight budget (endNumber type lexer text rest scratch) := by
    rw [endNumber]
    rcases type.read lexer text.toList with error | value
    · trivial
    · exact Nat.lt_of_le_of_lt (Nat.mul_le_mul_left 8 shorter) enough
  rw [resumeNumber]
  rcases scanned : lexer.scan input with error | ⟨later, text, rest, ended⟩
  · trivial
  · cases ended with
    | false => trivial
    | true =>
      have shorter : rest.bytes.length ≤ input.bytes.length := NumberLexer.length_scanBytes scanned
      cases spilled
      · exact ends later text rest scratch shorter
      · exact ends later (scratch ++ text) rest #[] shorter

theorem affords_resumeString (lexer : StringLexer) (octets : Array UInt8)
    (enough : input.room < budget) :
    Affords weight budget (resumeString lexer octets input scratch) := by
  rw [resumeString]
  rcases scanned : lexer.scan octets input with error | scan
  · trivial
  · cases scan with
    | pending => trivial
    | closed octets tail rest =>
      have shorter := StringLexer.length_scanBytes scanned
      exact Nat.lt_of_le_of_lt (Nat.mul_le_mul_left 8 (Nat.le_of_lt shorter)) enough

theorem affords_arrayElement (item : Shape) (items : Array Value)
    (enough : input.room + 5 ≤ budget) :
    Affords weight budget (arrayElement schema item items input scratch) := by
  refine Affords.significant fun byte here fewer filled => ?_
  have used := Input.room_next filled
  have light := weight_start_le schema item
  split
  · simp only [Affords]
    omega
  · simp only [Affords, weight_pending]
    omega

theorem affords_resumeArray (item : Shape) (phase : ArrayPhase) (items : Array Value)
    (enough : input.room + (array item phase items).weight ≤ budget) :
    Affords weight budget (resumeArray schema item phase items input scratch) := by
  have positive := weight_pos (array item phase items)
  cases phase with
  | opening =>
    simp only [resumeArray]
    refine Affords.significant fun byte here fewer filled => ?_
    have used := Input.room_next filled
    split
    · exact affords_arrayElement item items (by omega)
    · trivial
  | element => exact affords_arrayElement item items enough
  | comma =>
    simp only [resumeArray]
    refine Affords.significant fun byte here fewer filled => ?_
    have used := Input.room_next filled
    split
    · exact affords_arrayElement item items (by omega)
    · split
      · simp only [Affords]
        omega
      · trivial
  | pending =>
    simp only [resumeArray]
    exact Affords.significant fun _ _ _ _ => trivial

theorem affords_objectColon (table : Table) (target : Option Target) (members : List Value)
    (presence : PresenceBits 64) (extras : Entries Value) (enough : input.room ≤ budget) :
    Affords weight budget
      (objectColon schema table target members presence extras input scratch) := by
  refine Affords.significant fun byte here fewer filled => ?_
  have used := Input.room_next filled
  split
  · cases target with
    | none => trivial
    | some target =>
      simp only
      split
      · rename_i shape _
        have light := weight_start_le schema shape
        simp only [Affords, weight_object]
        omega
      · trivial
  · trivial

theorem affords_objectInName (table : Table) (lexer : StringLexer) (target : Option Target)
    (members : List Value) (presence : PresenceBits 64) (extras : Entries Value)
    (enough : input.room ≤ budget) :
    Affords weight budget
      (objectInName schema table lexer target members presence extras input scratch) := by
  rw [objectInName]
  rcases scanned : lexer.scan scratch input with error | scan
  · trivial
  · cases scan with
    | pending => trivial
    | closed octets tail rest =>
      have shorter := StringLexer.length_scanBytes scanned
      cases found : table.resolve schema extras octets.toList tail.toList with
      | error error =>
        simp only [found]
        trivial
      | ok target =>
        simp only [found]
        apply affords_objectColon
        exact Nat.le_trans (Nat.mul_le_mul_left 8 (Nat.le_of_lt shorter)) enough

theorem affords_objectName (table : Table) (first : Bool) (target : Option Target)
    (members : List Value) (presence : PresenceBits 64) (extras : Entries Value)
    (enough : input.room ≤ budget) :
    Affords weight budget
      (objectName schema table first target members presence extras input scratch) := by
  refine Affords.significant fun byte here fewer filled => ?_
  have used := Input.room_next filled
  split
  · exact affords_objectInName table {} target members presence extras (by omega)
  · split
    · simp only [Affords]
      omega
    · trivial

theorem affords_resumeObject (table : Table) (phase : ObjectPhase) (target : Option Target)
    (members : List Value) (presence : PresenceBits 64) (extras : Entries Value)
    (enough : input.room ≤ budget) :
    Affords weight budget
      (resumeObject schema table phase target members presence extras input scratch) := by
  cases phase with
  | opening =>
    simp only [resumeObject]
    refine Affords.significant fun byte here fewer filled => ?_
    have used := Input.room_next filled
    split
    · exact affords_objectName table true target members presence extras (by omega)
    · trivial
  | name first => exact affords_objectName table first target members presence extras enough
  | inName lexer => exact affords_objectInName table lexer target members presence extras enough
  | colon => exact affords_objectColon table target members presence extras enough
  | comma =>
    simp only [resumeObject]
    refine Affords.significant fun byte here fewer filled => ?_
    have used := Input.room_next filled
    split
    · exact affords_objectName table false target members presence extras (by omega)
    · split
      · simp only [Affords]
        omega
      · trivial
  | pending =>
    simp only [resumeObject]
    exact Affords.significant fun _ _ _ _ => trivial

/-- A body pays for its calls and its completion. -/
theorem affords_resume (body : FrameBody) (enough : input.room + body.weight ≤ budget) :
    Affords weight budget (body.resume schema input scratch) := by
  have positive := weight_pos body
  cases body with
  | null rest =>
    cases rest with
    | none =>
      simp only [resume]
      refine Affords.significant fun byte here fewer filled => ?_
      split
      · exact Affords.literal (fun left => null (some left)) nullText (by omega)
      · trivial
    | some rest => exact Affords.literal (fun left => null (some left)) rest (by omega)
  | bool value rest =>
    cases rest with
    | none =>
      simp only [resume]
      refine Affords.significant fun byte here fewer filled => ?_
      split
      · exact Affords.literal (fun left => bool true (some left)) trueText (by omega)
      · split
        · exact Affords.literal (fun left => bool false (some left)) falseText (by omega)
        · trivial
    | some rest => exact Affords.literal (fun left => bool value (some left)) rest (by omega)
  | string lexer octets =>
    cases lexer with
    | none =>
      simp only [resume]
      refine Affords.significant fun byte here fewer filled => ?_
      have used := Input.room_next filled
      split
      · exact affords_resumeString {} octets (by omega)
      · trivial
    | some lexer => exact affords_resumeString lexer octets (by omega)
  | number type lexer spilled result =>
    simp only [resume, startNumber]
    split
    · refine Affords.significant fun byte here fewer filled => ?_
      split
      · exact affords_resumeNumber type lexer spilled result (by omega)
      · trivial
    · exact affords_resumeNumber type lexer spilled result (by omega)
  | array item phase items => exact affords_resumeArray item phase items enough
  | object table phase target members presence extras =>
    exact affords_resumeObject table phase target members presence extras (by omega)
  | variant held =>
    cases held with
    | some value =>
      simp only [resume, Affords]
      omega
    | none =>
      simp only [resume]
      refine Affords.significant fun byte here fewer filled => ?_
      rcases heldShape : heldShapeOf? byte with - | shape
      · trivial
      -- the variant takes no byte for its call: its weight pays for the call, the body that it
      -- calls and its own end
      · have light : (Frame.start schema shape).weight = 1 := weight_start_of_byte heldShape
        have heavy : (variant none).weight = 3 := rfl
        simp only [Affords, weight_held]
        omega

end FrameBody

theorem Affords.map {β γ : Type} {weight : β → Nat} {weight' : γ → Nat} {around : β → γ}
    {budget budget' : Nat} {result : Except ParseError (Advance β)}
    (light : ∀ body, weight' (around body) = weight body) (more : budget ≤ budget')
    (affords : Affords weight budget result) :
    Affords weight' budget' (result.map (.map around)) := by
  rcases result with error | ⟨body, rest, scratch, step⟩
  · trivial
  · cases step with
    | pause => trivial
    | call child =>
      simp only [Except.map, Advance.map, Affords, light] at affords ⊢
      omega
    | complete =>
      simp only [Except.map, Advance.map, Affords] at affords ⊢
      omega

namespace Frame

theorem weight_pos (frame : Frame) : 0 < frame.weight := by
  induction frame with
  | core shape body => exact body.weight_pos
  | box item inner ih | present item inner ih => exact ih
  | undecided | absent => exact Nat.succ_pos _

theorem weight_le (frame : Frame) : frame.weight ≤ 8 := by
  induction frame with
  | core shape body =>
    unfold weight FrameBody.weight
    split <;> omega
  | box item inner ih | present item inner ih => exact ih
  | undecided | absent => exact Nat.le_of_ble_eq_true rfl

theorem affords_resume (schema : Schema) (frame : Frame) (input : Input) (scratch : Scratch) :
    Affords Frame.weight (input.room + frame.weight) (frame.resume schema input scratch) := by
  induction frame using Frame.induction schema generalizing input with
  | core shape body =>
    exact .map (fun _ => rfl) (Nat.le_refl _) (body.affords_resume (Nat.le_refl _))
  | box item inner ih | present item inner ih =>
    exact .map (fun _ => rfl) (Nat.le_refl _) (ih input)
  | absent item rest =>
    exact Affords.literal (fun left => Frame.absent item left) rest (Nat.lt_succ_self _)
  | undecided item ih =>
    have light := FrameBody.weight_start_le schema item
    simp only [resume_undecided, weight]
    refine Affords.significant fun byte here fewer filled => ?_
    split
    · exact Affords.literal (fun left => Frame.absent item left) nullText (by omega)
    · exact .map (fun _ => rfl) (by omega) (ih here)

end Frame

theorem FrameBody.weight_accept {child : Frame} {body body' : FrameBody}
    (accepted : body.accept child = .ok body') : body'.weight = 1 := by
  have received := received_of_accept accepted
  unfold Received at received
  split at received
  · rfl
  · rfl
  · rfl
  · exact received.elim

theorem Frame.weight_accept {parent parent' child : Frame}
    (accepted : parent.accept child = .ok parent') : parent'.weight = 1 := by
  induction parent generalizing parent' with
  | core shape body =>
    rw [accept] at accepted
    cases taken : body.accept child with
    | error error =>
      rw [taken] at accepted
      cases accepted
    | ok body' =>
      rw [taken] at accepted
      cases accepted
      exact FrameBody.weight_accept taken
  | box item inner ih | present item inner ih =>
    rw [accept] at accepted
    cases taken : inner.accept child with
    | error error =>
      rw [taken] at accepted
      cases accepted
    | ok inner' =>
      rw [taken] at accepted
      cases accepted
      have light : inner'.weight = 1 := ih taken
      exact light
  | undecided | absent => cases accepted

/-- The frames that read use up the bytes they are given and their weight. -/
theorem progress_readDriver (schema : Schema) (shape : Shape) :
    Progress (readDriver schema shape) (fun _ => True) Reading.room Frame.weight where
  call := by
    intro reading reading' frame frame' child scratch scratch' _ called
    have affords := frame.affords_resume schema reading.input scratch
    simp only [readDriver] at called
    split at called
    · rename_i resumed
      rw [resumed] at affords
      cases called
      exact ⟨trivial, trivial, affords⟩
    · cases called
  pause := fun _ _ => trivial
  complete := by
    intro reading reading' frame frame' scratch scratch' _ completed
    have affords := frame.affords_resume schema reading.input scratch
    simp only [readDriver] at completed
    split at completed
    · rename_i resumed
      rw [resumed] at affords
      cases completed
      exact affords
    · cases completed
  accept := by
    intro reading reading' done parent parent' _ accepted
    simp only [readDriver] at accepted
    split at accepted
    · rename_i taken
      cases accepted
      have light := Frame.weight_accept taken
      have heavy := parent.weight_pos
      exact ⟨trivial, by omega⟩
    · cases accepted
  finish := by
    intro reading reading' done finished
    simp only [readDriver] at finished
    split at finished
    · cases finished
      exact Nat.le_refl _
    · cases finished

theorem Stack.weight_frames_le (frames : List Frame) :
    (frames.map Frame.weight).sum ≤ 8 * frames.length := by
  induction frames with
  | nil => exact Nat.le_refl _
  | cons frame rest ih =>
    have light := frame.weight_le
    simp only [List.map_cons, List.sum_cons, List.length_cons]
    omega

/-- The turns that a parser allows for an input are enough. -/
theorem Stack.run_readDriver_not_stalled (schema : Schema) (shape : Shape) (stack : Stack Frame)
    (input : Input) (value : Value) :
    (stack.run (readDriver schema shape) (turnsFor input.bytes.length stack.depth)
      ⟨input, value⟩).outcome ≠ .stalled := by
  refine run_not_stalled (progress_readDriver schema shape) _ _ _ (fun _ _ => trivial) ?_
  have light := weight_frames_le stack.frames
  simp only [Reading.room, Input.room, Stack.weight, turnsFor, depth]
  omega

end IncrementalJson
