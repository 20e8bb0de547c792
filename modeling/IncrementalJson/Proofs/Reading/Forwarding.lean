import IncrementalJson.Proofs.Grammar.Meaning

/-!
# Frames inside frames

A frame of a shape with options and boxes around it is a row of frames, each with the
next one inside, around a body that does the reading.  What the outermost frame does is
what the body does, with everything around it put back; before the first byte has come,
and while null is read in place of a value, there is no body at work, or none yet.
-/

set_option autoImplicit false

namespace IncrementalJson

open Ascii

/-! ## Passing over whitespace twice -/

namespace Input

theorem behindSpaces_behindSpaces (closed : Bool) (offset : Nat) (bytes : List UInt8) :
    (behindSpaces closed offset bytes).skipSpaces = behindSpaces closed offset bytes := by
  induction bytes generalizing offset with
  | nil => rfl
  | cons byte rest ih =>
    by_cases space : isSpace byte
    · simp only [behindSpaces, if_pos space]
      exact ih (offset + 1)
    · simp [behindSpaces, skipSpaces, space]

@[simp] theorem skipSpaces_skipSpaces (input : Input) :
    input.skipSpaces.skipSpaces = input.skipSpaces :=
  behindSpaces_behindSpaces ..

@[simp] theorem significant_skipSpaces {α : Type} (input : Input) (wait : Input → α)
    (act : UInt8 → Input → Except ParseError α) :
    input.skipSpaces.significant wait act = input.significant wait act := by
  rw [significant, significant, skipSpaces_skipSpaces]

theorem significant_congr {α : Type} {input : Input} {wait : Input → α}
    {act act' : UInt8 → Input → Except ParseError α}
    (same : ∀ byte here, here.bytes.head? = some byte → here.skipSpaces = here →
      act byte here = act' byte here) :
    input.significant wait act = input.significant wait act' := by
  have twice := input.skipSpaces_skipSpaces
  rw [significant, significant]
  generalize input.skipSpaces = here at twice
  obtain ⟨_ | ⟨byte, rest⟩, offset, _ | _⟩ := here
  · rfl
  · rfl
  · exact same byte _ rfl twice
  · exact same byte _ rfl twice

end Input

theorem map_map_advance {β γ δ : Type} (f : β → γ) (g : γ → δ)
    (result : Except ParseError (Advance β)) :
    (result.map (Advance.map f)).map (Advance.map g) = result.map (Advance.map (g ∘ f)) := by
  cases result <;> rfl

theorem Input.map_significant {β γ : Type} (f : β → γ) (input : Input) (wait : Input → β)
    (act : UInt8 → Input → Except ParseError β) :
    (input.significant wait act).map f =
      input.significant (fun rest => f (wait rest)) fun byte here => (act byte here).map f := by
  rw [significant, significant]
  rcases input.skipSpaces with ⟨_ | ⟨byte, rest⟩, offset, _ | _⟩ <;> rfl

/-! ## A value handed over -/

namespace FrameBody

/-- The body has taken over a value that was read for it. -/
def Received : FrameBody → Prop
  | .array _ .comma _ | .object _ .comma .. | .variant (some _) => True
  | _ => False

/-- A body takes over a value for the slot that it has open, or has none. -/
theorem accept_cases (body : FrameBody) (child : Frame) :
    (∃ state, body.accept child = .error (.unexpected state)) ∨
      ∃ (slot : Shape) (take : Value → FrameBody),
        body.accept child = (child.deliver slot).map take ∧ ∀ value, (take value).Received := by
  unfold accept
  repeat' split
  all_goals first
    | exact .inr ⟨_, _, rfl, fun _ => trivial⟩
    | exact .inl ⟨_, rfl⟩

theorem received_of_accept {body body' : FrameBody} {child : Frame}
    (accepted : body.accept child = .ok body') : body'.Received := by
  rcases body.accept_cases child with ⟨state, stray⟩ | ⟨slot, take, same, received⟩
  · cases stray.symm.trans accepted
  · rw [same] at accepted
    obtain ⟨value, -, rfl⟩ := map_eq_ok_iff.mp accepted
    exact received value

theorem comma_of_accept_object {table : Table} {phase : ObjectPhase} {target : Option Target}
    {members : List Value} {presence : PresenceBits 64} {extras : Entries Value} {child : Frame}
    {body' : FrameBody}
    (accepted : (object table phase target members presence extras).accept child = .ok body') :
    ∃ members presence extras, body' = .object table .comma none members presence extras := by
  rcases target with - | index | index
  · cases accepted
  all_goals
    simp only [accept] at accepted
    split at accepted
    · obtain ⟨value, -, rfl⟩ := map_eq_ok_iff.mp accepted
      exact ⟨_, _, _, rfl⟩
    · cases accepted

end FrameBody

namespace Frame

/-! ## A body at work -/

def around (shape : Shape) (body : FrameBody) : Frame :=
  match shape with
  | .box item => .box item (around item body)
  | .option item => .present item (around item body)
  | shape => .core shape body

/-- The frames of a shape while null is read in place of its value. -/
def vacant (shape : Shape) (rest : List UInt8) : Frame :=
  match shape with
  | .box item => .box item (vacant item rest)
  | .option item => .absent item rest
  | shape => .core shape (.null (some rest))

variable {schema : Schema}

@[simp] theorem shape_around (shape : Shape) (body : FrameBody) :
    (around shape body).shape = shape := by
  cases shape <;> rfl

@[simp] theorem shape_start (schema : Schema) (shape : Shape) :
    (start schema shape).shape = shape := by
  cases shape <;> rfl

theorem resume_around (schema : Schema) (shape : Shape) (body : FrameBody) (input : Input)
    (scratch : Scratch) :
    (around shape body).resume schema input scratch =
      (body.resume schema input scratch).map (.map (around shape)) := by
  induction shape with
  | box item ih | option item ih =>
    rw [around, resume, ih, map_map_advance]
    rfl
  | _ => rfl

theorem accept_around (shape : Shape) (body : FrameBody) (child : Frame) :
    (around shape body).accept child = (body.accept child).map (around shape) := by
  induction shape with
  | box item ih | option item ih =>
    rw [around, accept, ih]
    cases body.accept child <;> rfl
  | _ => rfl

/-- Each frame around a body finds its item to be of the shape that it asks for. -/
theorem deliver_around (shape slot : Shape) (body : FrameBody) :
    (around shape body).deliver slot =
      match body.result with
      | .ok value => deliverInto slot shape (shape.wrap value)
      | .error error => .error error := by
  induction shape generalizing slot with
  | box item ih | option item ih =>
    rw [around, deliver, ih]
    cases body.result with
    | error error => rfl
    | ok value => simp only [deliverInto, if_true, Shape.wrap]
  | _ => rfl

theorem deliver_around_self (shape : Shape) (body : FrameBody) :
    (around shape body).deliver shape = body.result.map shape.wrap := by
  rw [deliver_around]
  cases body.result with
  | error error => rfl
  | ok value => exact if_pos rfl

/-- What a frame puts into a slot of its own shape. -/
def result (frame : Frame) : Except ParseError Value := frame.deliver frame.shape

theorem deliver_eq (frame : Frame) (slot : Shape) :
    frame.deliver slot =
      match frame.result with
      | .ok value => deliverInto slot frame.shape value
      | .error error => .error error := by
  cases frame with
  | core own body =>
    simp only [result, deliver, shape]
    cases body.result with
    | error error => rfl
    | ok value => simp only [deliverInto, if_true]
  | box item inner | present item inner =>
    simp only [result, deliver, shape]
    cases inner.deliver item with
    | error error => rfl
    | ok value => simp only [deliverInto, if_true]
  | undecided | absent =>
    simp only [result, deliver, shape, deliverInto, if_true]
    rfl

theorem result_around (shape : Shape) (body : FrameBody) :
    (around shape body).result = body.result.map shape.wrap := by
  rw [result, shape_around, deliver_around_self]

/-! ## Null in place of a value -/

def resumeVacant (shape : Shape) (rest : List UInt8) (input : Input) (scratch : Scratch) :
    Except ParseError (Advance Frame) :=
  (input.matchLiteral rest).map fun (rest, input) =>
    ⟨vacant shape rest, input, scratch, literalStep rest⟩

theorem resumeVacant_box (item : Shape) (rest : List UInt8) (input : Input) (scratch : Scratch) :
    (resumeVacant item rest input scratch).map (.map (.box item)) =
      resumeVacant (.box item) rest input scratch := by
  rw [resumeVacant, resumeVacant]
  cases input.matchLiteral rest <;> rfl

theorem resume_vacant {shape : Shape} (option : shape.hasOption) (rest : List UInt8)
    (input : Input) (scratch : Scratch) :
    (vacant shape rest).resume schema input scratch = resumeVacant shape rest input scratch := by
  induction shape with
  | box item ih => rw [vacant, resume, ih option, resumeVacant_box]
  | option item => rfl
  | _ => cases option

theorem accept_vacant {shape : Shape} (option : shape.hasOption) (rest : List UInt8)
    (child : Frame) : (vacant shape rest).accept child = .error (.unexpected .strayChild) := by
  induction shape with
  | box item ih =>
    rw [vacant, accept, ih option]
    rfl
  | option item => rfl
  | _ => cases option

theorem deliver_vacant {shape : Shape} (option : shape.hasOption) (rest : List UInt8)
    (slot : Shape) : (vacant shape rest).deliver slot = deliverInto slot shape .absent := by
  induction shape generalizing slot with
  | box item ih =>
    rw [vacant, deliver, ih option, deliverInto, if_pos rfl]
  | option item => rfl
  | _ => cases option

/-! ## The first byte -/

theorem begin_eq (schema : Schema) (shape : Shape) (input : Input) (scratch : Scratch) :
    begin schema shape input scratch = (start schema shape).resume schema input scratch := by
  induction shape with
  | box item ih => rw [begin, ih, start, resume]
  | _ => rfl

theorem resume_undecided (schema : Schema) (item : Shape) (input : Input) (scratch : Scratch) :
    (undecided item).resume schema input scratch =
      input.significant (fun rest => ⟨.undecided item, rest, scratch, .pause⟩) fun byte here =>
        if byte = lowerN then resumeAbsent item nullText here scratch
        else ((start schema item).resume schema here scratch).map (.map (.present item)) := by
  simp only [resume, begin, begin_eq]

theorem start_of_solid {shape : Shape} (solid : shape.hasOption = false) :
    start schema shape = around shape (.start schema shape.core) := by
  induction shape with
  | box item ih => exact congrArg (Frame.box item) (ih solid)
  | option item => cases solid
  | _ => rfl

theorem resume_start_skipSpaces (schema : Schema) (shape : Shape) (input : Input)
    (scratch : Scratch) :
    (start schema shape).resume schema input.skipSpaces scratch =
      (start schema shape).resume schema input scratch := by
  induction shape generalizing input with
  | box item ih => rw [start, resume, resume, ih]
  | option item ih =>
    rw [start, resume_undecided, resume_undecided, Input.significant_skipSpaces]
  | null | bool | string | number | variant | list | extras | record =>
    simp only [start, FrameBody.start, resume, FrameBody.resume, FrameBody.startNumber,
      FrameBody.resumeArray, FrameBody.resumeObject, Input.significant_skipSpaces, if_true]

/-- A frame with an option around it decides at its first byte, all its options at once. -/
theorem resume_start_of_option {shape : Shape} (option : shape.hasOption) (input : Input)
    (scratch : Scratch) :
    (start schema shape).resume schema input scratch =
      input.significant (fun rest => ⟨start schema shape, rest, scratch, .pause⟩)
        fun byte here =>
          if byte = lowerN then resumeVacant shape nullText here scratch
          else (around shape (.start schema shape.core)).resume schema here scratch := by
  induction shape generalizing input with
  | box item ih =>
    rw [start, resume, ih option, Input.map_significant]
    congr 1
    funext byte here
    split
    · exact resumeVacant_box item nullText here scratch
    · rfl
  | option item ih =>
    rw [start, resume_undecided]
    apply Input.significant_congr
    intro byte here head twice
    by_cases null : byte = lowerN
    · rw [if_pos null, if_pos null]
      rfl
    · rw [if_neg null, if_neg null, around, resume]
      congr 1
      by_cases inner : item.hasOption
      · rw [ih inner, Input.significant, twice]
        obtain ⟨_ | ⟨first, rest⟩, offset, closed⟩ := here
        · cases head
        · cases head
          exact if_neg null
      · rw [start_of_solid (Bool.not_eq_true _ ▸ inner)]
        rfl
  | _ => cases option

/-! ## All frames -/

/-- What holds of every body that stands alone, of the frames around a frame if it holds of that
frame, and of an option whose first byte has not come if it holds of the fresh frame of its item,
holds of all frames. -/
theorem induction (schema : Schema) {motive : Frame → Prop}
    (core : ∀ shape body, motive (.core shape body))
    (box : ∀ item inner, motive inner → motive (.box item inner))
    (present : ∀ item inner, motive inner → motive (.present item inner))
    (absent : ∀ item rest, motive (.absent item rest))
    (undecided : ∀ item, motive (start schema item) → motive (.undecided item))
    (frame : Frame) : motive frame := by
  have fresh (shape : Shape) : motive (start schema shape) := by
    induction shape with
    | box item ih => exact box item _ ih
    | option item ih => exact undecided item ih
    | _ => exact core _ _
  induction frame with
  | core shape body => exact core shape body
  | box item inner ih => exact box item inner ih
  | undecided item => exact undecided item (fresh item)
  | absent item rest => exact absent item rest
  | present item inner ih => exact present item inner ih

/-! ## The body inside -/

/-- The body inside all frames, if there is one at work. -/
def body? : Frame → Option FrameBody
  | .core _ body => some body
  | .box _ inner | .present _ inner => inner.body?
  | .undecided _ | .absent _ _ => none

def within (body : FrameBody) : Frame → Frame
  | .core shape _ => .core shape body
  | .box item inner => .box item (inner.within body)
  | .present item inner => .present item (inner.within body)
  | frame => frame

theorem body?_within {frame : Frame} {body : FrameBody} (works : frame.body? = some body)
    (other : FrameBody) : (frame.within other).body? = some other := by
  induction frame with
  | core => rfl
  | box item inner ih | present item inner ih => exact ih works
  | undecided | absent => cases works

theorem within_within (frame : Frame) (body other : FrameBody) :
    (frame.within body).within other = frame.within other := by
  induction frame with
  | box item inner ih => exact congrArg (Frame.box item) ih
  | present item inner ih => exact congrArg (Frame.present item) ih
  | core | undecided | absent => rfl

theorem resume_of_body? {frame : Frame} {body : FrameBody} (works : frame.body? = some body)
    (input : Input) (scratch : Scratch) :
    frame.resume schema input scratch =
      (body.resume schema input scratch).map (.map (frame.within ·)) := by
  induction frame with
  | core shape body =>
    cases works
    rfl
  | box item inner ih | present item inner ih =>
    rw [resume, ih works, map_map_advance]
    rfl
  | undecided | absent => cases works

theorem body?_of_accept {parent parent' child : Frame}
    (accepted : parent.accept child = .ok parent') :
    ∃ body body', parent.body? = some body ∧ body.accept child = .ok body' ∧
      parent' = parent.within body' := by
  induction parent generalizing parent' with
  | core shape body =>
    obtain ⟨body', taken, rfl⟩ := map_eq_ok_iff.mp accepted
    exact ⟨body, body', rfl, taken, rfl⟩
  | box item inner ih | present item inner ih =>
    obtain ⟨inner', inside, rfl⟩ := map_eq_ok_iff.mp accepted
    obtain ⟨body, body', works, taken, rfl⟩ := ih inside
    exact ⟨body, body', works, taken, rfl⟩
  | undecided | absent => cases accepted

end Frame

end IncrementalJson
