import IncrementalJson.Proofs.Reading.Imitation
import IncrementalJson.Proofs.Reading.Layers
import IncrementalJson.Proofs.Reading.Lifecycle

/-!
# Options and boxes add no frame

A frame of a shape with options and boxes around it does what the frame of the inner
shape does, or, if there is an option and the value begins as null does, what the
frame of null does.  What it reads is what the other frame reads with the layers
around it, or nothing.
-/

set_option autoImplicit false

namespace IncrementalJson

open Ascii

/-! ## Layers -/

/-- What can stand around a shape without a frame of its own. -/
inductive Layer where
  | option
  | box
  deriving DecidableEq, Repr

namespace Layer

def shape : Layer → Shape → Shape
  | option, inner => .option inner
  | box, inner => .box inner

def value : Layer → Value → Value
  | option, inner => .present inner
  | box, inner => inner

end Layer

/-- A shape with layers around it, the outermost first. -/
def Shape.within (layers : List Layer) (inner : Shape) : Shape :=
  layers.foldr Layer.shape inner

def Value.within (layers : List Layer) (inner : Value) : Value :=
  layers.foldr Layer.value inner

section Layers

variable (layers : List Layer) (inner : Shape)

theorem Shape.hasOption_within :
    (inner.within layers).hasOption = (decide (.option ∈ layers) || inner.hasOption) := by
  induction layers with
  | nil => simp [within]
  | cons layer layers ih =>
    cases layer with
    | option => simp [within, Layer.shape, hasOption]
    | box =>
      have boxed : (inner.within (.box :: layers)).hasOption = (inner.within layers).hasOption :=
        rfl
      simp [boxed, ih]

end Layers

def firstSignificant? (document : List UInt8) : Option UInt8 :=
  document.find? fun byte => !isSpace byte

/-- Whether the layers answer a document themselves: there is an option among them, and the
document begins as null does. -/
def SettledByLayers (layers : List Layer) (document : List UInt8) : Prop :=
  .option ∈ layers ∧ firstSignificant? document = some lowerN

instance (layers : List Layer) (document : List UInt8) :
    Decidable (SettledByLayers layers document) :=
  inferInstanceAs (Decidable (_ ∧ _))

/-- The shape whose frame reads a document where layers stand around a shape. -/
def Shape.readWithin (layers : List Layer) (document : List UInt8) (inner : Shape) : Shape :=
  if SettledByLayers layers document then .null else inner

def Value.readWithin (layers : List Layer) (document : List UInt8) (value : Value) : Value :=
  if SettledByLayers layers document then .absent else value.within layers

/-! ## The first byte -/

namespace Input

theorem skipSpaces_of_first {input : Input} {byte : UInt8}
    (first : firstSignificant? input.bytes = some byte) :
    isSpace byte = false ∧
      ∃ rest position, input.skipSpaces = ⟨byte :: rest, position, input.closed⟩ := by
  obtain ⟨isSolid, spaces, rest, split, isBlank⟩ := List.find?_eq_some_iff_append.mp first
  have solid : isSpace byte = false := by simpa using isSolid
  have blank : ∀ space ∈ spaces, isSpace space := by simpa using isBlank
  have skipped := behindSpaces_spaces blank solid input.closed input.offset rest
  rw [← split] at skipped
  exact ⟨solid, rest, _, skipped⟩

theorem skipSpaces_of_blank {input : Input} (blank : firstSignificant? input.bytes = none) :
    input.skipSpaces = ⟨[], input.limit, input.closed⟩ := by
  have spaces : ∀ byte ∈ input.bytes, isSpace byte := by simpa [firstSignificant?] using blank
  have empty := skipSpaces_blank.mpr spaces
  have limit := input.limit_skipSpaces
  have closed := input.closed_skipSpaces
  rcases skipped : input.skipSpaces with ⟨bytes, offset, ends⟩
  rw [skipped] at empty limit closed
  cases empty
  cases limit
  cases closed
  rfl

end Input

variable {schema : Schema} {layers : List Layer} {inner shape : Shape} {input : Input}
  {scratch : Scratch}

namespace Frame

theorem resume_start_waits (blank : firstSignificant? input.bytes = none) (schema : Schema)
    (shape : Shape) (scratch : Scratch) :
    (Frame.start schema shape).resume schema input scratch =
      if input.closed then .error .endOfData
      else .ok ⟨.start schema shape, ⟨[], input.limit, false⟩, scratch, .pause⟩ := by
  rw [← resume_start_skipSpaces, Input.skipSpaces_of_blank blank, Parser.resume_start]

/-! ## Frames with layers around them -/

def clad (inner : Shape) (frame : Frame) : List Layer → Frame
  | [] => frame
  | .option :: layers => .present (inner.within layers) (clad inner frame layers)
  | .box :: layers => .box (inner.within layers) (clad inner frame layers)

theorem resume_clad (schema : Schema) (inner : Shape) (frame : Frame) (layers : List Layer)
    (input : Input) (scratch : Scratch) :
    (frame.clad inner layers).resume schema input scratch =
      (frame.resume schema input scratch).map (.map (clad inner · layers)) := by
  induction layers with
  | nil =>
    simp only [clad]
    cases frame.resume schema input scratch <;> rfl
  | cons layer layers ih =>
    cases layer with
    | option | box =>
      rw [clad, resume, ih, map_map_advance]
      rfl

theorem accept_clad (inner : Shape) (frame : Frame) (layers : List Layer) (child : Frame) :
    (frame.clad inner layers).accept child =
      (frame.accept child).map (clad inner · layers) := by
  induction layers with
  | nil =>
    simp only [clad]
    cases frame.accept child <;> rfl
  | cons layer layers ih =>
    cases layer with
    | option | box =>
      rw [clad, accept, ih]
      cases frame.accept child <;> rfl

theorem deliver_clad (inner : Shape) (frame : Frame) (layers : List Layer) :
    (frame.clad inner layers).deliver (inner.within layers) =
      (frame.deliver inner).map (Value.within layers) := by
  induction layers with
  | nil =>
    simp only [clad, Shape.within, List.foldr_nil]
    cases frame.deliver inner <;> rfl
  | cons layer layers ih =>
    cases layer with
    | option | box =>
      rw [clad, deliver, ih]
      cases frame.deliver inner with
      | error error => rfl
      | ok value => exact if_pos rfl

/-- Once a byte has come that begins no null, every option has the fresh frame of its item
inside. -/
theorem resume_start_within {byte : UInt8} (first : firstSignificant? input.bytes = some byte)
    (other : .option ∈ layers → byte ≠ lowerN) (inner : Shape) (scratch : Scratch) :
    (start schema (inner.within layers)).resume schema input scratch =
      ((start schema inner).clad inner layers).resume schema input scratch := by
  induction layers with
  | nil => rfl
  | cons layer layers ih =>
    have under := ih fun inside => other (List.mem_cons_of_mem _ inside)
    cases layer with
    | box =>
      rw [clad, resume, ← under]
      rfl
    | option =>
      obtain ⟨-, rest, position, skipped⟩ := Input.skipSpaces_of_first first
      have begins : (start schema (inner.within (.option :: layers))).resume schema input scratch =
          ((start schema (inner.within layers)).resume schema input.skipSpaces scratch).map
            (.map (.present (inner.within layers))) := by
        show (undecided (inner.within layers)).resume schema input scratch = _
        rw [resume_undecided, Input.significant, skipped]
        exact if_neg (other List.mem_cons_self)
      rw [begins, resume_start_skipSpaces, under]
      rfl

theorem resume_start_vacant (option : shape.hasOption)
    (first : firstSignificant? input.bytes = some lowerN) (scratch : Scratch) :
    (start schema shape).resume schema input scratch =
      (vacant shape nullText).resume schema input.skipSpaces scratch := by
  obtain ⟨-, rest, position, skipped⟩ := Input.skipSpaces_of_first first
  rw [resume_start_of_option option, resume_vacant option, Input.significant, skipped]
  exact if_pos rfl

theorem resume_start_null (first : firstSignificant? input.bytes = some lowerN)
    (scratch : Scratch) :
    (start schema .null).resume schema input scratch =
      (core .null (.null (some nullText))).resume schema input.skipSpaces scratch := by
  obtain ⟨-, rest, position, skipped⟩ := Input.skipSpaces_of_first first
  simp only [start, FrameBody.start, resume, FrameBody.resume, Input.significant, skipped, if_true]

end Frame

/-- A frame of a shape with layers around it, and the frame of the inner shape. -/
def Clad (layers : List Layer) (inner : Shape) (frame frame' : Frame) : Prop :=
  frame = frame'.clad inner layers

inductive Vacant (shape : Shape) : Frame → Frame → Prop where
  | intro (rest : List UInt8) :
      Vacant shape (.vacant shape rest) (.core .null (.null (some rest)))

theorem Clad.imitates (schema : Schema) (layers : List Layer) (inner : Shape) :
    Imitates schema (Clad layers inner) where
  resume clad input scratch := by
    rename_i frame frame'
    rw [clad, Frame.resume_clad]
    cases frame'.resume schema input scratch with
    | error error => exact .error error
    | ok advance => exact .ok ⟨rfl, rfl, rfl, rfl⟩
  accept clad child := by
    rename_i frame frame'
    rw [clad, Frame.accept_clad]
    cases frame'.accept child with
    | error error => exact .error error
    | ok parent => exact .ok rfl

theorem Vacant.imitates (schema : Schema) (option : shape.hasOption) :
    Imitates schema (Vacant shape) where
  resume vacant input scratch := by
    obtain ⟨rest⟩ := vacant
    rw [Frame.resume_vacant option, Frame.resumeVacant]
    simp only [Frame.resume, FrameBody.resume, FrameBody.resumeNull]
    cases input.matchLiteral rest with
    | error error => exact .error error
    | ok found => exact .ok ⟨.intro _, rfl, rfl, rfl⟩
  accept vacant child := by
    obtain ⟨rest⟩ := vacant
    rw [Frame.accept_vacant option]
    exact .error _

/-- What a frame of a shape with layers around it reads, given what the frame in its place reads. -/
def ReadsWithin (layers : List Layer) (document : List UInt8) (inner : Shape)
    (done done' : Frame) : Prop :=
  done.deliver (inner.within layers) =
    (done'.deliver (inner.readWithin layers document)).map (Value.readWithin layers document)

theorem Clad.readsWithin {document : List UInt8} (unsettled : ¬ SettledByLayers layers document)
    (done done' : Frame) (clad : Clad layers inner done done') :
    ReadsWithin layers document inner done done' := by
  unfold ReadsWithin Shape.readWithin Value.readWithin
  simp only [if_neg unsettled]
  rw [clad, Frame.deliver_clad]

theorem Vacant.readsWithin {document : List UInt8} (settled : SettledByLayers layers document)
    (done done' : Frame) (vacant : Vacant (inner.within layers) done done') :
    ReadsWithin layers document inner done done' := by
  have option : (inner.within layers).hasOption := by
    simp [Shape.hasOption_within, settled.1]
  obtain ⟨rest⟩ := vacant
  unfold ReadsWithin Shape.readWithin Value.readWithin
  simp only [if_pos settled]
  rw [Frame.deliver_vacant option, Frame.deliverInto, if_pos rfl]
  rfl

/-! ## Parsers -/

namespace Parser

variable {parser parser' : Parser} {bytes document : List UInt8} {closed : Bool}

theorem abreast_of_blank {R : Frame → Frame → Prop} (level : parser.Level parser')
    {shape' : Shape} (awaits : parser.Awaits shape) (awaits' : parser'.Awaits shape')
    (blank : firstSignificant? bytes = none) (closed : Bool) :
    Abreast R parser parser' bytes closed := by
  obtain ⟨-, below, fresh, limit, newest⟩ := awaits
  obtain ⟨-, below', fresh', limit', newest'⟩ := awaits'
  have depth : parser.stack.depth = parser'.stack.depth := level.depth
  rw [newest, newest'] at depth
  have waits (schema : Schema) (shape : Shape) (offset : Nat) :=
    @Frame.resume_start_waits ⟨bytes, offset, closed⟩ blank schema shape #[]
  unfold Abreast
  rw [newest, newest']
  cases closed with
  | true =>
    have turn (schema : Schema) (root shape : Shape) (offset : Nat) (value : Value) :
        (readDriver schema root).resume ⟨⟨bytes, offset, true⟩, value⟩ (.start schema shape) #[] =
          ⟨⟨Input.spent ⟨bytes, offset, true⟩, value⟩, .start schema root, #[],
            .error .endOfData⟩ :=
      readDriver_resume_error root (waits schema shape offset)
    exact .inl ⟨_, _, .fail (turn ..), .fail (turn ..), rfl, nofun, depth⟩
  | false =>
    have turn (schema : Schema) (root shape : Shape) (offset : Nat) (value : Value) :
        (readDriver schema root).resume ⟨⟨bytes, offset, false⟩, value⟩ (.start schema shape) #[] =
          ⟨⟨Input.spent ⟨bytes, offset, false⟩, value⟩, .start schema shape, #[], .ok .pause⟩ :=
      readDriver_resume_ok root (waits schema shape offset)
    exact .inl ⟨_, _, .pause (turn ..), .pause (turn ..), rfl, nofun, depth⟩

theorem abreast_of_settled (level : parser.Level parser')
    (awaits : parser.Awaits (inner.within layers)) (awaits' : parser'.Awaits .null)
    (option : .option ∈ layers) (isNull : firstSignificant? bytes = some lowerN)
    (closed : Bool) : Abreast (Vacant (inner.within layers)) parser parser' bytes closed := by
  obtain ⟨-, below, fresh, limit, newest⟩ := awaits
  obtain ⟨-, below', fresh', limit', newest'⟩ := awaits'
  rw [← level.schema] at newest'
  have outer : (inner.within layers).hasOption := by simp [Shape.hasOption_within, option]
  have turns {top frame : Frame}
      (resumed : top.resume parser.schema ⟨bytes, parser.offset, closed⟩ #[] =
        frame.resume parser.schema (Input.skipSpaces ⟨bytes, parser.offset, closed⟩) #[]) :
      TurnsAs parser.schema ⟨bytes, parser.offset, closed⟩ top
        (Input.skipSpaces ⟨bytes, parser.offset, closed⟩) frame :=
    ⟨Input.behind_skipSpaces _, Input.closed_skipSpaces _, Input.limit_skipSpaces _, resumed⟩
  exact abreast_of_turns (Vacant.imitates _ outer) level newest newest'
    (turns (Frame.resume_start_vacant outer isNull #[]))
    (turns (Frame.resume_start_null isNull #[])) (.intro _)

theorem abreast_of_open (level : parser.Level parser')
    (awaits : parser.Awaits (inner.within layers)) (awaits' : parser'.Awaits inner) {byte : UInt8}
    (first : firstSignificant? bytes = some byte) (other : .option ∈ layers → byte ≠ lowerN)
    (closed : Bool) : Abreast (Clad layers inner) parser parser' bytes closed := by
  obtain ⟨-, below, fresh, limit, newest⟩ := awaits
  obtain ⟨-, below', fresh', limit', newest'⟩ := awaits'
  rw [← level.schema] at newest'
  apply abreast_of_turns (Clad.imitates parser.schema layers inner) level newest newest' ?_
    (.refl _ _ _) rfl
  exact ⟨.refl _, rfl, rfl, Frame.resume_start_within first other inner #[]⟩

theorem abreast_of_awaits (level : parser.Level parser')
    (awaits : parser.Awaits (inner.within layers))
    (awaits' : parser'.Awaits (inner.readWithin layers document)) (front : bytes <+: document)
    (closed : Bool) :
    Abreast (ReadsWithin layers document inner) parser parser' bytes closed := by
  cases first : firstSignificant? bytes with
  | none => exact abreast_of_blank level awaits awaits' first closed
  | some byte =>
    have first' : firstSignificant? document = some byte := front.find?_eq_some first
    by_cases settled : SettledByLayers layers document
    · obtain ⟨option, isNull⟩ := settled
      have isInner : inner.readWithin layers document = .null := if_pos ⟨option, isNull⟩
      have same : byte = lowerN := Option.some.inj (first'.symm.trans isNull)
      rw [isInner] at awaits'
      rw [same] at first
      apply (abreast_of_settled level awaits awaits' option first closed).imp
      exact Vacant.readsWithin ⟨option, isNull⟩
    · have isInner : inner.readWithin layers document = inner := if_neg settled
      have other (option : .option ∈ layers) : byte ≠ lowerN :=
        fun isNull => settled ⟨option, isNull ▸ first'⟩
      rw [isInner] at awaits'
      apply (abreast_of_open level awaits awaits' first other closed).imp
      exact Clad.readsWithin settled

theorem readsAlike_of_awaits (level : parser.Level parser')
    (awaits : parser.Awaits (inner.within layers))
    (awaits' : parser'.Awaits (inner.readWithin layers document)) {chunks : List (List UInt8)}
    (front : chunks.flatten <+: document) :
    ReadsAlike (ReadsWithin layers document inner) parser parser' chunks :=
  readsAlike_of_abreast level awaits.live awaits'.live awaits.tidy awaits'.tidy
    (abreast_of_awaits level awaits awaits' front)

/-! ## Whole documents -/

theorem handOver_last {done : Frame} (last : parser.stack.frames.tail = []) (count : Nat) :
    parser.handOver done count =
      match done.deliver parser.shape with
      | .ok value => ⟨parser.schema, parser.shape,
          ⟨[], parser.stack.fresh - 1, parser.stack.limit, #[]⟩, value, parser.offset + count,
          .paused⟩
      | .error error => parser.fail error := by
  simp only [handOver, last, Stack.handOver, readDriver]
  cases done.deliver parser.shape <;> rfl

/-- Bytes behind the value of a document are looked at without regard to the value. -/
theorem feed_of_empty (schema schema' : Schema) (shape shape' : Shape) (fresh fresh' : Nat)
    (limit limit' : Option Nat) (value value' : Value) (offset : Nat) (bytes : List UInt8) :
    let parser := feed ⟨schema, shape, ⟨[], fresh, limit, #[]⟩, value, offset, .paused⟩ bytes
    let parser' := feed ⟨schema', shape', ⟨[], fresh', limit', #[]⟩, value', offset, .paused⟩ bytes
    parser.status = parser'.status ∧ parser.depth = parser'.depth ∧
      (parser.finish = .ok value ∧ parser'.finish = .ok value' ∨
        ∃ error, parser.finish = .error error ∧ parser'.finish = .error error) := by
  have fed (schema : Schema) (shape : Shape) (fresh : Nat) (limit : Option Nat) (value : Value) :
      feed ⟨schema, shape, ⟨[], fresh, limit, #[]⟩, value, offset, .paused⟩ bytes =
        settle schema shape (offset + bytes.length)
          ⟨⟨⟨bytes, offset, false⟩, value⟩, ⟨[], 0, limit, #[]⟩, .done⟩ :=
    feed_of_runs ⟨_, _, _, _, _, .paused⟩ rfl .empty
  simp only [fed, settle]
  rcases Input.skipSpaces ⟨bytes, offset, false⟩ with ⟨_ | ⟨byte, rest⟩, position, closed⟩
  · exact ⟨rfl, rfl, .inl ⟨rfl, rfl⟩⟩
  · exact ⟨rfl, rfl, .inr ⟨_, rfl, rfl⟩⟩

theorem feed_handOver_last {done done' : Frame} {become : Value → Value}
    (last : parser.stack.frames.tail = []) (last' : parser'.stack.frames.tail = [])
    (offset : parser.offset = parser'.offset)
    (delivers : done.deliver parser.shape = (done'.deliver parser'.shape).map become)
    (count : Nat) (back : List UInt8) :
    let next := (parser.handOver done count).feed back
    let next' := (parser'.handOver done' count).feed back
    next.status = next'.status ∧ next.depth = next'.depth ∧
      next.finish = next'.finish.map become := by
  simp only [handOver_last last, handOver_last last', delivers]
  cases done'.deliver parser'.shape with
  | error error =>
    simp only [Except.map]
    rw [feed_of_failed rfl, feed_of_failed rfl]
    exact ⟨rfl, rfl, rfl⟩
  | ok value =>
    obtain ⟨status, depth, finish⟩ := feed_of_empty parser.schema parser'.schema parser.shape
      parser'.shape (parser.stack.fresh - 1) (parser'.stack.fresh - 1) parser.stack.limit
      parser'.stack.limit (become value) value (parser.offset + count) back
    simp only [Except.map, ← offset]
    refine ⟨status, depth, ?_⟩
    rcases finish with ⟨read, read'⟩ | ⟨error, failed, failed'⟩
    · rw [read, read']
    · rw [failed, failed']

theorem level_create (schema : Schema) (shape shape' : Shape) (limit : Option Nat) :
    Level (create schema shape limit) (create schema shape' limit) := by
  by_cases noRoom : limit = some 0
  · subst noRoom
    exact ⟨rfl, rfl, rfl, rfl, rfl⟩
  · rw [create_of_room schema shape noRoom, create_of_room schema shape' noRoom]
    exact ⟨rfl, rfl, rfl, rfl, rfl⟩

theorem offset_feedAll_of_status (offset : parser.offset = parser'.offset)
    {chunks : List (List UInt8)}
    (same : ∀ front, front <+: chunks →
      (parser.feedAll front).status = (parser'.feedAll front).status) :
    (parser.feedAll chunks).offset = (parser'.feedAll chunks).offset := by
  induction chunks using List.reverseRecOn with
  | nil => exact offset
  | append_singleton chunks chunk ih =>
    have before := ih fun front isFront => same front (isFront.trans (List.prefix_append ..))
    have status := same chunks (List.prefix_append ..)
    rw [feedAll_concat, feedAll_concat]
    by_cases live : (parser.feedAll chunks).Live
    · have live' : (parser'.feedAll chunks).Live := by
        rw [Live, error?, ← status]
        exact live
      rw [offset_feed live, offset_feed live', before]
    · obtain ⟨error, failed⟩ := failed_of_not_live live
      rw [feed_of_failed failed, feed_of_failed (status.symm.trans failed), before]

theorem awaits_create (schema : Schema) (shape : Shape) {limit : Option Nat}
    (room : limit ≠ some 0) :
    (create schema shape limit).Awaits shape ∧
      (create schema shape limit).stack.frames.tail = [] ∧
      (create schema shape limit).shape = shape := by
  rw [create_of_room schema shape room]
  exact ⟨⟨rfl, _, _, _, rfl⟩, rfl, rfl⟩

theorem feedAll_create_within (schema : Schema) (layers : List Layer) (inner : Shape)
    (limit : Option Nat) {chunks : List (List UInt8)} (front : chunks.flatten <+: document) :
    let parser := (create schema (inner.within layers) limit).feedAll chunks
    let parser' := (create schema (inner.readWithin layers document) limit).feedAll chunks
    parser.status = parser'.status ∧ parser.depth = parser'.depth ∧
      parser.finish = parser'.finish.map (Value.readWithin layers document) := by
  have level := level_create schema (inner.within layers) (inner.readWithin layers document) limit
  by_cases noRoom : limit = some 0
  · subst noRoom
    rw [feedAll_of_failed rfl, feedAll_of_failed rfl]
    exact ⟨rfl, rfl, rfl⟩
  · obtain ⟨awaits, last, root⟩ := awaits_create schema (inner.within layers) noRoom
    obtain ⟨awaits', last', root'⟩ :=
      awaits_create schema (inner.readWithin layers document) noRoom
    have alike := readsAlike_of_awaits level awaits awaits' front
    have carries (done done' : Frame) (reads : ReadsWithin layers document inner done done')
        (count : Nat) (back : List UInt8) :=
      feed_handOver_last last last' level.offset (by
        rw [root, root']
        exact reads) count back
    refine and_assoc.mp ⟨?_, ?_⟩
    · rcases alike.fed with level | ⟨done, done', front, back, reads, -, fed, fed'⟩
      · exact level
      · obtain ⟨status, depth, -⟩ := carries done done' reads front.length back
        exact ⟨fed.status.trans (status.trans fed'.status.symm),
          fed.depth.trans (depth.trans fed'.depth.symm)⟩
    · rcases alike.ended with
        ⟨error, failed, failed'⟩ | ⟨done, done', front, back, reads, -, ended, ended'⟩
      · rw [failed, failed']
        rfl
      · obtain ⟨-, -, finish⟩ := carries done done' reads front.length back
        rw [ended, ended']
        exact finish

end Parser

/-- Layers are not seen from outside.  A document goes the way of the inner shape, or of null if
there is an option and it begins as null does, with the same states, offsets, depths and errors,
and its value has the layers around it.  The same holds wherever a value with layers around it
stands in a document, whatever the frames beneath are that wait for it; and those that call for one
wait for it. -/
theorem layers_transparent (schema : Schema) (layers : List Layer) (inner : Shape)
    (document : List UInt8) :
    (∀ (limit : Option Nat) (chunks : List (List UInt8)), chunks.flatten <+: document →
      let parser := (Parser.create schema (inner.within layers) limit).feedAll chunks
      let parser' := (Parser.create schema (inner.readWithin layers document) limit).feedAll chunks
      parser.status = parser'.status ∧ parser.offset = parser'.offset ∧
        parser.depth = parser'.depth ∧
        parser.finish = parser'.finish.map (Value.readWithin layers document)) ∧
    (∀ (parser parser' : Parser) (chunks : List (List UInt8)),
      parser.Awaits (inner.within layers) → parser'.Awaits (inner.readWithin layers document) →
      parser.Level parser' → chunks.flatten <+: document →
      parser.ReadsAlike (ReadsWithin layers document inner) parser' chunks) ∧
    (∀ (parser : Parser) (top later : Frame) (below : List Frame) (fresh : Nat)
        (limit : Option Nat) (scratch : Scratch) (front back : List UInt8),
      parser.Live → parser.stack = ⟨top :: below, fresh, limit, scratch⟩ →
      top.resume parser.schema ⟨front ++ back, parser.offset, false⟩ scratch =
        .ok ⟨later, ⟨back, parser.offset + front.length, false⟩, #[],
          .call (.start parser.schema (inner.within layers))⟩ →
      let called := parser.called later (.start parser.schema (inner.within layers)) front.length
      (parser.feed (front ++ back)).SameState (called.feed back) ∧
        ((∀ most, limit = some most → parser.depth < most) →
          called.Awaits (inner.within layers))) := by
  refine ⟨?_, ?_, ?_⟩
  · intro limit chunks front
    obtain ⟨status, depth, finish⟩ :=
      Parser.feedAll_create_within schema layers inner limit front
    have level := Parser.level_create schema (inner.within layers)
      (inner.readWithin layers document) limit
    refine ⟨status, Parser.offset_feedAll_of_status level.offset ?_, depth, finish⟩
    intro part isPart
    obtain ⟨rest, rfl⟩ := isPart
    rw [List.flatten_append] at front
    have before : part.flatten <+: document := (List.prefix_append ..).trans front
    exact (Parser.feedAll_create_within schema layers inner limit before).1
  · intro parser parser' chunks awaits awaits' level front
    exact Parser.readsAlike_of_awaits level awaits awaits' front
  · intro parser top later below fresh limit scratch front back live newest resumed
    exact ⟨Parser.feed_of_call live newest resumed, fun room =>
      Parser.awaits_called newest room later (inner.within layers) front.length⟩

/-- An optional truth value, held indirectly, as a document and as an element of an array. -/
theorem layers_transparent_element :
    let chunks : List (List UInt8) := [[0x74, 0x72], [0x75, 0x65]]
    let item : Shape := .option (.box .bool)
    let parser := Parser.create .empty (.list item)
    let called := parser.called (.core (.list item) (.array item .pending #[])) (.start .empty item) 2
    let called' := (Parser.create .empty (.list .bool)).called
      (.core (.list .bool) (.array .bool .pending #[])) (.start .empty .bool) 2
    ((Parser.create .empty item).feedAll chunks).finish = .ok (.present (.bool true)) ∧
      (parser.feed [leftBracket, 0x20, 0x74]).SameState (called.feed [0x74]) ∧
      called.ReadsAlike (ReadsWithin [.option, .box] chunks.flatten .bool) called' chunks := by
  intro chunks item parser called called'
  obtain ⟨document, inside, calls⟩ :=
    layers_transparent .empty [.option, .box] .bool chunks.flatten
  obtain ⟨fed, awaits⟩ := calls parser (.start .empty (.list item))
    (.core (.list item) (.array item .pending #[])) [] 1 none #[] [leftBracket, 0x20] [0x74] rfl rfl
    rfl
  refine ⟨?_, fed, ?_⟩
  · obtain ⟨-, -, -, finish⟩ := document none chunks (List.prefix_refl _)
    exact finish
  · exact inside called called' chunks (awaits nofun) ⟨rfl, _, _, _, rfl⟩ ⟨rfl, rfl, rfl, rfl, rfl⟩
      (List.prefix_refl _)

end IncrementalJson
