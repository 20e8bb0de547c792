import IncrementalJson.Proofs.Grammar.Height
import IncrementalJson.Proofs.Reading.Layers

/-!
# Every text that means a value is read as that value

By induction on the grammar: each text of a value is read by the frame of every
shape for which it has a meaning, whatever follows it, as long as that does not
go on with a number.  The frames that this takes are as many as the tree is high.
-/

set_option autoImplicit false

namespace IncrementalJson

open Ascii

variable {schema : Schema}

/-- The frame of a shape reads a value from a text, up to its end, with frames up to a height. -/
def ReadsText (schema : Schema) (shape : Shape) (height : Nat) (text : List Char)
    (value : Value) : Prop :=
  ∀ (offset : Nat) (rest : List UInt8), Delimits rest →
    ∃ frame offset',
      Reads schema height (.start schema shape) ⟨Utf8.encode text ++ rest, offset, true⟩ #[]
        frame ⟨rest, offset', true⟩ #[] ∧
      frame.deliver shape = .ok value

/-- The body of a shape reads a value from a text, up to its end, in frames of any shape. -/
def BodyReadsText (schema : Schema) (core : Shape) (height : Nat) (text : List Char)
    (value : Value) : Prop :=
  ∀ (offset : Nat) (rest : List UInt8), Delimits rest →
    ∃ body offset',
      (∀ shape, Reads schema height (.around shape (.start schema core))
        ⟨Utf8.encode text ++ rest, offset, true⟩ #[] (.around shape body)
        ⟨rest, offset', true⟩ #[]) ∧
      body.result = .ok value

/-! ## The meaning of elements and members -/

namespace Json

theorem readItems_cons {item : Shape} {json : Json} {rest : List Json} {values : List Value}
    (read : readItems schema item (json :: rest) = some values) :
    ∃ value values', json.readAs schema item = some value ∧
      readItems schema item rest = some values' ∧ values = value :: values' := by
  rw [readItems] at read
  split at read
  · rename_i value readFirst
    obtain ⟨values', readRest, rfl⟩ := Option.map_eq_some_iff.mp read
    exact ⟨value, values', readFirst, readRest, rfl⟩
  · cases read

theorem readMembers_cons {table : Table} {name : List StringItem} {json : Json}
    {rest : List (List StringItem × Json)} {read read' : MembersRead}
    (means : readMembers schema table ((name, json) :: rest) read = some read') :
    ∃ text slot value, textOf? name = some text ∧ table.memberSlot? text = some slot ∧
      json.readAs schema slot.shape = some value ∧
      readMembers schema table rest (read.take value slot) = some read' := by
  rw [readMembers] at means
  split at means
  · rename_i slot found
    obtain ⟨text, named, found⟩ := Option.bind_eq_some_iff.mp found
    split at means
    · rename_i value readFirst
      exact ⟨text, slot, value, named, found, readFirst, means⟩
    · cases means
  · cases means

end Json

/-! ## Steps of frames -/

theorem Frame.resume_of_body {body : FrameBody} {input : Input} {scratch : Scratch}
    {advance : Advance FrameBody} (resumed : body.resume schema input scratch = .ok advance)
    (shape : Shape) :
    (around shape body).resume schema input scratch = .ok (advance.map (around shape)) := by
  rw [resume_around, resumed]
  rfl

theorem Reads.of_resume_eq {height : Nat} {frame frame₁ frame' : Frame}
    {input input₁ input' : Input} {scratch scratch₁ scratch' : Scratch}
    (same : frame.resume schema input scratch = frame₁.resume schema input₁ scratch₁)
    (reads : Reads schema height frame₁ input₁ scratch₁ frame' input' scratch') :
    Reads schema height frame input scratch frame' input' scratch' := by
  cases reads with
  | complete resumed => exact .complete (same.trans resumed)
  | call resumed inner accepted goesOn => exact .call (same.trans resumed) inner accepted goesOn

theorem FrameBody.resume_start_blank (schema : Schema) (core : Shape) {blank : List Char}
    (isBlank : Blank blank) {byte : UInt8} (solid : isSpace byte = false) (offset : Nat) (rest : List UInt8) :
    ∃ offset', (start schema core).resume schema
        ⟨Utf8.encode blank ++ byte :: rest, offset, true⟩ #[] =
      (start schema core).resume schema ⟨byte :: rest, offset', true⟩ #[] := by
  obtain ⟨offset', behind⟩ :=
    @Input.significant_blank (Advance FrameBody) blank isBlank byte solid offset rest
  refine ⟨offset', ?_⟩
  cases core <;>
    simp only [start, resume, startNumber, resumeArray, resumeObject, if_true, behind,
      Input.significant_solid solid]

theorem Frame.resume_start_blank (schema : Schema) (shape : Shape) {blank : List Char}
    (isBlank : Blank blank) {byte : UInt8} (solid : isSpace byte = false) (offset : Nat) (rest : List UInt8) :
    ∃ offset', (start schema shape).resume schema
        ⟨Utf8.encode blank ++ byte :: rest, offset, true⟩ #[] =
      (start schema shape).resume schema ⟨byte :: rest, offset', true⟩ #[] := by
  by_cases option : shape.hasOption
  · obtain ⟨offset', behind⟩ :=
      @Input.significant_blank (Advance Frame) blank isBlank byte solid offset rest
    refine ⟨offset', ?_⟩
    rw [resume_start_of_option option, resume_start_of_option option, behind,
      Input.significant_solid solid]
  · obtain ⟨offset', same⟩ :=
      FrameBody.resume_start_blank schema shape.core isBlank solid offset rest
    refine ⟨offset', ?_⟩
    rw [start_of_solid (Bool.not_eq_true _ ▸ option), resume_around, resume_around, same]

theorem ReadsText.behind_blank {shape : Shape} {height : Nat} {text blank : List Char}
    {json : Json} {value : Value} (reads : ReadsText schema shape height text value)
    (spells : Spells text json) (isBlank : Blank blank) (offset : Nat) {rest : List UInt8}
    (delimits : Delimits rest) :
    ∃ frame offset',
      Reads schema height (.start schema shape)
        ⟨Utf8.encode blank ++ (Utf8.encode text ++ rest), offset, true⟩ #[]
        frame ⟨rest, offset', true⟩ #[] ∧
      frame.deliver shape = .ok value := by
  obtain ⟨byte, more, bytes, solid, -⟩ := spells.first
  obtain ⟨offset₁, same⟩ :=
    Frame.resume_start_blank schema shape isBlank solid offset (more ++ rest)
  obtain ⟨frame, offset', read, delivered⟩ := reads offset₁ rest delimits
  rw [bytes, List.cons_append] at read
  refine ⟨frame, offset', read.of_resume_eq ?_, delivered⟩
  rw [bytes, List.cons_append, same]

/-! ## Around a body -/

theorem Shape.heldShape_initial (json : Json) :
    (schema.initial json.heldShape).heldShape = json.heldShape := by
  cases json <;> rfl

theorem Frame.deliver_of_body {body : FrameBody} {value : Value} (shape : Shape)
    (result : body.result = .ok value) :
    (around shape body).deliver shape = .ok (shape.wrap value) := by
  rw [deliver_around_self, result]
  rfl

@[simp] theorem Shape.layers_innerShape (json : Json) (shape : Shape) :
    (json.innerShape shape).layers = 1 := by
  rw [Shape.layers, Json.core_innerShape, if_neg (json.innerShape_ne_variant shape)]

/-- A variant adds one to the height of what it holds. -/
theorem Json.height_inner (schema : Schema) {shape : Shape} {json : Json}
    (kept : shape.hasOption → json ≠ .null) :
    json.height schema shape = json.height schema (json.innerShape shape) +
      if shape.core = .variant then 1 else 0 := by
  have layers : shape.layers = 1 + if shape.core = .variant then 1 else 0 := by
    rw [Shape.layers]
    split <;> rfl
  cases json with
  | null =>
    have noOption : shape.hasOption = false := by simpa using fun option => kept option rfl
    simp [height, noOption, layers]
  | bool truth => simp [height, layers]
  | number literal => simp [height, layers]
  | string items => simp [height, layers]
  | array items =>
    simp only [height, innerShape_innerShape, Shape.layers_innerShape, layers]
    split <;> omega
  | object members =>
    simp only [height, innerShape_innerShape, Shape.layers_innerShape, layers]
    split <;> omega

theorem Json.height_object {shape : Shape} {members : List (List StringItem × Json)}
    {table : Table} (isObject : schema.table? ((object members).innerShape shape) = some table) :
    (object members).height schema ((object members).innerShape shape) =
      1 + membersHeight schema table members := by
  simp only [height, innerShape_innerShape, isObject, Shape.layers_innerShape]

/-- A variant has the body of another shape read its value. -/
theorem BodyReadsText.variant {height : Nat} {text : List Char} {json : Json} {value : Value}
    (spells : Spells text json) (reads : BodyReadsText schema json.heldShape height text value) :
    BodyReadsText schema .variant (height + 1) text (.held value) := by
  intro offset rest delimits
  obtain ⟨byte, more, bytes, solid, held, -⟩ := spells.first
  obtain ⟨body, offset', read, result⟩ := reads offset rest delimits
  refine ⟨.variant (some value), offset', fun shape => ?_, rfl⟩
  have child : Frame.start schema json.heldShape =
      .around json.heldShape (.start schema json.heldShape) := by
    rw [Frame.start_of_solid json.hasOption_heldShape, json.core_heldShape]
  have delivered : (Frame.around json.heldShape body).deliver
      (schema.initial json.heldShape).heldShape = .ok value := by
    rw [Shape.heldShape_initial, Frame.deliver_of_body _ result, Json.wrap_heldShape]
  have called : (FrameBody.start schema .variant).resume schema
      ⟨Utf8.encode text ++ rest, offset, true⟩ #[] =
        .ok ⟨.variant (some (schema.initial json.heldShape)),
          ⟨Utf8.encode text ++ rest, offset, true⟩, #[],
          .call (.around json.heldShape (.start schema json.heldShape))⟩ := by
    rw [bytes, List.cons_append, ← child]
    simp only [FrameBody.start, FrameBody.resume, Input.significant_solid solid, held]
  have accepted : (Frame.around shape (.variant (some (schema.initial json.heldShape)))).accept
      (.around json.heldShape body) = .ok (.around shape (.variant (some value))) := by
    rw [Frame.accept_around]
    simp only [FrameBody.accept, delivered, Except.map]
  have ends : (FrameBody.variant (some value)).resume schema ⟨rest, offset', true⟩ #[] =
      .ok ⟨.variant (some value), ⟨rest, offset', true⟩, #[], .complete⟩ := rfl
  have highest : max (height + 1) 1 = height + 1 := by omega
  exact highest ▸ .call (Frame.resume_of_body called shape) (read _) accepted
    (.complete (Frame.resume_of_body ends shape))

theorem BodyReadsText.inFrame {shape : Shape} {height : Nat} {text : List Char} {json : Json}
    {value : Value} (spells : Spells text json) (kept : shape.hasOption → json ≠ .null)
    (reads : BodyReadsText schema shape.core height text value) :
    ReadsText schema shape height text (shape.wrap value) := by
  intro offset rest delimits
  obtain ⟨byte, more, bytes, solid, -, isNull⟩ := spells.first
  obtain ⟨body, offset', read, result⟩ := reads offset rest delimits
  refine ⟨_, offset', ?_, Frame.deliver_of_body shape result⟩
  by_cases option : shape.hasOption
  · have notNull : byte ≠ lowerN := fun begins => kept option (isNull.mp begins)
    refine (read shape).of_resume_eq ?_
    rw [Frame.resume_start_of_option option, bytes, List.cons_append,
      Input.significant_solid solid, if_neg notNull]
  · rw [Frame.start_of_solid (Bool.not_eq_true _ ▸ option)]
    exact read shape

theorem BodyReadsText.inLayers {shape : Shape} {text : List Char} {json : Json} {value : Value}
    (spells : Spells text json) (kept : shape.hasOption → json ≠ .null)
    (reads : BodyReadsText schema (json.innerShape shape)
      (json.height schema (json.innerShape shape)) text value) :
    ReadsText schema shape (json.height schema shape) text (Json.wrap shape value) := by
  rw [Json.wrap, Json.height_inner schema kept]
  refine BodyReadsText.inFrame spells kept ?_
  by_cases variant : shape.core = .variant
  · rw [if_pos variant, if_pos variant, variant]
    rw [Json.innerShape, if_pos variant] at reads ⊢
    exact reads.variant spells
  · rw [if_neg variant, if_neg variant]
    rw [Json.innerShape, if_neg variant] at reads ⊢
    exact reads

theorem readsText_absent {shape : Shape} (option : shape.hasOption) :
    ReadsText schema shape 1 ['n', 'u', 'l', 'l'] .absent := by
  intro offset rest _
  obtain ⟨offset', matched⟩ := Input.matchLiteral_spelled nullText rest offset
  have bytes : Utf8.encode ['n', 'u', 'l', 'l'] = lowerN :: [0x75, 0x6C, 0x6C] := rfl
  refine ⟨.vacant shape [], offset', .complete ?_, ?_⟩
  · rw [Frame.resume_start_of_option option, bytes, List.cons_append,
      Input.significant_solid rfl, if_pos rfl, Frame.resumeVacant]
    rw [nullText, List.cons_append] at matched
    rw [nullText, matched]
    rfl
  · rw [Frame.deliver_vacant option]
    exact if_pos rfl

/-! ## Arrays -/

theorem Delimits.comma (rest : List UInt8) : Delimits (Ascii.comma :: rest) := .inr (.inl rfl)

theorem Delimits.rightBracket (rest : List UInt8) : Delimits (Ascii.rightBracket :: rest) :=
  .inr (.inr (.inl rfl))

theorem Delimits.rightBrace (rest : List UInt8) : Delimits (Ascii.rightBrace :: rest) :=
  .inr (.inr (.inr rfl))

def commaLed (texts : List (List Char)) : List Char := texts.flatMap (',' :: ·)

theorem commaSeparated_cons (text : List Char) (texts : List (List Char)) :
    commaSeparated (text :: texts) = text ++ commaLed texts := by
  induction texts generalizing text with
  | nil => simp [commaSeparated, commaLed]
  | cons next rest ih =>
    rw [commaSeparated, ih]
    simp [commaLed]

theorem encode_commaLed_cons (text : List Char) (texts : List (List Char)) (rest : List UInt8) :
    Utf8.encode (commaLed (text :: texts)) ++ rest =
      Ascii.comma :: (Utf8.encode text ++ (Utf8.encode (commaLed texts) ++ rest)) := by
  have comma : Utf8.encodeChar ',' = [Ascii.comma] := rfl
  simp [commaLed, Utf8.encode_cons, Utf8.encode_append, comma]

theorem Delimits.commaLed {texts : List (List Char)} {rest : List UInt8} (delimits : Delimits rest) :
    Delimits (Utf8.encode (commaLed texts) ++ rest) := by
  cases texts with
  | nil => exact delimits
  | cons text more => exact .comma _

namespace FrameBody

theorem arrayElement_text (schema : Schema) (item : Shape) (items : Array Value)
    {blank text : List Char} {json : Json} (isBlank : Blank blank) (spells : Spells text json)
    (offset : Nat) (rest : List UInt8) :
    ∃ offset', arrayElement schema item items
        ⟨Utf8.encode blank ++ (Utf8.encode text ++ rest), offset, true⟩ #[] =
      .ok ⟨.array item .pending items, ⟨Utf8.encode text ++ rest, offset', true⟩, #[],
        .call (.start schema item)⟩ := by
  obtain ⟨byte, more, bytes, solid, held, -⟩ := spells.first
  have notClosing : byte ≠ rightBracket := by
    rintro rfl
    cases held
  obtain ⟨offset', behind⟩ :=
    @Input.significant_blank (Advance FrameBody) blank isBlank byte solid offset (more ++ rest)
  refine ⟨offset', ?_⟩
  rw [bytes, List.cons_append, arrayElement, behind, if_neg]
  rintro ⟨closing, -⟩
  exact notClosing closing

end FrameBody

theorem Element.encode_padded (element : Element) (rest : List UInt8) :
    Utf8.encode element.padded ++ rest =
      Utf8.encode element.before ++
        (Utf8.encode element.text ++ (Utf8.encode element.after ++ rest)) := by
  simp only [padded, Utf8.encode_append, List.append_assoc]

/-- An array that reads what stands behind an element reads the element as well. -/
theorem Reads.element {item : Shape} {items : Array Value} {element : Element} {value : Value}
    {height further : Nat} {rest last : List UInt8} {body' : FrameBody}
    (blank : Blank element.before ∧ Blank element.after)
    (spells : Spells element.text element.json)
    (reads : ReadsText schema item height element.text value) (delimits : Delimits rest)
    (goesOn : ∀ offset, ∃ offset', ∀ shape,
      Reads schema (1 + further) (.around shape (.array item .comma (items.push value)))
        ⟨Utf8.encode element.after ++ rest, offset, true⟩ #[]
        (.around shape body') ⟨last, offset', true⟩ #[])
    (offset : Nat) :
    ∃ offset', ∀ (body : FrameBody) (input : Input) (shape : Shape),
      body.resume schema input #[] = FrameBody.arrayElement schema item items
        ⟨Utf8.encode element.padded ++ rest, offset, true⟩ #[] →
      Reads schema (1 + max height further) (.around shape body) input #[]
        (.around shape body') ⟨last, offset', true⟩ #[] := by
  obtain ⟨offset₁, called⟩ := FrameBody.arrayElement_text schema item items blank.1 spells
    offset (Utf8.encode element.after ++ rest)
  obtain ⟨child, offset₂, inner, delivered⟩ :=
    reads offset₁ (Utf8.encode element.after ++ rest) (delimits.blank_append blank.2)
  obtain ⟨offset', more⟩ := goesOn offset₂
  refine ⟨offset', fun body input shape resumed => ?_⟩
  rw [element.encode_padded, called] at resumed
  have accepted : (Frame.around shape (.array item .pending items)).accept child =
      .ok (.around shape (.array item .comma (items.push value))) := by
    rw [Frame.accept_around]
    simp only [FrameBody.accept, delivered, Except.map]
  have highest : max (height + 1) (1 + further) = 1 + max height further := by omega
  exact highest ▸ .call (Frame.resume_of_body resumed shape) inner accepted (more shape)

theorem Reads.elements {item : Shape} {elements : List Element} {values : List Value}
    (blank : ∀ element ∈ elements, Blank element.before ∧ Blank element.after)
    (spelled : ∀ element ∈ elements, Spells element.text element.json)
    (each : ∀ element ∈ elements, ∀ shape value,
      element.json.readAs schema shape = some value →
        ReadsText schema shape (element.json.height schema shape) element.text value)
    (read : Json.readItems schema item (elements.map Element.json) = some values)
    {after : List Char} (afterBlank : Blank after) (items : Array Value) (rest : List UInt8)
    (offset : Nat) :
    ∃ offset', ∀ shape, Reads schema (1 + Json.itemsHeight schema item (elements.map Element.json))
      (.around shape (.array item .comma items))
      ⟨Utf8.encode after ++ (Utf8.encode (commaLed (elements.map Element.padded)) ++
        rightBracket :: rest), offset, true⟩ #[]
      (.around shape (.array item .comma (items ++ values.toArray))) ⟨rest, offset', true⟩ #[] := by
  induction elements generalizing values after items offset with
  | nil =>
    cases read
    obtain ⟨offset₁, behind⟩ := @Input.significant_blank (Advance FrameBody) after afterBlank
      rightBracket rfl offset rest
    refine ⟨offset₁ + 1, fun shape => .complete ?_⟩
    have resumed : (FrameBody.array item .comma items).resume schema
        ⟨Utf8.encode after ++ rightBracket :: rest, offset, true⟩ #[] =
          .ok ⟨.array item .comma items, ⟨rest, offset₁ + 1, true⟩, #[], .complete⟩ := by
      simp only [FrameBody.resume, FrameBody.resumeArray]
      rw [behind, if_neg (by decide), if_pos rfl]
      rfl
    have nothing : items ++ ([] : List Value).toArray = items := by simp
    rw [nothing]
    exact Frame.resume_of_body resumed shape
  | cons element more ih =>
    obtain ⟨value, values', readFirst, readRest, rfl⟩ := Json.readItems_cons read
    have here : element ∈ element :: more := List.mem_cons_self
    have later {other : Element} (among : other ∈ more) := List.mem_cons_of_mem element among
    have goesOn := ih (fun other among => blank other (later among))
      (fun other among => spelled other (later among))
      (fun other among => each other (later among)) readRest (blank element here).2
      (items.push value)
    obtain ⟨offset₁, behind⟩ := @Input.significant_blank (Advance FrameBody) after afterBlank
      Ascii.comma rfl offset (Utf8.encode element.padded ++
        (Utf8.encode (commaLed (more.map Element.padded)) ++ rightBracket :: rest))
    obtain ⟨offset', reads⟩ := Reads.element (blank element here) (spelled element here)
      (each element here item value readFirst) (Delimits.rightBracket rest).commaLed goesOn
      (offset₁ + 1)
    refine ⟨offset', fun shape => ?_⟩
    have total : items ++ (value :: values').toArray = items.push value ++ values'.toArray := by
      simp
    rw [total]
    refine reads _ _ shape ?_
    simp only [FrameBody.resume, FrameBody.resumeArray]
    rw [List.map_cons, encode_commaLed_cons, behind, if_pos rfl]
    rfl

theorem encode_bracketed (opening closing : Char) (text : List Char) :
    Utf8.encode (opening :: text ++ [closing]) =
      Utf8.encodeChar opening ++ (Utf8.encode text ++ Utf8.encodeChar closing) := by
  simp [Utf8.encode_cons, Utf8.encode_append]

theorem bodyReadsText_emptyArray (item : Shape) {blank : List Char} (isBlank : Blank blank) :
    BodyReadsText schema (.list item) 1 ('[' :: blank ++ [']']) (.list []) := by
  intro offset rest _
  obtain ⟨offset₁, behind⟩ := @Input.significant_blank (Advance FrameBody) blank isBlank
    rightBracket rfl (offset + 1) rest
  have bytes : Utf8.encode ('[' :: blank ++ [']']) ++ rest =
      leftBracket :: (Utf8.encode blank ++ rightBracket :: rest) := by
    rw [encode_bracketed, List.append_assoc, List.append_assoc]
    rfl
  have resumed : (FrameBody.start schema (.list item)).resume schema
      ⟨Utf8.encode ('[' :: blank ++ [']']) ++ rest, offset, true⟩ #[] =
        .ok ⟨.array item .element #[], ⟨rest, offset₁ + 1, true⟩, #[], .complete⟩ := by
    simp only [FrameBody.start, FrameBody.resume, FrameBody.resumeArray]
    rw [bytes, Input.significant_solid rfl, if_pos rfl, FrameBody.arrayElement]
    simp only [Input.next, List.tail_cons]
    rw [behind, if_pos ⟨rfl, rfl⟩]
    rfl
  exact ⟨_, _, fun shape => .complete (Frame.resume_of_body resumed shape), rfl⟩

theorem bodyReadsText_array {item : Shape} {elements : List Element} {values : List Value}
    (filled : elements ≠ [])
    (blank : ∀ element ∈ elements, Blank element.before ∧ Blank element.after)
    (spelled : ∀ element ∈ elements, Spells element.text element.json)
    (each : ∀ element ∈ elements, ∀ shape value,
      element.json.readAs schema shape = some value →
        ReadsText schema shape (element.json.height schema shape) element.text value)
    (read : Json.readItems schema item (elements.map Element.json) = some values) :
    BodyReadsText schema (.list item)
      (1 + Json.itemsHeight schema item (elements.map Element.json))
      ('[' :: commaSeparated (elements.map Element.padded) ++ [']']) (.list values) := by
  intro offset rest _
  cases elements with
  | nil => exact absurd rfl filled
  | cons element more =>
    obtain ⟨value, values', readFirst, readRest, rfl⟩ := Json.readItems_cons read
    have here : element ∈ element :: more := List.mem_cons_self
    have later {other : Element} (among : other ∈ more) := List.mem_cons_of_mem element among
    have goesOn := Reads.elements (fun other among => blank other (later among))
      (fun other among => spelled other (later among))
      (fun other among => each other (later among)) readRest (blank element here).2
      (#[].push value) rest
    obtain ⟨offset', reads⟩ := Reads.element (blank element here) (spelled element here)
      (each element here item value readFirst) (Delimits.rightBracket rest).commaLed goesOn
      (offset + 1)
    refine ⟨_, offset', fun shape => reads _ _ shape ?_, ?_⟩
    · have bytes : Utf8.encode ('[' :: commaSeparated ((element :: more).map Element.padded) ++
          [']']) ++ rest = leftBracket :: (Utf8.encode element.padded ++
            (Utf8.encode (commaLed (more.map Element.padded)) ++ rightBracket :: rest)) := by
        rw [encode_bracketed, List.map_cons, commaSeparated_cons, Utf8.encode_append]
        simp only [List.append_assoc]
        rfl
      simp only [FrameBody.start, FrameBody.resume, FrameBody.resumeArray]
      rw [bytes, Input.significant_solid rfl, if_pos rfl]
      rfl
    · simp [FrameBody.result]

/-! ## Objects -/

def MembersRead.body (read : MembersRead) (table : Table) (phase : ObjectPhase) : FrameBody :=
  .object table phase none read.members read.presence read.extras

theorem Member.encode_padded (member : Member) (rest : List UInt8) :
    Utf8.encode member.padded ++ rest =
      Utf8.encode member.beforeName ++ (Utf8.encode (quotedText member.name) ++
        (Utf8.encode member.afterName ++
          Ascii.colon :: (Utf8.encode member.value.padded ++ rest))) := by
  have colon : Utf8.encodeChar ':' = [Ascii.colon] := rfl
  simp [padded, Utf8.encode_cons, Utf8.encode_append, colon]

namespace FrameBody

theorem objectName_text (schema : Schema) {table : Table} {slot : MemberSlot} (read : MembersRead)
    {member : Member} {name : String} (first : Bool) (before : Blank member.beforeName)
    (after : Blank member.afterName) (named : textOf? member.name = some name)
    (found : table.memberSlot? name = some slot) (offset : Nat) (rest : List UInt8) :
    ∃ offset', objectName schema table first none read.members read.presence read.extras
        ⟨Utf8.encode member.padded ++ rest, offset, true⟩ #[] =
      .ok ⟨.object table .pending (some (slot.target read.extras)) read.members read.presence
          (slot.prepare schema read.extras),
        ⟨Utf8.encode member.value.padded ++ rest, offset', true⟩, #[],
        .call (.start schema slot.shape)⟩ := by
  have paired : surrogatesPaired member.name := by
    by_cases paired : surrogatesPaired member.name
    · exact paired
    · rw [textOf?, if_neg paired] at named
      cases named
  rw [textOf?, if_pos paired] at named
  cases named
  obtain ⟨offset₁, toName⟩ := @Input.significant_blank (Advance FrameBody) member.beforeName before
    Ascii.quote rfl offset (Utf8.encode (member.name.flatMap StringItem.text) ++
      Ascii.quote :: (Utf8.encode member.afterName ++
        Ascii.colon :: (Utf8.encode member.value.padded ++ rest)))
  obtain ⟨octets, tail, offset₂, scanned, total⟩ := StringLexer.scan_items paired (offset₁ + 1)
    (Utf8.encode member.afterName ++ Ascii.colon :: (Utf8.encode member.value.padded ++ rest))
  obtain ⟨offset₃, toColon⟩ := @Input.significant_blank (Advance FrameBody) member.afterName after
    Ascii.colon rfl offset₂ (Utf8.encode member.value.padded ++ rest)
  have looked : table.resolve schema read.extras octets.toList tail.toList =
      .ok (slot.target read.extras, slot.prepare schema read.extras) := by
    refine (Table.resolve_eq_ok_iff _ _ _ _).mpr ⟨_, slot, ?_, found, rfl⟩
    rw [total, Utf8.encodeString, String.toList_ofList]
  refine ⟨offset₃ + 1, ?_⟩
  rw [member.encode_padded, encode_quotedText, List.cons_append, List.append_assoc,
    List.singleton_append, objectName, toName, if_pos rfl, objectInName]
  simp only [Input.next, List.tail_cons]
  rw [scanned]
  simp only [looked, objectColon]
  rw [toColon, if_pos rfl, Table.memberShape?_target found]
  rfl

end FrameBody

structure Member.Spelled (member : Member) : Prop where
  beforeName : Blank member.beforeName
  afterName : Blank member.afterName
  before : Blank member.value.before
  after : Blank member.value.after
  spells : Spells member.value.text member.value.json

theorem Json.membersHeight_cons {table : Table} {slot : MemberSlot} {items : List StringItem}
    {name : String} (named : textOf? items = some name) (found : table.memberSlot? name = some slot)
    (json : Json) (rest : List (List StringItem × Json)) :
    membersHeight schema table ((items, json) :: rest) =
      max (json.height schema slot.shape) (membersHeight schema table rest) := by
  simp only [membersHeight, named, Option.bind_some, found]

/-- An object that reads what stands behind a member reads the member as well. -/
theorem Reads.member {table : Table} {slot : MemberSlot} {read : MembersRead} {member : Member}
    {name : String} {value : Value} {height further : Nat} {rest last : List UInt8}
    {body' : FrameBody} (spelled : member.Spelled) (named : textOf? member.name = some name)
    (found : table.memberSlot? name = some slot)
    (reads : ReadsText schema slot.shape height member.value.text value)
    (delimits : Delimits rest)
    (goesOn : ∀ offset, ∃ offset', ∀ shape,
      Reads schema (1 + further) (.around shape ((read.take value slot).body table .comma))
        ⟨Utf8.encode member.value.after ++ rest, offset, true⟩ #[]
        (.around shape body') ⟨last, offset', true⟩ #[])
    (first : Bool) (offset : Nat) :
    ∃ offset', ∀ (body : FrameBody) (input : Input) (shape : Shape),
      body.resume schema input #[] =
        FrameBody.objectName schema table first none read.members read.presence read.extras
          ⟨Utf8.encode member.padded ++ rest, offset, true⟩ #[] →
      Reads schema (1 + max height further) (.around shape body) input #[]
        (.around shape body') ⟨last, offset', true⟩ #[] := by
  obtain ⟨offset₁, called⟩ := FrameBody.objectName_text schema read first
    spelled.beforeName spelled.afterName named found offset rest
  have behind : Delimits (Utf8.encode member.value.after ++ rest) :=
    delimits.blank_append spelled.after
  obtain ⟨child, offset₂, inner, delivered⟩ :=
    reads.behind_blank spelled.spells spelled.before offset₁ behind
  obtain ⟨offset', more⟩ := goesOn offset₂
  refine ⟨offset', fun body input shape resumed => ?_⟩
  rw [called, member.value.encode_padded] at resumed
  have accepted : (Frame.around shape (.object table .pending
      (some (slot.target read.extras)) read.members read.presence
      (slot.prepare schema read.extras))).accept child =
        .ok (.around shape ((read.take value slot).body table .comma)) := by
    rw [Frame.accept_around, FrameBody.accept_member found, delivered]
    rfl
  have highest : max (height + 1) (1 + further) = 1 + max height further := by omega
  exact highest ▸ .call (Frame.resume_of_body resumed shape) inner accepted (more shape)

theorem Reads.members {table : Table} {members : List Member} {read read' : MembersRead}
    (spelled : ∀ member ∈ members, member.Spelled)
    (each : ∀ member ∈ members, ∀ shape value,
      member.value.json.readAs schema shape = some value →
        ReadsText schema shape (member.value.json.height schema shape) member.value.text value)
    (means : Json.readMembers schema table
      (members.map fun member => (member.name, member.value.json)) read = some read')
    {after : List Char} (afterBlank : Blank after) (rest : List UInt8) (offset : Nat) :
    ∃ offset', ∀ shape, Reads schema
      (1 + Json.membersHeight schema table
        (members.map fun member => (member.name, member.value.json)))
      (.around shape (read.body table .comma))
      ⟨Utf8.encode after ++ (Utf8.encode (commaLed (members.map Member.padded)) ++
        rightBrace :: rest), offset, true⟩ #[]
      (.around shape (read'.body table .comma)) ⟨rest, offset', true⟩ #[] := by
  induction members generalizing read after offset with
  | nil =>
    obtain rfl : read = read' := Option.some.inj means
    obtain ⟨offset₁, behind⟩ := @Input.significant_blank (Advance FrameBody) after afterBlank
      rightBrace rfl offset rest
    refine ⟨offset₁ + 1, fun shape => .complete ?_⟩
    have resumed : (read.body table .comma).resume schema
        ⟨Utf8.encode after ++ rightBrace :: rest, offset, true⟩ #[] =
          .ok ⟨read.body table .comma, ⟨rest, offset₁ + 1, true⟩, #[], .complete⟩ := by
      simp only [MembersRead.body, FrameBody.resume, FrameBody.resumeObject]
      rw [behind, if_neg (by decide), if_pos rfl]
      rfl
    exact Frame.resume_of_body resumed shape
  | cons member more ih =>
    obtain ⟨name, slot, value, named, found, readFirst, readRest⟩ :=
      Json.readMembers_cons means
    have here : member ∈ member :: more := List.mem_cons_self
    have later {other : Member} (among : other ∈ more) := List.mem_cons_of_mem member among
    have goesOn := ih (fun other among => spelled other (later among))
      (fun other among => each other (later among)) readRest (spelled member here).after
    obtain ⟨offset₁, behind⟩ := @Input.significant_blank (Advance FrameBody) after afterBlank
      Ascii.comma rfl offset (Utf8.encode member.padded ++
        (Utf8.encode (commaLed (more.map Member.padded)) ++ rightBrace :: rest))
    obtain ⟨offset', reads⟩ := Reads.member (spelled member here) named found
      (each member here slot.shape value readFirst) (Delimits.rightBrace rest).commaLed goesOn
      false (offset₁ + 1)
    refine ⟨offset', fun shape => ?_⟩
    rw [List.map_cons, Json.membersHeight_cons named found]
    refine reads _ _ shape ?_
    simp only [MembersRead.body, FrameBody.resume, FrameBody.resumeObject]
    rw [List.map_cons, encode_commaLed_cons, behind, if_pos rfl]
    rfl

theorem bodyReadsText_emptyObject {core : Shape} {table : Table}
    (isObject : FrameBody.start schema core = (MembersRead.start schema table).body table .opening)
    {blank : List Char} (isBlank : Blank blank) :
    BodyReadsText schema core 1 ('{' :: blank ++ ['}'])
      (.object (MembersRead.start schema table).members (MembersRead.start schema table).presence
        (MembersRead.start schema table).extras) := by
  intro offset rest _
  obtain ⟨offset₁, behind⟩ := @Input.significant_blank (Advance FrameBody) blank isBlank
    rightBrace rfl (offset + 1) rest
  have bytes : Utf8.encode ('{' :: blank ++ ['}']) ++ rest =
      leftBrace :: (Utf8.encode blank ++ rightBrace :: rest) := by
    rw [encode_bracketed, List.append_assoc, List.append_assoc]
    rfl
  have resumed : (FrameBody.start schema core).resume schema
      ⟨Utf8.encode ('{' :: blank ++ ['}']) ++ rest, offset, true⟩ #[] =
        .ok ⟨(MembersRead.start schema table).body table (.name true), ⟨rest, offset₁ + 1, true⟩,
          #[], .complete⟩ := by
    rw [isObject]
    simp only [MembersRead.body, FrameBody.resume, FrameBody.resumeObject]
    rw [bytes, Input.significant_solid rfl, if_pos rfl, FrameBody.objectName]
    simp only [Input.next, List.tail_cons]
    rw [behind, if_neg (by decide), if_pos ⟨rfl, trivial⟩]
    rfl
  exact ⟨_, _, fun shape => .complete (Frame.resume_of_body resumed shape), rfl⟩

theorem bodyReadsText_object {core : Shape} {table : Table}
    (isObject : FrameBody.start schema core = (MembersRead.start schema table).body table .opening)
    {members : List Member} {read' : MembersRead} (filled : members ≠ [])
    (spelled : ∀ member ∈ members, member.Spelled)
    (each : ∀ member ∈ members, ∀ shape value,
      member.value.json.readAs schema shape = some value →
        ReadsText schema shape (member.value.json.height schema shape) member.value.text value)
    (means : Json.readMembers schema table
      (members.map fun member => (member.name, member.value.json)) (.start schema table) =
        some read') :
    BodyReadsText schema core
      (1 + Json.membersHeight schema table
        (members.map fun member => (member.name, member.value.json)))
      ('{' :: commaSeparated (members.map Member.padded) ++ ['}'])
      (.object read'.members read'.presence read'.extras) := by
  intro offset rest _
  cases members with
  | nil => exact absurd rfl filled
  | cons member more =>
    obtain ⟨name, slot, value, named, found, readFirst, readRest⟩ :=
      Json.readMembers_cons means
    have here : member ∈ member :: more := List.mem_cons_self
    have later {other : Member} (among : other ∈ more) := List.mem_cons_of_mem member among
    have goesOn := Reads.members (fun other among => spelled other (later among))
      (fun other among => each other (later among)) readRest (spelled member here).after rest
    obtain ⟨offset', reads⟩ := Reads.member (spelled member here) named found
      (each member here slot.shape value readFirst) (Delimits.rightBrace rest).commaLed goesOn
      true (offset + 1)
    refine ⟨read'.body table .comma, offset', fun shape => ?_, rfl⟩
    rw [List.map_cons, Json.membersHeight_cons named found]
    refine reads _ _ shape ?_
    have bytes : Utf8.encode ('{' :: commaSeparated ((member :: more).map Member.padded) ++
        ['}']) ++ rest = leftBrace :: (Utf8.encode member.padded ++
          (Utf8.encode (commaLed (more.map Member.padded)) ++ rightBrace :: rest)) := by
      rw [encode_bracketed, List.map_cons, commaSeparated_cons, Utf8.encode_append]
      simp only [List.append_assoc]
      rfl
    rw [isObject]
    simp only [MembersRead.body, FrameBody.resume, FrameBody.resumeObject]
    rw [bytes, Input.significant_solid rfl, if_pos rfl]
    rfl

theorem FrameBody.start_table {core : Shape} {table : Table}
    (isObject : schema.table? core = some table) :
    FrameBody.start schema core = (MembersRead.start schema table).body table .opening := by
  cases core <;> cases isObject <;> rfl

/-! ## The whole grammar -/

theorem bodyReadsText_null {shape : Shape} {inner : Value}
    (means : Json.null.readAs schema (Json.null.innerShape shape) = some inner) :
    BodyReadsText schema (Json.null.innerShape shape)
      (Json.null.height schema (Json.null.innerShape shape)) ['n', 'u', 'l', 'l'] inner := by
  intro offset rest _
  simp only [Json.readAs, Json.hasOption_innerShape, Json.innerShape_innerShape,
    Json.wrap_innerShape, Bool.false_eq_true, if_false] at means
  split at means
  · rename_i isNull
    cases means
    obtain ⟨offset', resumed⟩ := FrameBody.resume_nullText schema offset rest
    rw [isNull]
    exact ⟨_, offset', fun shape => .complete (Frame.resume_of_body resumed shape), rfl⟩
  · cases means

theorem bodyReadsText_bool (truth : Bool) {shape : Shape} {inner : Value}
    (means : (Json.bool truth).readAs schema ((Json.bool truth).innerShape shape) = some inner) :
    BodyReadsText schema ((Json.bool truth).innerShape shape)
      ((Json.bool truth).height schema ((Json.bool truth).innerShape shape))
      (if truth then ['t', 'r', 'u', 'e'] else ['f', 'a', 'l', 's', 'e']) inner := by
  intro offset rest _
  simp only [Json.readAs, Json.innerShape_innerShape, Json.wrap_innerShape] at means
  split at means
  · rename_i isBool
    cases means
    obtain ⟨offset', resumed⟩ := FrameBody.resume_boolText schema truth offset rest
    rw [isBool]
    cases truth <;>
      exact ⟨_, offset', fun shape => .complete (Frame.resume_of_body resumed shape), rfl⟩
  · cases means

theorem bodyReadsText_number (literal : Literal) {shape : Shape} {inner : Value}
    (means : (Json.number literal).readAs schema ((Json.number literal).innerShape shape) =
      some inner) :
    BodyReadsText schema ((Json.number literal).innerShape shape)
      ((Json.number literal).height schema ((Json.number literal).innerShape shape))
      literal.text inner := by
  intro offset rest delimits
  simp only [Json.readAs, Json.innerShape_innerShape, Json.wrap_innerShape] at means
  split at means
  · rename_i type isNumber
    obtain ⟨number, read, rfl⟩ := Option.map_eq_some_iff.mp means
    obtain ⟨offset', resumed⟩ := FrameBody.resume_literal read offset delimits
    rw [isNumber]
    exact ⟨_, offset', fun shape => .complete (Frame.resume_of_body resumed shape), rfl⟩
  · cases means

theorem bodyReadsText_string (items : List StringItem) {shape : Shape} {inner : Value}
    (means : (Json.string items).readAs schema ((Json.string items).innerShape shape) =
      some inner) :
    BodyReadsText schema ((Json.string items).innerShape shape)
      ((Json.string items).height schema ((Json.string items).innerShape shape))
      (quotedText items) inner := by
  intro offset rest _
  simp only [Json.readAs, Json.innerShape_innerShape, Json.wrap_innerShape] at means
  split at means
  · rename_i isString
    obtain ⟨text, stands, rfl⟩ := Option.map_eq_some_iff.mp means
    rw [textOf?] at stands
    split at stands
    · rename_i paired
      cases stands
      obtain ⟨octets, offset', resumed, spelled⟩ :=
        FrameBody.resume_quotedText schema paired offset rest
      rw [isString]
      refine ⟨_, offset', fun shape => .complete (Frame.resume_of_body resumed shape), ?_⟩
      have decoded : Utf8.decodeString octets.toList = .ok (String.ofList (unescape items)) := by
        rw [Utf8.decodeString_eq_ok_iff, Utf8.encodeString, String.toList_ofList, spelled]
      simp only [FrameBody.result, decoded]
    · cases stands
  · cases means

theorem ReadsText.of_body {shape : Shape} {text : List Char} {json : Json} {value : Value}
    (spells : Spells text json) (means : json.readAs schema shape = some value)
    (body : ∀ inner, json.readAs schema (json.innerShape shape) = some inner →
      BodyReadsText schema (json.innerShape shape) (json.height schema (json.innerShape shape))
        text inner) :
    ReadsText schema shape (json.height schema shape) text value := by
  by_cases absent : shape.hasOption ∧ json = .null
  · obtain ⟨option, rfl⟩ := absent
    rw [Json.readAs_absent schema option] at means
    cases means
    cases spells
    rw [Json.height, if_pos option]
    exact readsText_absent option
  · have kept (option : shape.hasOption) (isNull : json = .null) : False :=
      absent ⟨option, isNull⟩
    rw [Json.readAs_inner schema shape json kept] at means
    obtain ⟨inner, understood, rfl⟩ := Option.map_eq_some_iff.mp means
    exact (body inner understood).inLayers spells kept

/-- A text whose tree has a meaning is read as that meaning. -/
theorem Spells.readsText {text : List Char} {json : Json} (spells : Spells text json) :
    ∀ (shape : Shape) (value : Value), json.readAs schema shape = some value →
      ReadsText schema shape (json.height schema shape) text value := by
  induction spells with
  | null =>
    intro shape value means
    exact .of_body .null means fun inner => bodyReadsText_null
  | trueText =>
    intro shape value means
    exact .of_body .trueText means fun inner => bodyReadsText_bool true
  | falseText =>
    intro shape value means
    exact .of_body .falseText means fun inner => bodyReadsText_bool false
  | number literal =>
    intro shape value means
    exact .of_body (.number literal) means fun inner => bodyReadsText_number literal
  | string items =>
    intro shape value means
    exact .of_body (.string items) means fun inner => bodyReadsText_string items
  | emptyArray isBlank =>
    intro shape value means
    refine .of_body (.emptyArray isBlank) means fun inner means => ?_
    simp only [Json.readAs, Json.innerShape_innerShape, Json.wrap_innerShape, Json.readItems,
      Option.map_some] at means
    split at means
    · rename_i item isList
      cases means
      rw [Shape.eq_list_of_item? isList]
      exact bodyReadsText_emptyArray item isBlank
    · cases means
  | array filled blank spelled ih =>
    intro shape value means
    refine .of_body (.array filled blank spelled) means fun inner means => ?_
    simp only [Json.readAs, Json.innerShape_innerShape, Json.wrap_innerShape] at means
    split at means
    · rename_i item isList
      obtain ⟨values, read, rfl⟩ := Option.map_eq_some_iff.mp means
      rw [Shape.eq_list_of_item? isList]
      exact bodyReadsText_array filled blank spelled ih read
    · cases means
  | emptyObject isBlank =>
    intro shape value means
    refine .of_body (.emptyObject isBlank) means fun inner means => ?_
    simp only [Json.readAs, Json.innerShape_innerShape, Json.wrap_innerShape, Json.readMembers,
      Option.map_some] at means
    split at means
    · rename_i table isObject
      cases means
      rw [Json.height_object isObject]
      exact bodyReadsText_emptyObject (FrameBody.start_table isObject) isBlank
    · cases means
  | object filled blank spelled ih =>
    intro shape value means
    refine .of_body (.object filled blank spelled) means fun inner means => ?_
    simp only [Json.readAs, Json.innerShape_innerShape, Json.wrap_innerShape] at means
    split at means
    · rename_i table isObject
      obtain ⟨read, understood, rfl⟩ := Option.map_eq_some_iff.mp means
      rw [Json.height_object isObject]
      refine bodyReadsText_object (FrameBody.start_table isObject) filled
        (fun member among => ?_) ih understood
      obtain ⟨beforeName, afterName, before, after⟩ := blank member among
      exact ⟨beforeName, afterName, before, after, spelled member among⟩
    · cases means

/-- A document whose tree has a meaning is read as that meaning by as many frames as the tree is
high. -/
theorem reads_of_document {text : List Char} {json : Json} (document : Document text json)
    {shape : Shape} {value : Value} (means : json.readAs schema shape = some value) :
    ∃ frame input, Reads schema (json.height schema shape) (.start schema shape)
        ⟨Utf8.encode text, 0, true⟩ #[] frame input #[] ∧
      frame.deliver shape = .ok value ∧ ∀ byte ∈ input.bytes, isSpace byte := by
  obtain ⟨element, before, after, spells, rfl, rfl⟩ := document
  have ends : Delimits (Utf8.encode element.after ++ []) := Delimits.blank_append after trivial
  obtain ⟨frame, offset', reads, delivered⟩ :=
    (spells.readsText shape value means).behind_blank spells before 0 ends
  rw [← element.encode_padded, List.append_nil, List.append_nil] at reads
  exact ⟨frame, _, reads, delivered, spaces_of_blank after⟩

theorem parse_of_document {text : List Char} {json : Json} (document : Document text json)
    {shape : Shape} {value : Value} (means : json.readAs schema shape = some value) :
    parse schema shape (Utf8.encode text) = .ok value := by
  obtain ⟨frame, input, reads, delivered, spaces⟩ := reads_of_document document means
  rw [parse_eq_ok_iff_reads]
  exact ⟨_, frame, input, #[], reads, delivered, spaces, nofun⟩

end IncrementalJson
