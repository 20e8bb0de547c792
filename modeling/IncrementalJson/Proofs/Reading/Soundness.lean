import IncrementalJson.Proofs.Reading.Completeness

/-!
# Whatever is read is a text that means it

By induction on nested reading: the bytes that a frame takes spell a tree of the
grammar behind whitespace, and the tree means the value that the frame gives.
-/

set_option autoImplicit false

namespace IncrementalJson

open Ascii

variable {schema : Schema}

/-- Bytes up to a place spell, behind whitespace, a tree that means a value of a shape. -/
def SpellsValue (schema : Schema) (shape : Shape) (bytes : List UInt8) (value : Value)
    (behind : List UInt8) : Prop :=
  ∃ blank text json, Blank blank ∧ Spells text json ∧
    bytes = Utf8.encode blank ++ (Utf8.encode text ++ behind) ∧
      json.readAs schema shape = some value

theorem Blank.append {front back : List Char} (blank : Blank front) (blank' : Blank back) :
    Blank (front ++ back) := by
  intro char among
  rcases List.mem_append.mp among with among | among
  · exact blank char among
  · exact blank' char among

theorem SpellsValue.behind_blank {shape : Shape} {bytes behind : List UInt8} {value : Value}
    (spells : SpellsValue schema shape bytes value behind) {blank : List Char}
    (isBlank : Blank blank) :
    SpellsValue schema shape (Utf8.encode blank ++ bytes) value behind := by
  obtain ⟨blank', text, json, isBlank', spells, rfl, means⟩ := spells
  exact ⟨blank ++ blank', text, json, isBlank.append isBlank', spells,
    by simp [Utf8.encode_append], means⟩

theorem Spells.first_of_solid {blank text : List Char} {json : Json} {byte : UInt8}
    {rest behind : List UInt8} (isBlank : Blank blank) (spells : Spells text json)
    (solid : isSpace byte = false)
    (split : byte :: rest = Utf8.encode blank ++ (Utf8.encode text ++ behind)) :
    heldShapeOf? byte = some json.heldShape ∧ (byte = lowerN ↔ json = .null) := by
  cases blank with
  | nil =>
    obtain ⟨first, more, bytes, -, held, isNull⟩ := spells.first
    rw [bytes] at split
    cases split
    exact ⟨held, isNull⟩
  | cons char more =>
    obtain ⟨space, encoded, isSpace⟩ := encodeChar_blank isBlank.cons.1
    rw [Utf8.encode_cons, encoded] at split
    cases split
    rw [solid] at isSpace
    cases isSpace

/-! ## Layers -/

theorem Json.readAs_core (schema : Schema) (shape : Shape) (json : Json)
    (kept : shape.hasOption → json ≠ .null) :
    json.readAs schema shape = (json.readAs schema shape.core).map shape.wrap := by
  have same : json.innerShape shape.core = json.innerShape shape := by
    simp [innerShape]
  rw [readAs_inner schema shape json kept, readAs_inner schema shape.core json (by simp), same,
    Option.map_map]
  congr 1
  funext value
  simp [wrap]

theorem SpellsValue.variant {json : Json} {blank text : List Char} {value : Value}
    (isBlank : Blank blank) (spells : Spells text json)
    (means : json.readAs schema json.heldShape = some value) (behind : List UInt8) :
    SpellsValue schema .variant (Utf8.encode blank ++ (Utf8.encode text ++ behind)) (.held value)
      behind := by
  refine ⟨blank, text, json, isBlank, spells, rfl, ?_⟩
  rw [Json.readAs_inner schema .variant json nofun]
  simp [Json.innerShape, Shape.core, means, Json.wrap, Shape.wrap]

/-- How a frame that is asked for a value goes on. -/
theorem Frame.start_cases {shape : Shape} {input : Input} {advance : Advance Frame}
    (closed : input.closed = true)
    (resumed : (start schema shape).resume schema input #[] = .ok advance) :
    (∃ later, shape.hasOption ∧ later.closed = true ∧
      SpellsValue schema shape input.bytes .absent later.bytes ∧
      advance = ⟨vacant shape [], later, #[], .complete⟩) ∨
    ∃ blank here inner, Blank blank ∧ input.bytes = Utf8.encode blank ++ here.bytes ∧
      here.closed = true ∧ (FrameBody.start schema shape.core).resume schema here #[] = .ok inner ∧
      advance = inner.map (around shape) ∧
      ∀ behind value, SpellsValue schema shape.core here.bytes value behind →
        SpellsValue schema shape here.bytes (shape.wrap value) behind := by
  by_cases option : shape.hasOption
  · rw [resume_start_of_option option] at resumed
    obtain ⟨blank, byte, rest, offset, isBlank, solid, split, acted⟩ :=
      Input.blank_of_significant closed resumed
    -- the option keeps null to itself; any other byte is left to the body, which therefore never
    -- reads null where there is an option
    by_cases begins : byte = lowerN
    · rw [if_pos begins] at acted
      obtain ⟨later, closed', spelled, rfl⟩ := Input.spelled_of_matchLiteral
        (vacant shape) acted
      refine .inl ⟨later, option, closed', ?_, rfl⟩
      refine ⟨blank, _, _, isBlank, .null, ?_, Json.readAs_absent schema option⟩
      rw [split, spelled]
      rfl
    · rw [if_neg begins, resume_around] at acted
      obtain ⟨advance, inner, rfl⟩ := map_eq_ok_iff.mp acted
      refine .inr ⟨blank, ⟨byte :: rest, offset, true⟩, advance, isBlank, split, rfl, inner, rfl,
        fun behind value spells => ?_⟩
      obtain ⟨blank', text, json, isBlank', spells, split', means⟩ := spells
      have isNull := (spells.first_of_solid isBlank' solid split').2
      refine ⟨blank', text, json, isBlank', spells, split', ?_⟩
      rw [Json.readAs_core schema shape json fun _ null => begins (isNull.mpr null), means]
      rfl
  · have noOption : shape.hasOption = false := Bool.eq_false_iff.mpr option
    rw [start_of_solid noOption, resume_around] at resumed
    obtain ⟨advance, inner, rfl⟩ := map_eq_ok_iff.mp resumed
    refine .inr ⟨[], input, advance, .nil, rfl, closed, inner, rfl,
      fun behind value spells => ?_⟩
    obtain ⟨blank', text, json, isBlank', spells, split', means⟩ := spells
    refine ⟨blank', text, json, isBlank', spells, split', ?_⟩
    rw [Json.readAs_core schema shape json fun option' => absurd option' option, means]
    rfl

/-! ## Steps of arrays and objects -/

namespace FrameBody

theorem arrayElement_cases {item : Shape} {items : Array Value} {input : Input}
    {advance : Advance FrameBody} (closed : input.closed = true)
    (resumed : arrayElement schema item items input #[] = .ok advance) :
    ∃ blank later, Blank blank ∧ later.closed = true ∧
      ((items = #[] ∧ input.bytes = Utf8.encode blank ++ rightBracket :: later.bytes ∧
          advance = ⟨.array item .element items, later, #[], .complete⟩) ∨
        (input.bytes = Utf8.encode blank ++ later.bytes ∧
          advance = ⟨.array item .pending items, later, #[], .call (.start schema item)⟩)) := by
  obtain ⟨blank, byte, rest, offset, isBlank, -, split, acted⟩ :=
    Input.blank_of_significant closed resumed
  by_cases closing : byte = rightBracket ∧ items.isEmpty
  · rw [if_pos closing] at acted
    cases acted
    refine ⟨blank, _, isBlank, rfl, .inl ⟨by simpa using closing.2, ?_, rfl⟩⟩
    rw [split, closing.1]
    rfl
  · rw [if_neg closing] at acted
    cases acted
    exact ⟨blank, _, isBlank, rfl, .inr ⟨split, rfl⟩⟩

theorem resume_arrayOpening {item : Shape} {items : Array Value} {input : Input}
    {advance : Advance FrameBody} (closed : input.closed = true)
    (resumed : (array item .opening items).resume schema input #[] = .ok advance) :
    ∃ blank later, Blank blank ∧ later.closed = true ∧
      input.bytes = Utf8.encode blank ++ leftBracket :: later.bytes ∧
      arrayElement schema item items later #[] = .ok advance := by
  simp only [resume, resumeArray] at resumed
  obtain ⟨blank, byte, rest, offset, isBlank, -, split, acted⟩ :=
    Input.blank_of_significant closed resumed
  by_cases opening : byte = leftBracket
  · rw [if_pos opening] at acted
    refine ⟨blank, _, isBlank, rfl, ?_, acted⟩
    rw [split, opening]
    rfl
  · rw [if_neg opening] at acted
    cases acted

theorem resume_arrayComma {item : Shape} {items : Array Value} {input : Input}
    {advance : Advance FrameBody} (closed : input.closed = true)
    (resumed : (array item .comma items).resume schema input #[] = .ok advance) :
    ∃ blank later, Blank blank ∧ later.closed = true ∧
      ((input.bytes = Utf8.encode blank ++ Ascii.comma :: later.bytes ∧
          arrayElement schema item items later #[] = .ok advance) ∨
        (input.bytes = Utf8.encode blank ++ rightBracket :: later.bytes ∧
          advance = ⟨.array item .comma items, later, #[], .complete⟩)) := by
  simp only [resume, resumeArray] at resumed
  obtain ⟨blank, byte, rest, offset, isBlank, -, split, acted⟩ :=
    Input.blank_of_significant closed resumed
  by_cases goesOn : byte = Ascii.comma
  · rw [if_pos goesOn] at acted
    refine ⟨blank, _, isBlank, rfl, .inl ⟨?_, acted⟩⟩
    rw [split, goesOn]
    rfl
  · by_cases closing : byte = rightBracket
    · rw [if_neg goesOn, if_pos closing] at acted
      cases acted
      refine ⟨blank, _, isBlank, rfl, .inr ⟨?_, rfl⟩⟩
      rw [split, closing]
      rfl
    · rw [if_neg goesOn, if_neg closing] at acted
      cases acted

theorem objectName_cases {table : Table} {first : Bool} {read : MembersRead} {input : Input}
    {advance : Advance FrameBody} (closed : input.closed = true)
    (resumed : objectName schema table first none read.members read.presence read.extras input
      #[] = .ok advance) :
    ∃ blank later, Blank blank ∧ later.closed = true ∧
      ((first = true ∧ input.bytes = Utf8.encode blank ++ rightBrace :: later.bytes ∧
          advance = ⟨read.body table (.name first), later, #[], .complete⟩) ∨
        ∃ items blank' name slot, Blank blank' ∧ textOf? items = some name ∧
          table.memberSlot? name = some slot ∧
          input.bytes = Utf8.encode blank ++ (Utf8.encode (quotedText items) ++
            (Utf8.encode blank' ++ Ascii.colon :: later.bytes)) ∧
          advance = ⟨.object table .pending (some (slot.target read.extras)) read.members
            read.presence (slot.prepare schema read.extras), later, #[],
            .call (.start schema slot.shape)⟩) := by
  obtain ⟨blank, byte, rest, offset, isBlank, -, split, acted⟩ :=
    Input.blank_of_significant closed resumed
  by_cases quoted : byte = Ascii.quote
  · rw [if_pos quoted, objectInName] at acted
    cases scanned : StringLexer.scan {} #[] (Input.next ⟨byte :: rest, offset, true⟩) with
    | error error =>
      rw [scanned] at acted
      cases acted
    | ok scan =>
      cases scan with
      | pending lexer octets later => exact absurd scanned StringLexer.scanBytes_not_pending
      | closed octets tail behind =>
        simp only [scanned] at acted
        cases found : table.resolve schema read.extras octets.toList tail.toList with
        | error error =>
          rw [found] at acted
          cases acted
        | ok resolved =>
          rw [found] at acted
          obtain ⟨name, slot, spelled, isSlot, rfl⟩ :=
            (Table.resolve_eq_ok_iff _ _ _ _).mp found
          obtain ⟨closed', items, stands, bytes⟩ := StringLexer.items_of_scan scanned
            ((Utf8.decodeString_eq_ok_iff _ _).mpr spelled)
          obtain ⟨blank', byte', rest', offset', isBlank', -, split', acted⟩ :=
            Input.blank_of_significant closed' acted
          by_cases isColon : byte' = Ascii.colon
          · simp only [if_pos isColon, Table.memberShape?_target isSlot] at acted
            cases acted
            refine ⟨blank, _, isBlank, rfl,
              .inr ⟨items, blank', name, slot, isBlank', stands, isSlot, ?_, rfl⟩⟩
            rw [split, quoted]
            refine congrArg _ (bytes.trans ?_)
            rw [split', isColon]
            rfl
          · rw [if_neg isColon] at acted
            cases acted
  · by_cases closing : byte = rightBrace ∧ first
    · rw [if_neg quoted, if_pos closing] at acted
      cases acted
      refine ⟨blank, _, isBlank, rfl, .inl ⟨closing.2, ?_, rfl⟩⟩
      rw [split, closing.1]
      rfl
    · rw [if_neg quoted, if_neg closing] at acted
      cases acted

theorem resume_objectOpening {table : Table} {read : MembersRead} {input : Input}
    {advance : Advance FrameBody} (closed : input.closed = true)
    (resumed : (read.body table .opening).resume schema input #[] = .ok advance) :
    ∃ blank later, Blank blank ∧ later.closed = true ∧
      input.bytes = Utf8.encode blank ++ leftBrace :: later.bytes ∧
      objectName schema table true none read.members read.presence read.extras later #[] =
        .ok advance := by
  simp only [MembersRead.body, resume, resumeObject] at resumed
  obtain ⟨blank, byte, rest, offset, isBlank, -, split, acted⟩ :=
    Input.blank_of_significant closed resumed
  by_cases opening : byte = leftBrace
  · rw [if_pos opening] at acted
    refine ⟨blank, _, isBlank, rfl, ?_, acted⟩
    rw [split, opening]
    rfl
  · rw [if_neg opening] at acted
    cases acted

theorem resume_objectComma {table : Table} {read : MembersRead} {input : Input}
    {advance : Advance FrameBody} (closed : input.closed = true)
    (resumed : (read.body table .comma).resume schema input #[] = .ok advance) :
    ∃ blank later, Blank blank ∧ later.closed = true ∧
      ((input.bytes = Utf8.encode blank ++ Ascii.comma :: later.bytes ∧
          objectName schema table false none read.members read.presence read.extras later #[] =
            .ok advance) ∨
        (input.bytes = Utf8.encode blank ++ rightBrace :: later.bytes ∧
          advance = ⟨read.body table .comma, later, #[], .complete⟩)) := by
  simp only [MembersRead.body, resume, resumeObject] at resumed
  obtain ⟨blank, byte, rest, offset, isBlank, -, split, acted⟩ :=
    Input.blank_of_significant closed resumed
  by_cases goesOn : byte = Ascii.comma
  · rw [if_pos goesOn] at acted
    refine ⟨blank, _, isBlank, rfl, .inl ⟨?_, acted⟩⟩
    rw [split, goesOn]
    rfl
  · by_cases closing : byte = rightBrace
    · rw [if_neg goesOn, if_pos closing] at acted
      cases acted
      refine ⟨blank, _, isBlank, rfl, .inr ⟨?_, rfl⟩⟩
      rw [split, closing]
      rfl
    · rw [if_neg goesOn, if_neg closing] at acted
      cases acted

end FrameBody

/-! ## Bodies that begin -/

theorem Shape.core_ne_option (shape item : Shape) : shape.core ≠ .option item := by
  intro isOption
  have noOption := shape.hasOption_core
  rw [isOption] at noOption
  cases noOption

theorem Shape.core_ne_box (shape item : Shape) : shape.core ≠ .box item := by
  induction shape with
  | option inner ih | box inner ih => exact ih
  | _ => nofun

theorem heldShape_initial_of_byte {byte : UInt8} {shape : Shape}
    (held : heldShapeOf? byte = some shape) : (schema.initial shape).heldShape = shape := by
  rw [heldShapeOf?] at held
  repeat' split at held
  all_goals cases held
  all_goals rfl

theorem FrameBody.Token.spellsValue {core : Shape} {input : Input} {advance : Advance FrameBody}
    (token : Token schema core input advance) {value : Value}
    (result : advance.body.result = .ok value) :
    SpellsValue schema core input.bytes value advance.input.bytes := by
  obtain ⟨blank, text, json, isBlank, spells, split, means⟩ := token.spelled value result
  refine ⟨blank, text, json, isBlank, spells, ?_, means⟩
  rw [split, List.append_assoc]

/-- What a body does with the first bytes of its value. -/
inductive Begins (schema : Schema) : Shape → List UInt8 → Advance FrameBody → Prop where
  | token {core : Shape} {input : Input} {advance : Advance FrameBody}
      (token : FrameBody.Token schema core input advance) :
      Begins schema core input.bytes advance
  | emptyArray {item : Shape} {blank blank' : List Char} {later : Input} (isBlank : Blank blank)
      (isBlank' : Blank blank') (closed : later.closed = true) :
      Begins schema (.list item)
        (Utf8.encode blank ++ leftBracket :: (Utf8.encode blank' ++ rightBracket :: later.bytes))
        ⟨.array item .element #[], later, #[], .complete⟩
  | array {item : Shape} {blank blank' : List Char} {later : Input} (isBlank : Blank blank)
      (isBlank' : Blank blank') (closed : later.closed = true) :
      Begins schema (.list item)
        (Utf8.encode blank ++ leftBracket :: (Utf8.encode blank' ++ later.bytes))
        ⟨.array item .pending #[], later, #[], .call (.start schema item)⟩
  | emptyObject {core : Shape} {table : Table} {blank blank' : List Char} {later : Input}
      (isObject : schema.table? core = some table) (isBlank : Blank blank)
      (isBlank' : Blank blank') (closed : later.closed = true) :
      Begins schema core
        (Utf8.encode blank ++ leftBrace :: (Utf8.encode blank' ++ rightBrace :: later.bytes))
        ⟨(MembersRead.start schema table).body table (.name true), later, #[], .complete⟩
  | object {core : Shape} {table : Table} {blank before after : List Char}
      {items : List StringItem} {name : String} {slot : MemberSlot} {later : Input}
      (isObject : schema.table? core = some table) (isBlank : Blank blank)
      (isBefore : Blank before) (isAfter : Blank after) (closed : later.closed = true)
      (named : textOf? items = some name) (found : table.memberSlot? name = some slot) :
      Begins schema core
        (Utf8.encode blank ++ leftBrace :: (Utf8.encode before ++
          (Utf8.encode (quotedText items) ++ (Utf8.encode after ++ Ascii.colon :: later.bytes))))
        ⟨.object table .pending (some (slot.target (MembersRead.start schema table).extras))
          (MembersRead.start schema table).members
          (MembersRead.start schema table).presence
          (slot.prepare schema (MembersRead.start schema table).extras), later, #[],
          .call (.start schema slot.shape)⟩
  | variant {blank : List Char} {byte : UInt8} {rest : List UInt8} {offset : Nat} {shape : Shape}
      (isBlank : Blank blank) (solid : isSpace byte = false)
      (held : heldShapeOf? byte = some shape) :
      Begins schema .variant (Utf8.encode blank ++ byte :: rest)
        ⟨.variant (some (schema.initial shape)), ⟨byte :: rest, offset, true⟩, #[],
          .call (.start schema shape)⟩

theorem begins_object {core : Shape} {table : Table} {input : Input}
    {advance : Advance FrameBody} (isObject : schema.table? core = some table)
    (closed : input.closed = true)
    (resumed : (FrameBody.start schema core).resume schema input #[] = .ok advance) :
    Begins schema core input.bytes advance := by
  rw [FrameBody.start_table isObject] at resumed
  obtain ⟨blank, inside, isBlank, closed', split, resumed⟩ :=
    FrameBody.resume_objectOpening closed resumed
  obtain ⟨blank', later, isBlank', closed'', ⟨-, split', rfl⟩ |
    ⟨items, after, name, slot, isAfter, named, found, split', rfl⟩⟩ :=
      FrameBody.objectName_cases closed' resumed
  · rw [split, split']
    exact .emptyObject isObject isBlank isBlank' closed''
  · rw [split, split']
    exact .object isObject isBlank isBlank' isAfter closed'' named found

theorem begins_of_resume {shape : Shape} {input : Input} {advance : Advance FrameBody}
    (closed : input.closed = true)
    (resumed : (FrameBody.start schema shape.core).resume schema input #[] = .ok advance) :
    Begins schema shape.core input.bytes advance := by
  cases isCore : shape.core with
  | null =>
    rw [isCore] at resumed
    exact .token (FrameBody.token_null closed resumed)
  | bool =>
    rw [isCore] at resumed
    exact .token (FrameBody.token_bool closed resumed)
  | string =>
    rw [isCore] at resumed
    exact .token (FrameBody.token_string closed resumed)
  | number type =>
    rw [isCore] at resumed
    exact .token (FrameBody.token_number closed resumed)
  | variant =>
    rw [isCore] at resumed
    simp only [FrameBody.start, FrameBody.resume] at resumed
    obtain ⟨blank, byte, rest, offset, isBlank, solid, split, acted⟩ :=
      Input.blank_of_significant closed resumed
    cases held : heldShapeOf? byte with
    | none =>
      rw [held] at acted
      cases acted
    | some shape =>
      rw [held] at acted
      cases acted
      rw [split]
      exact .variant isBlank solid held
  | list item =>
    rw [isCore] at resumed
    obtain ⟨blank, inside, isBlank, closed', split, resumed⟩ :=
      FrameBody.resume_arrayOpening closed resumed
    obtain ⟨blank', later, isBlank', closed'', ⟨-, split', rfl⟩ | ⟨split', rfl⟩⟩ :=
      FrameBody.arrayElement_cases closed' resumed
    · rw [split, split']
      exact .emptyArray isBlank isBlank' closed''
    · rw [split, split']
      exact .array isBlank isBlank' closed''
  | option item => exact absurd isCore (shape.core_ne_option item)
  | box item => exact absurd isCore (shape.core_ne_box item)
  | extras item =>
    rw [isCore] at resumed
    exact begins_object rfl closed resumed
  | record position =>
    rw [isCore] at resumed
    exact begins_object rfl closed resumed

/-! ## Elements and members -/

/-- Elements as they are spelled, and the values that they mean. -/
structure ElementsMean (schema : Schema) (item : Shape) (elements : List Element)
    (values : List Value) : Prop where
  blank : ∀ element ∈ elements, Blank element.before ∧ Blank element.after
  spelled : ∀ element ∈ elements, Spells element.text element.json
  means : Json.readItems schema item (elements.map Element.json) = some values

theorem ElementsMean.nil (schema : Schema) (item : Shape) : ElementsMean schema item [] [] :=
  ⟨nofun, nofun, rfl⟩

theorem ElementsMean.cons {item : Shape} {element : Element} {elements : List Element}
    {value : Value} {values : List Value} (blank : Blank element.before ∧ Blank element.after)
    (spells : Spells element.text element.json)
    (means : element.json.readAs schema item = some value)
    (mean : ElementsMean schema item elements values) :
    ElementsMean schema item (element :: elements) (value :: values) where
  blank other among := by
    rcases List.mem_cons.mp among with rfl | among
    · exact blank
    · exact mean.blank other among
  spelled other among := by
    rcases List.mem_cons.mp among with rfl | among
    · exact spells
    · exact mean.spelled other among
  means := by
    rw [List.map_cons, Json.readItems, means]
    simp only [mean.means, Option.map_some]

/-- What the body of an array reads behind an element. -/
def ElementsFollow (schema : Schema) (item : Shape) (items : Array Value) (bytes : List UInt8)
    (body : FrameBody) (behind : List UInt8) : Prop :=
  ∃ after elements values, Blank after ∧ ElementsMean schema item elements values ∧
    bytes = Utf8.encode after ++
      (Utf8.encode (commaLed (elements.map Element.padded)) ++ rightBracket :: behind) ∧
    body = .array item .comma (items ++ values.toArray)

theorem ElementsFollow.first {item : Shape} {items : Array Value} {bytes between : List UInt8}
    {value : Value} {body : FrameBody} {behind : List UInt8}
    (spells : SpellsValue schema item bytes value between)
    (follow : ElementsFollow schema item (items.push value) between body behind) :
    ∃ element elements values, ElementsMean schema item (element :: elements) values ∧
      bytes = Utf8.encode element.padded ++
        (Utf8.encode (commaLed (elements.map Element.padded)) ++ rightBracket :: behind) ∧
      body = .array item .comma (items ++ values.toArray) := by
  obtain ⟨before, text, json, isBefore, spells, rfl, means⟩ := spells
  obtain ⟨after, elements, values, isAfter, mean, rfl, rfl⟩ := follow
  refine ⟨⟨before, text, json, after⟩, elements, value :: values,
    .cons ⟨isBefore, isAfter⟩ spells means mean, ?_, by simp⟩
  rw [Element.encode_padded]

/-- Members as they are spelled, and what they add to those that were read before. -/
structure MembersMean (schema : Schema) (table : Table) (members : List Member)
    (read read' : MembersRead) : Prop where
  spelled : ∀ member ∈ members, member.Spelled
  means : Json.readMembers schema table
    (members.map fun member => (member.name, member.value.json)) read = some read'

theorem MembersMean.nil (schema : Schema) (table : Table) (read : MembersRead) :
    MembersMean schema table [] read read :=
  ⟨nofun, rfl⟩

theorem MembersMean.cons {table : Table} {member : Member} {members : List Member}
    {read read' : MembersRead} {name : String} {slot : MemberSlot} {value : Value}
    (spelled : member.Spelled) (named : textOf? member.name = some name)
    (found : table.memberSlot? name = some slot)
    (means : member.value.json.readAs schema slot.shape = some value)
    (mean : MembersMean schema table members (read.take value slot) read') :
    MembersMean schema table (member :: members) read read' where
  spelled other among := by
    rcases List.mem_cons.mp among with rfl | among
    · exact spelled
    · exact mean.spelled other among
  means := by
    rw [List.map_cons, Json.readMembers, named, Option.bind_some, found]
    simp only [means, mean.means]

/-- What the body of an object reads behind a member. -/
def MembersFollow (schema : Schema) (table : Table) (read : MembersRead) (bytes : List UInt8)
    (body : FrameBody) (behind : List UInt8) : Prop :=
  ∃ after members read', Blank after ∧ MembersMean schema table members read read' ∧
    bytes = Utf8.encode after ++
      (Utf8.encode (commaLed (members.map Member.padded)) ++ rightBrace :: behind) ∧
    body = read'.body table .comma

theorem MembersFollow.first {table : Table} {read : MembersRead} {beforeName afterName : List Char}
    {items : List StringItem} {name : String} {slot : MemberSlot} {bytes between : List UInt8}
    {value : Value} {body : FrameBody} {behind : List UInt8} (isBefore : Blank beforeName)
    (isAfter : Blank afterName) (named : textOf? items = some name)
    (found : table.memberSlot? name = some slot)
    (spells : SpellsValue schema slot.shape bytes value between)
    (follow : MembersFollow schema table (read.take value slot) between body behind) :
    ∃ member members read', MembersMean schema table (member :: members) read read' ∧
      Utf8.encode beforeName ++ (Utf8.encode (quotedText items) ++
        (Utf8.encode afterName ++ Ascii.colon :: bytes)) =
          Utf8.encode member.padded ++
            (Utf8.encode (commaLed (members.map Member.padded)) ++ rightBrace :: behind) ∧
      body = read'.body table .comma := by
  obtain ⟨before, text, json, isBlank, spells, rfl, means⟩ := spells
  obtain ⟨after, members, read', isBlank', mean, rfl, rfl⟩ := follow
  refine ⟨⟨beforeName, items, afterName, ⟨before, text, json, after⟩⟩, members, read',
    .cons ⟨isBefore, isAfter, isBlank, isBlank', spells⟩ named found means mean, ?_, rfl⟩
  rw [Member.encode_padded, Element.encode_padded]

/-! ## Values of children -/

theorem Frame.accept_array {shape item : Shape} {phase : ArrayPhase} {items : Array Value}
    {child parent : Frame}
    (accepted : (around shape (.array item phase items)).accept child = .ok parent) :
    ∃ value, child.deliver item = .ok value ∧
      parent = .around shape (.array item .comma (items.push value)) := by
  rw [accept_around] at accepted
  obtain ⟨body, taken, rfl⟩ := map_eq_ok_iff.mp accepted
  obtain ⟨value, delivered, rfl⟩ := map_eq_ok_iff.mp taken
  exact ⟨value, delivered, rfl⟩

theorem Frame.accept_object {shape : Shape} {table : Table} {name : String} {slot : MemberSlot}
    {read : MembersRead} {phase : ObjectPhase} {child parent : Frame}
    (found : table.memberSlot? name = some slot)
    (accepted : (around shape (.object table phase (some (slot.target read.extras)) read.members
      read.presence (slot.prepare schema read.extras))).accept child = .ok parent) :
    ∃ value, child.deliver slot.shape = .ok value ∧
      parent = .around shape ((read.take value slot).body table .comma) := by
  rw [accept_around, FrameBody.accept_member found] at accepted
  obtain ⟨body, taken, rfl⟩ := map_eq_ok_iff.mp accepted
  obtain ⟨value, delivered, rfl⟩ := map_eq_ok_iff.mp taken
  exact ⟨value, delivered, rfl⟩

theorem Frame.accept_variant {shape : Shape} {held : Value} {child parent : Frame}
    (accepted : (around shape (.variant (some held))).accept child = .ok parent) :
    ∃ value, child.deliver held.heldShape = .ok value ∧
      parent = .around shape (.variant (some value)) := by
  rw [accept_around] at accepted
  obtain ⟨body, taken, rfl⟩ := map_eq_ok_iff.mp accepted
  obtain ⟨value, delivered, rfl⟩ := map_eq_ok_iff.mp taken
  exact ⟨value, delivered, rfl⟩

theorem Frame.resume_around_eq_ok {shape : Shape} {body : FrameBody} {input : Input}
    {scratch : Scratch} {advance : Advance Frame}
    (resumed : (around shape body).resume schema input scratch = .ok advance) :
    ∃ inner, body.resume schema input scratch = .ok inner ∧ advance = inner.map (around shape) := by
  rw [resume_around] at resumed
  obtain ⟨inner, resumed', rfl⟩ := map_eq_ok_iff.mp resumed
  exact ⟨inner, resumed', rfl⟩

theorem Frame.deliver_eq_ok {shape : Shape} {body : FrameBody} {value : Value}
    (delivered : (around shape body).deliver shape = .ok value) :
    ∃ inner, body.result = .ok inner ∧ value = shape.wrap inner := by
  rw [deliver_around_self] at delivered
  obtain ⟨inner, result, rfl⟩ := map_eq_ok_iff.mp delivered
  exact ⟨inner, result, rfl⟩

/-! ## Nested reading -/

inductive Station where
  /-- In front of its value. -/
  | start (shape : Shape)
  /-- Behind an element of an array. -/
  | array (shape item : Shape) (items : Array Value) (newest : Value)
  /-- Behind a member of an object. -/
  | object (shape : Shape) (table : Table) (read : MembersRead)
  /-- Behind the value of a variant. -/
  | variant (shape : Shape) (held : Value)

namespace Station

def frame (schema : Schema) : Station → Frame
  | start shape => .start schema shape
  | array shape item items newest => .around shape (.array item .comma (items.push newest))
  | object shape table read => .around shape (read.body table .comma)
  | variant shape held => .around shape (.variant (some held))

/-- What the bytes mean that bring the frame from its station to its end. -/
def Means (schema : Schema) (bytes : List UInt8) (last : Frame) (behind : List UInt8) :
    Station → Prop
  | start shape => ∀ value, last.deliver shape = .ok value →
    SpellsValue schema shape bytes value behind
  | array shape item items newest => ∃ body, last = .around shape body ∧
    ElementsFollow schema item (items.push newest) bytes body behind
  | object shape table read => ∃ body, last = .around shape body ∧
    MembersFollow schema table read bytes body behind
  | variant shape held => last = .around shape (.variant (some held)) ∧ bytes = behind

end Station

theorem Json.readAs_items {item : Shape} {items : List Json} {values : List Value}
    (means : readItems schema item items = some values) :
    (array items).readAs schema (.list item) = some (.list values) := by
  simp [readAs, innerShape, Shape.core, Shape.item?, means, wrap, Shape.wrap]

theorem Json.readAs_members {core : Shape} {table : Table}
    {members : List (List StringItem × Json)} {read : MembersRead}
    (isObject : schema.table? core = some table)
    (means : readMembers schema table members (.start schema table) = some read) :
    (object members).readAs schema core =
      some (.object read.members read.presence read.extras) := by
  cases core with
  | extras item =>
    simp [readAs, innerShape, Shape.core, isObject, means, wrap, Shape.wrap]
  | record position =>
    simp [readAs, innerShape, Shape.core, isObject, means, wrap, Shape.wrap]
  | _ => cases isObject

theorem encode_array (blank : List Char) (element : Element) (elements : List Element)
    (behind : List UInt8) :
    Utf8.encode blank ++ leftBracket :: (Utf8.encode element.padded ++
        (Utf8.encode (commaLed (elements.map Element.padded)) ++ rightBracket :: behind)) =
      Utf8.encode blank ++ (Utf8.encode ('[' :: commaSeparated
        ((element :: elements).map Element.padded) ++ [']']) ++ behind) := by
  rw [encode_bracketed, List.map_cons, commaSeparated_cons, Utf8.encode_append]
  simp only [List.append_assoc]
  rfl

theorem encode_object (blank : List Char) (member : Member) (members : List Member)
    (behind : List UInt8) :
    Utf8.encode blank ++ leftBrace :: (Utf8.encode member.padded ++
        (Utf8.encode (commaLed (members.map Member.padded)) ++ rightBrace :: behind)) =
      Utf8.encode blank ++ (Utf8.encode ('{' :: commaSeparated
        ((member :: members).map Member.padded) ++ ['}']) ++ behind) := by
  rw [encode_bracketed, List.map_cons, commaSeparated_cons, Utf8.encode_append]
  simp only [List.append_assoc]
  rfl

theorem Begins.complete {core : Shape} {bytes : List UInt8} {body : FrameBody} {later : Input}
    {scratch : Scratch} (begins : Begins schema core bytes ⟨body, later, scratch, .complete⟩) :
    later.closed = true ∧ scratch = #[] ∧ ∀ value, body.result = .ok value →
      SpellsValue schema core bytes value later.bytes := by
  cases begins with
  | token token =>
    exact ⟨token.closed, token.empty, fun value result => token.spellsValue result⟩
  | emptyArray isBlank isBlank' closed =>
    refine ⟨closed, rfl, fun value result => ?_⟩
    cases result
    refine ⟨_, _, _, isBlank, .emptyArray isBlank', ?_, Json.readAs_items rfl⟩
    rw [encode_bracketed]
    simp only [List.append_assoc]
    rfl
  | emptyObject isObject isBlank isBlank' closed =>
    refine ⟨closed, rfl, fun value result => ?_⟩
    cases result
    refine ⟨_, _, _, isBlank, .emptyObject isBlank', ?_, Json.readAs_members isObject rfl⟩
    rw [encode_bracketed]
    simp only [List.append_assoc]
    rfl

theorem Begins.call {core : Shape} {bytes : List UInt8} {body : FrameBody} {before : Input}
    {scratch : Scratch} {child : Frame}
    (begins : Begins schema core bytes ⟨body, before, scratch, .call child⟩) :
    before.closed = true ∧ scratch = #[] ∧ ∃ asked, child = .start schema asked ∧
      ∀ shape child' parent behind,
        (Frame.around shape body).accept child' = .ok parent →
        (Station.start asked).Means schema before.bytes child' behind →
        ∃ station, parent = Station.frame schema station ∧ ∀ last end',
          station.Means schema behind last end' →
          ∃ body', last = .around shape body' ∧ ∀ value, body'.result = .ok value →
            SpellsValue schema core bytes value end' := by
  cases begins with
  | token token => cases token.completes
  | array isBlank isBlank' closed =>
    refine ⟨closed, rfl, _, rfl, fun shape child' parent behind accepted means => ?_⟩
    obtain ⟨value, delivered, rfl⟩ := Frame.accept_array accepted
    refine ⟨.array shape _ _ _, rfl, fun last end' follow => ?_⟩
    obtain ⟨body', rfl, follow⟩ := follow
    obtain ⟨element, elements, values, mean, split, rfl⟩ :=
      follow.first ((means value delivered).behind_blank isBlank')
    refine ⟨_, rfl, fun value result => ?_⟩
    simp only [FrameBody.result, Array.empty_append, Except.ok.injEq] at result
    subst result
    refine ⟨_, _, _, isBlank, .array (List.cons_ne_nil _ _) mean.blank mean.spelled, ?_,
      Json.readAs_items mean.means⟩
    rw [split, encode_array]
  | object isObject isBlank isBefore isAfter closed named found =>
    refine ⟨closed, rfl, _, rfl, fun shape child' parent behind accepted means => ?_⟩
    obtain ⟨value, delivered, rfl⟩ := Frame.accept_object found accepted
    refine ⟨.object shape _ _, rfl, fun last end' follow => ?_⟩
    obtain ⟨body', rfl, follow⟩ := follow
    obtain ⟨member, members, read', mean, split, rfl⟩ :=
      follow.first isBefore isAfter named found (means value delivered)
    refine ⟨_, rfl, fun value result => ?_⟩
    cases result
    refine ⟨_, _, _, isBlank, .object (List.cons_ne_nil _ _)
      (fun other among => ?_) (fun other among => (mean.spelled other among).spells), ?_,
      Json.readAs_members isObject mean.means⟩
    · have spelled := mean.spelled other among
      exact ⟨spelled.beforeName, spelled.afterName, spelled.before, spelled.after⟩
    · rw [split, encode_object]
  | variant isBlank solid held =>
    refine ⟨rfl, rfl, _, rfl, fun shape child' parent behind accepted means => ?_⟩
    obtain ⟨value, delivered, rfl⟩ := Frame.accept_variant accepted
    rw [heldShape_initial_of_byte held] at delivered
    refine ⟨.variant shape value, rfl, fun last end' ends => ?_⟩
    obtain ⟨rfl, rfl⟩ := ends
    refine ⟨_, rfl, fun value' result => ?_⟩
    cases result
    obtain ⟨blank', text, json, isBlank', spells, split, understood⟩ := means value delivered
    obtain ⟨held', -⟩ := spells.first_of_solid isBlank' solid split
    cases held.symm.trans held'
    have inner := SpellsValue.variant isBlank' spells understood behind
    rw [← split] at inner
    exact inner.behind_blank isBlank

namespace Station

theorem means_start {shape : Shape} {blank : List Char} {bytes behind : List UInt8}
    {body : FrameBody} (isBlank : Blank blank)
    (lifts : ∀ behind value, SpellsValue schema shape.core bytes value behind →
      SpellsValue schema shape bytes (shape.wrap value) behind)
    (means : ∀ value, body.result = .ok value →
      SpellsValue schema shape.core bytes value behind) :
    (start shape).Means schema (Utf8.encode blank ++ bytes) (.around shape body) behind := by
  intro value delivered
  obtain ⟨inner, result, rfl⟩ := Frame.deliver_eq_ok delivered
  exact (lifts behind inner (means inner result)).behind_blank isBlank

theorem complete {station : Station} {input input' : Input} {frame' : Frame} {scratch' : Scratch}
    (closed : input.closed = true)
    (resumed : (station.frame schema).resume schema input #[] =
      .ok ⟨frame', input', scratch', .complete⟩) :
    input'.closed = true ∧ scratch' = #[] ∧
      station.Means schema input.bytes frame' input'.bytes := by
  cases station with
  | start shape =>
    obtain ⟨later, option, closed', spells, ends⟩ |
      ⟨blank, here, inner, isBlank, split, closed', resumed', ends, lifts⟩ :=
        Frame.start_cases closed resumed
    · cases ends
      refine ⟨closed', rfl, fun value delivered => ?_⟩
      rw [Frame.deliver_vacant option, Frame.deliverInto, if_pos rfl] at delivered
      cases delivered
      exact spells
    · obtain ⟨body, later, scratch, step⟩ := inner
      cases ends
      obtain ⟨closed'', empty, means⟩ := (begins_of_resume closed' resumed').complete
      rw [split]
      exact ⟨closed'', empty, means_start isBlank lifts means⟩
  | array shape item items newest =>
    obtain ⟨⟨body, later, scratch, step⟩, resumed', ends⟩ := Frame.resume_around_eq_ok resumed
    cases ends
    obtain ⟨blank, after, isBlank, closed', ⟨split, resumed'⟩ | ⟨split, ends⟩⟩ :=
      FrameBody.resume_arrayComma closed resumed'
    · obtain ⟨_, _, _, _, ⟨empty, -⟩ | ⟨-, ends⟩⟩ := FrameBody.arrayElement_cases closed' resumed'
      · exact absurd empty (by simp)
      · cases ends
    · cases ends
      exact ⟨closed', rfl, _, rfl, blank, [], [], isBlank, .nil schema item, split, by simp⟩
  | object shape table read =>
    obtain ⟨⟨body, later, scratch, step⟩, resumed', ends⟩ := Frame.resume_around_eq_ok resumed
    cases ends
    obtain ⟨blank, after, isBlank, closed', ⟨split, resumed'⟩ | ⟨split, ends⟩⟩ :=
      FrameBody.resume_objectComma closed resumed'
    · obtain ⟨_, _, _, _, ⟨first, -⟩ | ⟨_, _, _, _, _, _, _, _, ends⟩⟩ :=
        FrameBody.objectName_cases closed' resumed'
      · cases first
      · cases ends
    · cases ends
      exact ⟨closed', rfl, _, rfl, blank, [], read, isBlank, .nil schema table read, split, rfl⟩
  | variant shape held =>
    obtain ⟨inner, resumed', ends⟩ := Frame.resume_around_eq_ok resumed
    cases resumed'
    cases ends
    exact ⟨closed, rfl, rfl, rfl⟩

/-- A frame that calls from a station goes on from another one with the value it called for. -/
theorem call {station : Station} {input before : Input} {parent : Frame} {scratch : Scratch}
    {child : Frame} (closed : input.closed = true)
    (resumed : (station.frame schema).resume schema input #[] =
      .ok ⟨parent, before, scratch, .call child⟩) :
    before.closed = true ∧ scratch = #[] ∧ ∃ asked, child = .start schema asked ∧
      ∀ child' parent' behind, parent.accept child' = .ok parent' →
        (start asked).Means schema before.bytes child' behind →
        ∃ next : Station, parent' = next.frame schema ∧ ∀ last end',
          next.Means schema behind last end' → station.Means schema input.bytes last end' := by
  cases station with
  | start shape =>
    obtain ⟨_, _, _, _, ends⟩ |
      ⟨blank, here, inner, isBlank, split, closed', resumed', ends, lifts⟩ :=
        Frame.start_cases closed resumed
    · cases ends
    · obtain ⟨body, later, scratch, step⟩ := inner
      cases ends
      obtain ⟨closed'', empty, asked, isStart, goesOn⟩ := (begins_of_resume closed' resumed').call
      refine ⟨closed'', empty, asked, isStart, fun child' parent' behind accepted means => ?_⟩
      obtain ⟨next, isNext, later⟩ := goesOn shape child' parent' behind accepted means
      refine ⟨next, isNext, fun last end' means => ?_⟩
      obtain ⟨body', rfl, understood⟩ := later last end' means
      rw [split]
      exact means_start isBlank lifts understood
  | array shape item items newest =>
    obtain ⟨⟨body, later, scratch, step⟩, resumed', ends⟩ := Frame.resume_around_eq_ok resumed
    cases ends
    obtain ⟨blank, after, isBlank, closed', ⟨split, resumed'⟩ | ⟨-, ends⟩⟩ :=
      FrameBody.resume_arrayComma closed resumed'
    · obtain ⟨blank', later, isBlank', closed'', ⟨-, -, ends⟩ | ⟨split', ends⟩⟩ :=
        FrameBody.arrayElement_cases closed' resumed'
      · cases ends
      · cases ends
        refine ⟨closed'', rfl, item, rfl, fun child' parent' behind accepted means => ?_⟩
        obtain ⟨value, delivered, rfl⟩ := Frame.accept_array accepted
        refine ⟨.array shape item (items.push newest) value, rfl, fun last end' follow => ?_⟩
        obtain ⟨body', rfl, follow⟩ := follow
        obtain ⟨element, elements, values, mean, bytes, rfl⟩ :=
          follow.first ((means value delivered).behind_blank isBlank')
        refine ⟨_, rfl, blank, element :: elements, values, isBlank, mean, ?_, rfl⟩
        rw [split, split', bytes, List.map_cons, encode_commaLed_cons]
    · cases ends
  | object shape table read =>
    obtain ⟨⟨body, later, scratch, step⟩, resumed', ends⟩ := Frame.resume_around_eq_ok resumed
    cases ends
    obtain ⟨blank, after, isBlank, closed', ⟨split, resumed'⟩ | ⟨-, ends⟩⟩ :=
      FrameBody.resume_objectComma closed resumed'
    · obtain ⟨blank', later, isBlank', closed'', ⟨first, -⟩ |
        ⟨items, afterName, name, slot, isAfter, named, found, split', ends⟩⟩ :=
          FrameBody.objectName_cases closed' resumed'
      · cases first
      · cases ends
        refine ⟨closed'', rfl, _, rfl, fun child' parent' behind accepted means => ?_⟩
        obtain ⟨value, delivered, rfl⟩ := Frame.accept_object found accepted
        refine ⟨.object shape table (read.take value slot), rfl, fun last end' follow => ?_⟩
        obtain ⟨body', rfl, follow⟩ := follow
        obtain ⟨member, members, read', mean, bytes, rfl⟩ :=
          follow.first isBlank' isAfter named found (means value delivered)
        refine ⟨_, rfl, blank, member :: members, read', isBlank, mean, ?_, rfl⟩
        rw [split, split', bytes, List.map_cons, encode_commaLed_cons]
    · cases ends
  | variant shape held =>
    obtain ⟨inner, resumed', ends⟩ := Frame.resume_around_eq_ok resumed
    cases resumed'
    cases ends

end Station

/-- What a frame reads from a station on means what it gives. -/
theorem Reads.means {height : Nat} {frame frame' : Frame} {input input' : Input}
    {scratch scratch' : Scratch}
    (reads : Reads schema height frame input scratch frame' input' scratch') :
    ∀ station : Station, frame = station.frame schema → input.closed = true → scratch = #[] →
      input'.closed = true ∧ scratch' = #[] ∧
        station.Means schema input.bytes frame' input'.bytes := by
  induction reads with
  | complete resumed =>
    rintro station rfl closed rfl
    exact station.complete closed resumed
  | call resumed inner accepted goesOn ihInner ihRest =>
    rintro station rfl closed rfl
    obtain ⟨closed₁, rfl, asked, rfl, next⟩ := station.call closed resumed
    obtain ⟨closed₂, rfl, means⟩ := ihInner (.start asked) rfl closed₁ rfl
    obtain ⟨later, rfl, understood⟩ := next _ _ _ accepted means
    obtain ⟨closed₃, empty, means⟩ := ihRest later rfl closed₂ rfl
    exact ⟨closed₃, empty, understood _ _ means⟩

/-- A document is read if and only if it is the UTF-8 form of a JSON text whose tree has a
meaning for the shape, and that is the value. -/
theorem parse_eq_ok_iff (schema : Schema) (shape : Shape) (document : List UInt8)
    (value : Value) :
    parse schema shape document = .ok value ↔
      ∃ text json, document = Utf8.encode text ∧ Document text json ∧
        json.readAs schema shape = some value := by
  constructor
  · intro parsed
    obtain ⟨_, frame, input, scratch, reads, delivered, spaces, -⟩ :=
      (parse_eq_ok_iff_reads schema shape document none value).mp parsed
    obtain ⟨-, -, means⟩ := reads.means (.start shape) rfl rfl rfl
    obtain ⟨before, text, json, isBefore, spells, split, understood⟩ := means value delivered
    obtain ⟨after, isAfter, behind⟩ := blank_of_spaces spaces
    refine ⟨_, json, ?_, ⟨⟨before, text, json, after⟩, isBefore, isAfter, spells, rfl, rfl⟩,
      understood⟩
    have split' : document = Utf8.encode before ++ (Utf8.encode text ++ input.bytes) := split
    rw [split', behind]
    simp only [Element.padded, Utf8.encode_append, List.append_assoc]
  · rintro ⟨text, json, rfl, document, means⟩
    exact parse_of_document document means

end IncrementalJson
