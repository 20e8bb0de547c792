import IncrementalJson.Proofs.Reading.Nesting
import IncrementalJson.Proofs.Reading.Tables
import IncrementalJson.Proofs.Reading.Tokens

/-!
# Options, boxes and variants

What stands around the body that does the reading: an option answers null itself,
a variant has the body of the shape that the first byte calls for read its value,
and boxes add nothing.  The meaning of a syntax tree has the same layers.
-/

set_option autoImplicit false

namespace IncrementalJson

open Ascii

/-! ## Layers of shapes and of meaning -/

namespace Shape

@[simp] theorem core_core (shape : Shape) : shape.core.core = shape.core := by
  induction shape with
  | option item ih | box item ih => exact ih
  | _ => rfl

@[simp] theorem hasOption_core (shape : Shape) : shape.core.hasOption = false := by
  induction shape with
  | option item ih | box item ih => exact ih
  | _ => rfl

@[simp] theorem wrap_core (shape : Shape) (value : Value) : shape.core.wrap value = value := by
  induction shape with
  | option item ih | box item ih => exact ih
  | _ => rfl

theorem eq_list_of_item? {shape item : Shape} (isList : shape.item? = some item) :
    shape = .list item := by
  cases shape <;> cases isList
  rfl

theorem unbox_of_hasOption {shape : Shape} (option : shape.hasOption) :
    ∃ item, shape.unbox = .option item := by
  induction shape with
  | option item => exact ⟨item, rfl⟩
  | box item ih => exact ih option
  | _ => cases option

end Shape

theorem Schema.unbox_of_table? {schema : Schema} {shape : Shape} {table : Table}
    (declared : schema.table? shape = some table) : shape.unbox = shape := by
  cases shape with
  | extras item => rfl
  | record position => rfl
  | _ => cases declared

namespace Json

@[simp] theorem core_heldShape (json : Json) : json.heldShape.core = json.heldShape := by
  cases json <;> rfl

@[simp] theorem hasOption_heldShape (json : Json) : json.heldShape.hasOption = false := by
  cases json <;> rfl

theorem heldShape_ne_variant (json : Json) : json.heldShape ≠ .variant := by
  cases json <;> simp [heldShape]

@[simp] theorem wrap_heldShape (json : Json) (value : Value) :
    json.heldShape.wrap value = value := by
  cases json <;> rfl

@[simp] theorem core_innerShape (json : Json) (shape : Shape) :
    (json.innerShape shape).core = json.innerShape shape := by
  rw [innerShape]
  split <;> simp

theorem innerShape_ne_variant (json : Json) (shape : Shape) :
    json.innerShape shape ≠ .variant := by
  rw [innerShape]
  split
  · exact json.heldShape_ne_variant
  · assumption

@[simp] theorem hasOption_innerShape (json : Json) (shape : Shape) :
    (json.innerShape shape).hasOption = false := by
  rw [← core_innerShape, Shape.hasOption_core]

@[simp] theorem innerShape_innerShape (json : Json) (shape : Shape) :
    json.innerShape (json.innerShape shape) = json.innerShape shape := by
  rw [innerShape, core_innerShape, if_neg (json.innerShape_ne_variant shape)]

@[simp] theorem wrap_innerShape (json : Json) (shape : Shape) (value : Value) :
    wrap (json.innerShape shape) value = value := by
  rw [wrap, core_innerShape, if_neg (json.innerShape_ne_variant shape), ← core_innerShape,
    Shape.wrap_core]

theorem readAs_absent (schema : Schema) {shape : Shape} (option : shape.hasOption) :
    null.readAs schema shape = some .absent := by
  rw [readAs, if_pos option]

/-- A tree that no option takes for absent is read as its inner shape, and wrapped. -/
theorem readAs_inner (schema : Schema) (shape : Shape) (json : Json)
    (kept : shape.hasOption → json ≠ .null) :
    json.readAs schema shape =
      (json.readAs schema (json.innerShape shape)).map (wrap shape) := by
  cases json with
  | null =>
    have noOption : shape.hasOption = false := by simpa using fun option => kept option rfl
    simp only [readAs, noOption, hasOption_innerShape, innerShape_innerShape, wrap_innerShape,
      Bool.false_eq_true, if_false]
    split <;> rfl
  | bool value =>
    simp only [readAs, innerShape_innerShape, wrap_innerShape]
    split <;> rfl
  | number literal =>
    simp only [readAs, innerShape_innerShape, wrap_innerShape]
    split
    · simp [Function.comp_def]
    · rfl
  | string items =>
    simp only [readAs, innerShape_innerShape, wrap_innerShape]
    split
    · simp [Function.comp_def]
    · rfl
  | array items =>
    simp only [readAs, innerShape_innerShape, wrap_innerShape]
    split
    · simp [Function.comp_def]
    · rfl
  | object members =>
    simp only [readAs, innerShape_innerShape, wrap_innerShape]
    split
    · simp [Function.comp_def]
    · rfl

theorem readAs_option {schema : Schema} (item : Shape) {json : Json} (kept : json ≠ .null) :
    json.readAs schema (.option item) = (json.readAs schema item).map .present := by
  have inner : json.innerShape (.option item) = json.innerShape item := rfl
  rw [readAs_inner schema (.option item) json (fun _ => kept),
    readAs_inner schema item json (fun _ => kept), inner, Option.map_map]
  rfl

theorem readAs_box {schema : Schema} (item : Shape) (json : Json) :
    json.readAs schema (.box item) = json.readAs schema item := by
  have inner : json.innerShape (.box item) = json.innerShape item := rfl
  by_cases absent : item.hasOption ∧ json = .null
  · obtain ⟨option, rfl⟩ := absent
    have boxed : (Shape.box item).hasOption := option
    rw [readAs_absent schema option, readAs_absent schema boxed]
  · have kept : item.hasOption → json ≠ .null := fun option null => absent ⟨option, null⟩
    rw [readAs_inner schema (.box item) json kept, readAs_inner schema item json kept, inner]
    rfl

theorem readAs_variant {schema : Schema} (json : Json) :
    json.readAs schema .variant = (json.readAs schema json.heldShape).map .held := by
  rw [readAs_inner schema .variant json nofun]
  rfl

/-- What a tree means in a shape without layers around it. -/
inductive Means (schema : Schema) : Json → Shape → Value → Prop where
  | null : Means schema .null .null .null
  | bool (truth : Bool) : Means schema (.bool truth) .bool (.bool truth)
  | number {literal : Literal} {type : NumberType} {value : NumberValue}
      (means : literal.readAs type = some value) :
      Means schema (.number literal) (.number type) (.number value)
  | string {items : List StringItem} {text : String} (means : textOf? items = some text) :
      Means schema (.string items) .string (.string text)
  | array {items : List Json} {item : Shape} {values : List Value}
      (means : readItems schema item items = some values) :
      Means schema (.array items) (.list item) (.list values)
  | object {members : List (List StringItem × Json)} {shape : Shape} {table : Table}
      {read : MembersRead} (declared : schema.table? shape = some table)
      (means : readMembers schema table members (.start schema table) = some read) :
      Means schema (.object members) shape (.object read.members read.presence read.extras)

theorem means_of_readAs {schema : Schema} {json : Json} {shape : Shape} {value : Value}
    (kept : shape.hasOption → json ≠ .null)
    (means : json.readAs schema (json.innerShape shape) = some value) :
    Means schema json (json.innerShape shape) value := by
  generalize isInner : json.innerShape shape = inner at means ⊢
  have same : json.innerShape inner = inner := by rw [← isInner, innerShape_innerShape]
  have plain : ∀ value, wrap inner value = value := by
    intro value
    rw [← isInner, wrap_innerShape]
  cases json with
  | null =>
    have noOption : inner.hasOption = false := by rw [← isInner, hasOption_innerShape]
    simp only [readAs, noOption, same, plain, Bool.false_eq_true, if_false] at means
    split at means
    · rename_i isNull
      cases means
      rw [isNull]
      exact .null
    · cases means
  | bool truth =>
    simp only [readAs, same, plain] at means
    split at means
    · rename_i isBool
      cases means
      rw [isBool]
      exact .bool truth
    · cases means
  | number literal =>
    simp only [readAs, same, plain] at means
    split at means
    · obtain ⟨number, reads, rfl⟩ := Option.map_eq_some_iff.mp means
      exact .number reads
    · cases means
  | string items =>
    simp only [readAs, same, plain] at means
    split at means
    · rename_i isString
      obtain ⟨text, reads, rfl⟩ := Option.map_eq_some_iff.mp means
      rw [isString]
      exact .string reads
    · cases means
  | array items =>
    simp only [readAs, same, plain] at means
    split at means
    · rename_i item isList
      obtain ⟨values, reads, rfl⟩ := Option.map_eq_some_iff.mp means
      rw [Shape.eq_list_of_item? isList]
      exact .array reads
    · cases means
  | object members =>
    simp only [readAs, same, plain] at means
    split at means
    · rename_i table declared
      obtain ⟨read, reads, rfl⟩ := Option.map_eq_some_iff.mp means
      exact .object declared reads
    · cases means

theorem Means.heldShape {schema : Schema} {json : Json} {shape : Shape} {value : Value}
    (means : Means schema json shape value) : value.heldShape = json.heldShape := by
  cases means <;> rfl

end Json

/-! ## First bytes -/

/-- The first byte of a text tells the shape that a variant holds its value in, and whether it
is null. -/
theorem Spells.first {text : List Char} {json : Json} (spells : Spells text json) :
    ∃ byte rest, Utf8.encode text = byte :: rest ∧ isSpace byte = false ∧
      heldShapeOf? byte = some json.heldShape ∧ (byte = lowerN ↔ json = .null) := by
  cases spells with
  | null => exact ⟨_, _, rfl, rfl, rfl, by simp⟩
  | trueText | falseText => exact ⟨_, _, rfl, rfl, rfl, iff_of_false (by decide) nofun⟩
  | number literal =>
    obtain ⟨byte, rest, bytes, begins⟩ := literal.bytes_head
    have known : ∀ byte : UInt8, byte = Ascii.minus ∨ isDigit byte →
        heldShapeOf? byte = some (.number .any) ∧ byte ≠ lowerN := by
      rintro byte (rfl | isDigit)
      · exact ⟨rfl, by decide⟩
      · obtain ⟨digit, rfl⟩ := Digit.of_isDigit isDigit
        have known : ∀ digit : Digit, heldShapeOf? digit.byte = some (.number .any) ∧
          digit.byte ≠ lowerN := by decide
        exact known digit
    obtain ⟨held, notNull⟩ := known byte begins
    exact ⟨byte, rest, bytes, solid_of_number begins, held, by simpa using notNull⟩
  | string items =>
    exact ⟨_, _, encode_quotedText items, rfl, rfl, iff_of_false (by decide) nofun⟩
  | emptyArray | array | emptyObject | object =>
    exact ⟨_, _, rfl, rfl, rfl, iff_of_false (by decide) nofun⟩

/-! ## Where members belong -/

theorem split_iff {name front back : List UInt8} :
    (name.length = front.length + back.length ∧ name.take front.length = front ∧
      name.drop front.length = back) ↔ name = front ++ back := by
  constructor
  · rintro ⟨-, taken, dropped⟩
    rw [← List.take_append_drop front.length name, taken, dropped]
  · rintro rfl
    simp

theorem Table.findSplit?_eq {table : Table} {front back : List UInt8} {name : String}
    (spelled : front ++ back = Utf8.encodeString name) :
    table.findSplit? front back = table.find? name := by
  rw [findSplit?, find?]
  congr 1
  funext field
  simp only [split_iff, spelled]
  have same : Utf8.encodeString field.name = Utf8.encodeString name ↔ field.name = name :=
    ⟨fun same => String.ext (Utf8.encode_injective same), fun same => by rw [same]⟩
  simp only [same]

namespace MemberSlot

/-- What stands for the slot while its member is read. -/
def target (extras : Entries Value) : MemberSlot → Target
  | .field index _ => .field index
  | .extra name _ => .extra (extras.position name)

/-- The entries with a place for the member. -/
def prepare (schema : Schema) (extras : Entries Value) : MemberSlot → Entries Value
  | .field .. => extras
  | .extra name shape => extras.reserve name (schema.initial shape)

end MemberSlot

namespace Table

variable {schema : Schema} {table : Table} {name : String} {slot : MemberSlot}

/-- A name that is looked up octet by octet finds what its text finds. -/
theorem resolve_eq_ok_iff (extras : Entries Value) (front back : List UInt8)
    (found : Target × Entries Value) :
    table.resolve schema extras front back = .ok found ↔
      ∃ name slot, front ++ back = Utf8.encodeString name ∧ table.memberSlot? name = some slot ∧
        found = (slot.target extras, slot.prepare schema extras) := by
  have decides (name : String) (spelled : front ++ back = Utf8.encodeString name) :
      table.resolve schema extras front back = .ok found ↔ ∃ slot,
        table.memberSlot? name = some slot ∧
          found = (slot.target extras, slot.prepare schema extras) := by
    have decoded := (Utf8.decodeString_eq_ok_iff _ _).mpr spelled
    rw [Table.resolve, memberSlot?, findSplit?_eq spelled, decoded, lookup?]
    rcases declared : table.find? name with - | index
    · cases table.extra <;> simp [MemberSlot.target, MemberSlot.prepare, eq_comm]
    · obtain ⟨inside, -⟩ := List.findIdx?_eq_some_iff_getElem.mp declared
      simp [List.getElem?_eq_getElem inside, MemberSlot.target, MemberSlot.prepare, eq_comm]
  constructor
  · intro resolved
    cases decoded : Utf8.decodeString (front ++ back) with
    | ok name =>
      have spelled := (Utf8.decodeString_eq_ok_iff _ _).mp decoded
      obtain ⟨slot, isSlot, same⟩ := (decides name spelled).mp resolved
      exact ⟨name, slot, spelled, isSlot, same⟩
    | error error =>
      rw [Table.resolve, decoded] at resolved
      cases declared : table.findSplit? front back with
      | none =>
        rw [declared] at resolved
        cases resolved
      | some index =>
        obtain ⟨inside, matched, -⟩ := List.findIdx?_eq_some_iff_getElem.mp declared
        have spelled := split_iff.mp (of_decide_eq_true matched)
        rw [(Utf8.decodeString_eq_ok_iff _ _).mpr spelled.symm] at decoded
        cases decoded
  · rintro ⟨name, slot, spelled, isSlot, same⟩
    exact (decides name spelled).mpr ⟨slot, isSlot, same⟩

theorem memberShape?_target (found : table.memberSlot? name = some slot)
    (extras : Entries Value) : table.memberShape? (slot.target extras) = some slot.shape := by
  rcases memberSlot?_cases found with ⟨index, field, rfl, known⟩ | ⟨item, rfl, -, admitted⟩
  · simp [memberShape?, MemberSlot.target, MemberSlot.shape, (lookup?_spec known).1]
  · simp [memberShape?, MemberSlot.target, MemberSlot.shape, admitted]

end Table

/-- A member is asked for in its shape and goes to its place, and nothing remains of the value that
held it. -/
theorem FrameBody.accept_member {schema : Schema} {table : Table} {name : String}
    {slot : MemberSlot} (found : table.memberSlot? name = some slot) (phase : ObjectPhase)
    (read : MembersRead) (child : Frame) :
    (FrameBody.object table phase (some (slot.target read.extras)) read.members read.presence
        (slot.prepare schema read.extras)).accept child =
      (child.deliver slot.shape).map fun value =>
        .object table .comma none (read.take value slot).members
          (read.take value slot).presence (read.take value slot).extras := by
  rcases Table.memberSlot?_cases found with ⟨index, field, rfl, known⟩ | ⟨item, rfl, -, admitted⟩
  · simp only [MemberSlot.target, accept, (Table.lookup?_spec known).1]
    rfl
  · obtain ⟨value, stands⟩ :=
      Entries.getElem?_reserve read.extras name (schema.initial item)
    simp only [MemberSlot.target, MemberSlot.prepare, accept, admitted, stands,
      Entries.set_reserve]
    rfl

end IncrementalJson
