import IncrementalJson.Proofs.Float.Literals
import IncrementalJson.Proofs.Reading.AnyValue
import IncrementalJson.Proofs.Reading.Places

/-!
# Reading as a shape and as a variant

What can be read in some shape can be read as a variant, and every place that a
view of the value shows is shown by a view of the variant, with the same text,
the same truth value and, but for floats, the same number.
-/

set_option autoImplicit false

namespace IncrementalJson

open Ascii

variable {schema : Schema}

/-! ## Whatever is read can be held by a variant -/

theorem Literal.number?_isSome {literal : Literal} {type : NumberType} {value : NumberValue}
    (means : literal.readAs type = some value) : literal.number?.isSome := by
  have double (read : (literal.float? binary64).isSome) : literal.number?.isSome := by
    rw [number?]
    cases literal.integer? with
    | none => simpa using read
    | some integer =>
      dsimp only
      split
      · rfl
      · split
        · rfl
        · simpa using read
  cases type with
  | single =>
    apply double
    apply double_of_single
    obtain ⟨bits, read, -⟩ := Option.map_eq_some_iff.mp means
    rw [read]
    rfl
  | double =>
    apply double
    obtain ⟨bits, read, -⟩ := Option.map_eq_some_iff.mp means
    rw [read]
    rfl
  | any =>
    rw [number?_of_readAs means]
    · rfl
    · rintro ⟨⟩
    · rintro ⟨⟩
  | integer kind =>
    rw [number?_of_readAs means]
    · rfl
    · rintro ⟨⟩
    · rintro ⟨⟩

namespace Json

mutual

theorem readAs_variant_isSome (json : Json) {shape : Shape} {value : Value}
    (means : json.readAs schema shape = some value) : (json.readAs schema .variant).isSome := by
  match json with
  | null => rfl
  | bool truth => rfl
  | number literal =>
    rw [readAs] at means
    split at means
    · obtain ⟨number, isNumber, -⟩ := Option.map_eq_some_iff.mp means
      rw [readAs_variant_number, Option.isSome_map]
      exact Literal.number?_isSome isNumber
    · cases means
  | string items =>
    rw [readAs] at means
    split at means
    · obtain ⟨text, isText, -⟩ := Option.map_eq_some_iff.mp means
      rw [readAs_variant_string, Option.isSome_map, isText]
      rfl
    · cases means
  | array items =>
    rw [readAs] at means
    split at means
    · obtain ⟨values, reads, -⟩ := Option.map_eq_some_iff.mp means
      rw [readAs_variant_array, Option.isSome_map]
      exact readItems_variant_isSome items reads
    · cases means
  | object members =>
    rw [readAs] at means
    split at means
    · obtain ⟨read, reads, -⟩ := Option.map_eq_some_iff.mp means
      rw [readAs_variant_object, Option.isSome_map]
      exact readMembers_variant_isSome members reads _
    · cases means

theorem readItems_variant_isSome (items : List Json) {item : Shape} {values : List Value}
    (reads : readItems schema item items = some values) :
    (readItems schema .variant items).isSome := by
  match items with
  | [] => rfl
  | json :: rest =>
    obtain ⟨value, values', means, reads, -⟩ := readItems_cons reads
    obtain ⟨held, isHeld⟩ := Option.isSome_iff_exists.mp (json.readAs_variant_isSome means)
    rw [readItems, isHeld]
    simp only [Option.isSome_map]
    exact readItems_variant_isSome rest reads

theorem readMembers_variant_isSome (members : List (List StringItem × Json)) {table : Table}
    {read read' : MembersRead} (reads : readMembers schema table members read = some read')
    (before : MembersRead) :
    (readMembers schema (.ofExtra .variant) members before).isSome := by
  match members with
  | [] => rfl
  | (name, json) :: rest =>
    obtain ⟨text, slot, value, isText, -, means, reads⟩ := readMembers_cons reads
    obtain ⟨held, isHeld⟩ := Option.isSome_iff_exists.mp (json.readAs_variant_isSome means)
    have found : (Table.ofExtra .variant).memberSlot? text = some (.extra text .variant) := rfl
    rw [readMembers, isText, Option.bind_some, found]
    simp only [MemberSlot.shape, isHeld]
    exact readMembers_variant_isSome rest reads _

end

end Json

/-! ## Places -/

/-- Wherever names lead from a value of some shape, they lead from the variant of the same tree to
a variant of the same tree. -/
theorem follow?_refines {names : List String} {json : Json} {shape : Shape} {value held : Value}
    {place : View} (means : json.readAs schema shape = some value)
    (isHeld : json.readAs schema .variant = some held)
    (found : (View.ofValue schema shape value).follow? names = some place) :
    ∃ (json' : Json) (shape' : Shape) (value' held' : Value), place = .ofValue schema shape' value' ∧
      (View.ofValue schema .variant held).follow? names = some (.ofValue schema .variant held') ∧
        json'.readAs schema shape' = some value' ∧ json'.readAs schema .variant = some held' := by
  induction names generalizing json shape value held with
  | nil =>
    cases found
    exact ⟨json, shape, value, held, rfl, rfl, means, isHeld⟩
  | cons name rest ih =>
    have step (view : View) : view.follow? (name :: rest) =
      (view.get? name).bind fun next => next.follow? rest := rfl
    rw [step] at found
    obtain ⟨next, here, found⟩ := Option.bind_eq_some_iff.mp found
    obtain ⟨child, shape', value', below, rfl, means'⟩ := get?_of_readAs means here
    obtain ⟨held', isHeld'⟩ := Option.isSome_iff_exists.mp (child.readAs_variant_isSome means')
    rw [step, get?_variant isHeld below isHeld', Option.bind_some]
    exact ih means' isHeld' found

/-! ## The arms of a variant -/

def Shape.arms : List Shape := [.null, .bool, .string, .number .any, .list .variant, .map]

theorem Json.Means.arm {json : Json} {shape : Shape} {value : Value}
    (means : Means schema json shape value) (arm : shape ∈ Shape.arms) :
    shape = json.heldShape := by
  cases means with
  | null => rfl
  | bool truth => rfl
  | number isNumber => simpa [Shape.arms, Json.heldShape] using arm
  | string isText => rfl
  | array reads => simpa [Shape.arms, Json.heldShape] using arm
  | object declared reads =>
    cases shape with
    | extras item => simpa [Shape.arms, Json.heldShape] using arm
    | record position => simp [Shape.arms] at arm
    | _ => cases declared

theorem readAs_arm {shape : Shape} (arm : shape ∈ Shape.arms) (json : Json) (value : Value) :
    json.readAs schema shape = some value ↔
      json.readAs schema .variant = some (.held value) ∧ value.heldShape = shape := by
  have plain : shape.hasOption = false ∧ json.innerShape shape = shape := by
    simp only [Shape.arms, List.mem_cons, List.not_mem_nil, or_false] at arm
    rcases arm with rfl | rfl | rfl | rfl | rfl | rfl <;> exact ⟨rfl, rfl⟩
  rw [Json.readAs_variant]
  constructor
  · intro read
    have means : Json.Means schema json (json.innerShape shape) value := by
      apply Json.means_of_readAs
      · intro option
        rw [plain.1] at option
        cases option
      · rw [plain.2]
        exact read
    rw [plain.2] at means
    have same := means.arm arm
    rw [← same, read]
    exact ⟨rfl, means.heldShape.trans same.symm⟩
  · rintro ⟨read, held⟩
    obtain ⟨core, read, same⟩ := Option.map_eq_some_iff.mp read
    cases same
    have inner : json.innerShape json.heldShape = json.heldShape := by
      cases json <;> rfl
    have means : Json.Means schema json (json.innerShape json.heldShape) value := by
      apply Json.means_of_readAs
      · intro option
        rw [Json.hasOption_heldShape] at option
        cases option
      · rw [inner]
        exact read
    rw [← held, means.heldShape]
    exact read

/-! ## Documents -/

/-- Reading a document in a shape refines reading it as a variant.  The variant is read as well,
and every path that leads to a place in the value leads to one in the variant with the same text
and truth value, and with the same number unless the place in the value is a float.  The shapes
that a variant holds values in read just what it holds in them. -/
theorem parse_refines_variant (schema : Schema) (document : List UInt8) :
    (∀ shape value, parse schema shape document = .ok value →
      ∃ held, parse schema .variant document = .ok held ∧
        ∀ path place, (View.ofValue schema shape value).find? path = some place →
          ∃ other, (View.ofValue schema .variant held).find? path = some other ∧
            other.string? = place.string? ∧ other.bool? = place.bool? ∧
              (place.resolve.shape ≠ .number .single → place.resolve.shape ≠ .number .double →
                other.number? = place.number?)) ∧
    ∀ shape ∈ Shape.arms, ∀ value, parse schema shape document = .ok value ↔
      parse schema .variant document = .ok (.held value) ∧ value.heldShape = shape := by
  constructor
  · intro shape value parsed
    obtain ⟨text, json, rfl, document, means⟩ := (parse_eq_ok_iff schema shape _ value).mp parsed
    obtain ⟨held, isHeld⟩ := Option.isSome_iff_exists.mp (json.readAs_variant_isSome means)
    refine ⟨held, (parse_eq_ok_iff schema .variant _ held).mpr ⟨text, json, rfl, document, isHeld⟩,
      ?_⟩
    intro path place found
    obtain ⟨json', shape', value', held', rfl, other, means', isHeld'⟩ :=
      follow?_refines means isHeld found
    refine ⟨_, other, ?_, ?_, ?_⟩
    · rw [string?_of_readAs means', string?_of_readAs isHeld']
    · rw [bool?_of_readAs means', bool?_of_readAs isHeld']
    · intro notSingle notDouble
      rw [number?_of_readAs means' notSingle notDouble, number?_variant isHeld']
  · intro shape arm value
    simp only [parse_eq_ok_iff, readAs_arm arm]
    constructor
    · rintro ⟨text, json, rfl, document, read, held⟩
      exact ⟨⟨text, json, rfl, document, read⟩, held⟩
    · rintro ⟨⟨text, json, rfl, document, read⟩, held⟩
      exact ⟨text, json, rfl, document, read, held⟩

/-- A record of one byte is read from an object, and the variant of the same object has the byte
under the same path. -/
theorem parse_refines_variant_byte :
    let schema : Schema := ⟨[⟨[⟨"n", .number (.integer ⟨false, .w8⟩)⟩], none⟩], by decide⟩
    let document : List UInt8 :=
      [leftBrace, Ascii.quote, lowerN, Ascii.quote, colon, 0x37, rightBrace]
    let value : Value := .object [.number (.integer 7)] ⟨[1]⟩ []
    parse schema (.record 0) document = .ok value ∧
      ∃ held, parse schema .variant document = .ok held ∧
        ∀ path place, (View.ofValue schema (.record 0) value).find? path = some place →
          ∃ other, (View.ofValue schema .variant held).find? path = some other ∧
            other.string? = place.string? ∧ other.bool? = place.bool? ∧
              (place.resolve.shape ≠ .number .single → place.resolve.shape ≠ .number .double →
                other.number? = place.number?) := by
  intro schema document value
  have parsed : parse schema (.record 0) document = .ok value := by
    simp only [schema, document, value]
    rfl
  exact ⟨parsed, (parse_refines_variant schema document).1 _ _ parsed⟩

end IncrementalJson
