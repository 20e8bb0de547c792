import IncrementalJson.Proofs.Reading.Tokens
import IncrementalJson.Proofs.Viewing.SameTree

/-!
# The kind that is shown and the text that is written

The text of a value that is not null begins with a byte that tells its kind, and
a view shows that kind through any stack of boxes, options and variants.  Null is
another matter: only the outermost wrapper is asked whether something is there,
so that an option without a value is taken for null if it stands outermost, and
not behind a box or another option.
-/

set_option autoImplicit false

namespace IncrementalJson

open Ascii

variable {schema : Schema}

def JsonType.announcedBy (byte : UInt8) : JsonType :=
  if byte = leftBrace then .object
  else if byte = leftBracket then .array
  else if byte = quote then .string
  else if byte = lowerT ∨ byte = lowerF then .bool
  else .number

theorem JsonType.announcedBy_number {byte : UInt8} (begins : byte = minus ∨ isDigit byte) :
    announcedBy byte = .number := by
  rcases begins with rfl | digit
  · rfl
  · obtain ⟨value, rfl⟩ := Digit.of_isDigit digit
    have numeral : ∀ digit : Digit, announcedBy digit.byte = .number := by decide
    exact numeral value

theorem JsonType.announcedBy_ne_null (byte : UInt8) : announcedBy byte ≠ .null := by
  rw [announcedBy]
  split_ifs <;> decide

/-- How many boxes and options stand around an option without a value. -/
def Value.depthOfAbsent? : Shape → Value → Option Nat
  | .option _, .absent => some 0
  | .option item, .present value => (value.depthOfAbsent? item).map (· + 1)
  | .box item, value => (value.depthOfAbsent? item).map (· + 1)
  | _, _ => none

/-- An option without a value stands behind at least one box or option, and what it is an option
of is not null. -/
def Value.ConcealsAbsent (shape : Shape) (value : Value) : Prop :=
  shape.jsonType ≠ .null ∧ ∃ layers, value.depthOfAbsent? shape = some (layers + 1)

/-! ## What is shown of a layer -/

namespace View

theorem jsonType_box (item : Shape) (value : Value) :
    (ofValue schema (.box item) value).jsonType = (ofValue schema item value).jsonType := by
  rw [jsonType, jsonType, resolve_box]

theorem jsonType_held (value : Value) :
    (ofValue schema .variant (.held value)).jsonType =
      (ofValue schema value.heldShape value).jsonType := by
  rw [jsonType, jsonType, resolve_held]

theorem jsonType_present (item : Shape) (value : Value) :
    (ofValue schema (.option item) (.present value)).jsonType =
      (ofValue schema item value).jsonType := by
  rw [jsonType, jsonType, resolve_present]

theorem jsonType_leaf {value : Value} (leaf : value.isLeaf) (shape : Shape) :
    (ofValue schema shape value).jsonType = shape.jsonType := by
  rw [jsonType, resolve_leaf leaf]
  induction shape with
  | box item ih => exact ih
  | _ => rfl

theorem jsonType_list (item : Shape) (items : List Value) :
    (ofValue schema (.list item) (.list items)).jsonType = .array := by
  rw [jsonType, resolve_ofValue, Value.concrete.eq_def]
  rfl

theorem jsonType_object {shape : Shape} {table : Table} (members : List Value)
    (presence : PresenceBits 64) (extras : Entries Value)
    (declared : schema.table? shape = some table) :
    (ofValue schema shape (.object members presence extras)).jsonType = .object := by
  rw [jsonType, resolve_ofValue, Value.concrete.eq_def]
  cases shape with
  | extras => rfl
  | record => rfl
  | _ => cases declared

/-- Only the outermost wrapper is asked whether something is there. -/
theorem isPresent_eq_false_iff (shape : Shape) (value : Value) :
    (ofValue schema shape value).isPresent = false ↔ value.depthOfAbsent? shape = some 0 := by
  have matched := matched_ofValue schema shape value
  rw [isPresent, matched, Bool.true_and]
  cases shape with
  | option item => cases value <;> simp [ofValue, Value.depthOfAbsent?]
  | box item => cases value <;> simp [ofValue, Value.depthOfAbsent?]
  | _ => simp [ofValue, Value.depthOfAbsent?]

end View

/-! ## The first byte -/

theorem emits_head {token : List UInt8} {rest : List EmitStep} {byte : UInt8} {out : List UInt8}
    (emits : Emits schema (.token (byte :: token) :: rest) out) : ∃ more, out = byte :: more := by
  obtain ⟨more, -, rfl⟩ := (emits_token _ _ _).mp emits
  exact ⟨token ++ more, rfl⟩

/-- The text of what is not null tells the kind that a view shows, by its first byte. -/
theorem HasShape.announced {shape : Shape} {value : Value} (typed : HasShape schema shape value)
    (something : value.spellsNull = false) {out : List UInt8}
    (written : Written schema shape value out) :
    ∃ byte rest, out = byte :: rest ∧ byte ≠ lowerN ∧
      (View.ofValue schema shape value).jsonType = .announcedBy byte := by
  induction typed generalizing out with
  | null => cases something
  | absent => cases something
  | unset =>
    obtain ⟨emitter, started, -⟩ := written
    cases started
  | bool value =>
    obtain ⟨emitter, started, emits⟩ := written
    cases started
    cases value <;> obtain ⟨more, rfl⟩ := emits_head emits
    · exact ⟨_, more, rfl, by decide, rfl⟩
    · exact ⟨_, more, rfl, by decide, rfl⟩
  | string text =>
    obtain ⟨emitter, started, emits⟩ := written
    cases started
    obtain ⟨more, rfl⟩ := emits_head emits
    exact ⟨_, more, rfl, by decide, rfl⟩
  | @number type value typed =>
    obtain ⟨emitter, started, emits⟩ := written
    cases Emitter.start_eq_ok_iff .. |>.mp started with
    | number unboxed text =>
      obtain ⟨literal, rfl, -⟩ := NumberValue.literal_of_text? text
      obtain ⟨byte, rest, bytes, begins⟩ := literal.bytes_head
      have out := (emits_last _ _).mp emits
      refine ⟨byte, rest, out.trans bytes, ?_, ?_⟩
      · rintro rfl
        rcases begins with begins | begins <;> cases begins
      · rw [JsonType.announcedBy_number begins]
        exact View.jsonType_leaf rfl _
  | @list item items _ _ =>
    obtain ⟨emitter, started, emits⟩ := written
    cases started
    obtain ⟨more, rfl⟩ := emits_head emits
    exact ⟨_, more, rfl, by decide, View.jsonType_list item items⟩
  | held _ ih =>
    obtain ⟨byte, rest, same, other, kind⟩ := ih something ((written_held _ _).mp written)
    exact ⟨byte, rest, same, other, (View.jsonType_held _).trans kind⟩
  | present _ ih =>
    obtain ⟨byte, rest, same, other, kind⟩ := ih something ((written_present _ _ _).mp written)
    exact ⟨byte, rest, same, other, (View.jsonType_present _ _).trans kind⟩
  | box _ ih =>
    obtain ⟨byte, rest, same, other, kind⟩ := ih something ((written_box _ _ _).mp written)
    exact ⟨byte, rest, same, other, (View.jsonType_box _ _).trans kind⟩
  | @object shape table members presence extras declared _ _ _ _ =>
    obtain ⟨emitter, started, emits⟩ := written
    cases Emitter.start_eq_ok_iff .. |>.mp started with
    | object =>
      obtain ⟨more, rfl⟩ := emits_head emits
      exact ⟨_, more, rfl, by decide, View.jsonType_object members presence extras declared⟩

/-! ## Null -/

theorem HasShape.null_or_absent {shape : Shape} {value : Value}
    (typed : HasShape schema shape value) (null : value.spellsNull) :
    (value.depthOfAbsent? shape).isSome ∧
        (View.ofValue schema shape value).jsonType = shape.jsonType ∨
      value.depthOfAbsent? shape = none ∧ (View.ofValue schema shape value).jsonType = .null := by
  induction typed with
  | null => exact .inr ⟨rfl, rfl⟩
  | absent item => exact .inl ⟨rfl, View.jsonType_leaf rfl _⟩
  | @held value typed _ =>
    refine .inr ⟨rfl, (View.jsonType_held value).trans ?_⟩
    cases value with
    | null => rfl
    | absent | held | present => nomatch typed
    | _ => cases null
  | @present item value _ ih =>
    rw [View.jsonType_present, Value.depthOfAbsent?, Option.isSome_map, Option.map_eq_none_iff]
    exact ih null
  | @box item value _ ih =>
    rw [View.jsonType_box, Value.depthOfAbsent?, Option.isSome_map, Option.map_eq_none_iff]
    exact ih null
  | _ => cases null

theorem Value.spellsNull_of_depthOfAbsent? {shape : Shape} {value : Value} {layers : Nat}
    (found : value.depthOfAbsent? shape = some layers) : value.spellsNull := by
  fun_induction Value.depthOfAbsent? shape value generalizing layers with
  | case1 => rfl
  | case2 item value ih =>
    obtain ⟨inner, found, -⟩ := Option.map_eq_some_iff.mp found
    exact ih found
  | case3 item value ih =>
    obtain ⟨inner, found, -⟩ := Option.map_eq_some_iff.mp found
    exact ih found
  | case4 => cases found

theorem View.isNull_iff (shape : Shape) (value : Value) :
    (ofValue schema shape value).isNull ↔
      value.depthOfAbsent? shape = some 0 ∨ (ofValue schema shape value).jsonType = .null := by
  rw [isNull, Bool.or_eq_true, Bool.not_eq_true', isPresent_eq_false_iff, decide_eq_true_eq]

theorem HasShape.isNull_iff_of_spellsNull {shape : Shape} {value : Value}
    (typed : HasShape schema shape value) (null : value.spellsNull) :
    (View.ofValue schema shape value).isNull ↔ ¬ value.ConcealsAbsent shape := by
  rw [View.isNull_iff, Value.ConcealsAbsent]
  rcases typed.null_or_absent null with ⟨there, kind⟩ | ⟨none, kind⟩
  · obtain ⟨layers, found⟩ := Option.isSome_iff_exists.mp there
    rw [kind, found]
    cases layers with
    | zero => simp
    | succ layers => simp
  · simp [none, kind]

theorem HasShape.isNull_eq_false {shape : Shape} {value : Value}
    (typed : HasShape schema shape value) (something : value.spellsNull = false)
    {out : List UInt8} (written : Written schema shape value out) :
    (View.ofValue schema shape value).isNull = false := by
  obtain ⟨byte, rest, -, -, kind⟩ := typed.announced something written
  rw [← Bool.not_eq_true, View.isNull_iff]
  rintro (found | null)
  · rw [Value.spellsNull_of_depthOfAbsent? found] at something
    cases something
  · exact JsonType.announcedBy_ne_null byte (kind.symm.trans null)

theorem encodeString_null : Utf8.encodeString "null" = nullText := by decide

theorem HasShape.text_eq_null_iff {shape : Shape} {value : Value} {text : String}
    (typed : HasShape schema shape value) (written : writeValue schema shape value = .ok text) :
    text = "null" ↔ value.spellsNull := by
  constructor
  · rintro rfl
    by_contra something
    rw [Bool.not_eq_true] at something
    obtain ⟨byte, rest, same, other, -⟩ :=
      typed.announced something ((writeValue_eq_ok_iff _ _ _).mp written)
    rw [encodeString_null] at same
    cases same
    exact other rfl
  · intro null
    have asNull : writeValue schema shape value = .ok "null" := by
      rw [writeValue_eq_ok_iff, encodeString_null]
      exact typed.written_null null
    exact Except.ok.inj (written.symm.trans asNull)

/-- A value is shown as null exactly if its text is null, except for an option without a value
that stands behind a box or another option; and what is not null is shown to be of the kind that
the first byte of its text announces. -/
theorem View.isNull_and_jsonType_of_writeValue {shape : Shape} {value : Value} {text : String}
    (typed : HasShape schema shape value) (written : writeValue schema shape value = .ok text) :
    ((ofValue schema shape value).isNull ↔ text = "null" ∧ ¬ value.ConcealsAbsent shape) ∧
      (text ≠ "null" → ∃ byte rest, Utf8.encodeString text = byte :: rest ∧
        (ofValue schema shape value).jsonType = .announcedBy byte) := by
  have bytes := (writeValue_eq_ok_iff _ _ _).mp written
  rw [ne_eq, typed.text_eq_null_iff written]
  cases null : value.spellsNull with
  | true => simp [typed.isNull_iff_of_spellsNull null]
  | false =>
    obtain ⟨byte, rest, same, -, kind⟩ := typed.announced null bytes
    exact ⟨by simp [typed.isNull_eq_false null bytes], fun _ => ⟨byte, rest, same, kind⟩⟩

/-- An array behind a box and an option. -/
theorem View.isNull_and_jsonType_of_writeValue_array :
    let shape : Shape := .box (.option (.list .variant))
    let value : Value := .present (.list [.held .null])
    writeValue .empty shape value = .ok "[null]" ∧ (ofValue .empty shape value).isNull = false ∧
      (ofValue .empty shape value).jsonType = .array := by
  have typed : HasShape .empty (.box (.option (.list .variant)))
      (.present (.list [.held .null])) := by
    refine .box (.present (.list ?_))
    intro value among
    cases List.mem_singleton.mp among
    exact .held .null
  have written : writeValue .empty (.box (.option (.list .variant)))
      (.present (.list [.held .null])) = .ok "[null]" := rfl
  obtain ⟨null, kind⟩ := isNull_and_jsonType_of_writeValue typed written
  obtain ⟨byte, rest, same, kind⟩ := kind (by decide)
  have first : Utf8.encodeString "[null]" = leftBracket :: nullText ++ [rightBracket] := by decide
  rw [first] at same
  cases same
  refine ⟨written, ?_, kind⟩
  rw [← Bool.not_eq_true, null]
  rintro ⟨same, -⟩
  revert same
  decide

/-- An option without a value behind a box is read from null and written as null, and is not
shown as null. -/
theorem View.isNull_box_absent :
    let shape : Shape := .box (.option (.number (.integer ⟨true, .w32⟩)))
    HasShape .empty shape .absent ∧ parse .empty shape nullText = .ok .absent ∧
      writeValue .empty shape .absent = .ok "null" ∧ (ofValue .empty shape .absent).isNull = false :=
  ⟨.box (.absent _), by rfl, by rfl, by decide⟩

end IncrementalJson
