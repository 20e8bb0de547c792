import IncrementalJson.Proofs.Reading.Tables
import IncrementalJson.Proofs.RoundTrip.Spelling
import IncrementalJson.Record

/-!
# Reading what was written

The text of a value is read as that value, but for what is not written and for
the form of integers that fit 64 bits with a sign.
-/

set_option autoImplicit false

namespace IncrementalJson

variable {schema : Schema}

/-- No record declares two members of one name. -/
def Schema.NamesDistinct (schema : Schema) : Prop :=
  ∀ position, ((schema.record position).fields.map Field.name).Nodup

theorem Schema.NamesDistinct.table {shape : Shape} {table : Table} (distinct : schema.NamesDistinct)
    (declared : schema.table? shape = some table) : (table.fields.map Field.name).Nodup := by
  cases shape with
  | extras item =>
    cases declared
    exact List.nodup_nil
  | record position =>
    cases declared
    exact distinct position
  | _ => cases declared

theorem Schema.lookup?_of_noClash {shape : Shape} {table : Table} {names : List String}
    (declared : schema.table? shape = some table)
    (noClash : ∀ position, shape = .record position →
      ∀ field ∈ (schema.record position).fields, field.name ∉ names)
    {name : String} (among : name ∈ names) : table.lookup? name = none := by
  apply Table.lookup?_eq_none
  intro field declaredField same
  subst same
  cases shape with
  | extras item =>
    cases declared
    cases declaredField
  | record position =>
    cases declared
    exact noClash position rfl field declaredField among
  | _ => cases declared

theorem HasShape.written_null {shape : Shape} {value : Value} (typed : HasShape schema shape value)
    (null : value.spellsNull) : Written schema shape value Ascii.nullText := by
  have token : Emits schema (Emitter.token Ascii.nullText).steps Ascii.nullText :=
    (emits_last _ _).mpr rfl
  induction typed with
  | null => exact ⟨_, rfl, token⟩
  | absent => exact ⟨_, rfl, token⟩
  | held _ ih => exact (written_held _ _).mpr (ih null)
  | present _ ih => exact (written_present _ _ _).mpr (ih null)
  | box _ ih => exact (written_box _ _ _).mpr (ih null)
  | _ => cases null

theorem writeValue_eq_ok_iff (shape : Shape) (value : Value) (text : String) :
    writeValue schema shape value = .ok text ↔
      Written schema shape value (Utf8.encodeString text) := by
  rw [← writeBytes_eq_ok_iff, writeValue]
  cases written : writeBytes schema shape value with
  | error error => simp
  | ok bytes =>
    simp only [Except.ok.injEq]
    constructor
    · intro decoded
      cases here : Utf8.decodeString bytes with
      | error error =>
        simp [here] at decoded
      | ok text' =>
        simp only [here, Except.ok.injEq] at decoded
        rw [← decoded]
        exact ((Utf8.decodeString_eq_ok_iff bytes text').mp here)
    · intro encoded
      rw [(Utf8.decodeString_eq_ok_iff bytes text).mpr encoded]

/-- What may not be in a value that is to come back: an option around what is written as null,
an extra member with the name of a declared one, or a float that does not read back. -/
structure Faithful (schema : Schema) (shape : Shape) (value : Value) : Prop where
  noNull : ∀ item part, Live schema shape value (.option item) (.present part) →
    writeValue schema item part ≠ .ok "null"
  noClash : ∀ position members presence extras,
    Live schema shape value (.record position) (.object members presence extras) →
      ∀ field ∈ (schema.record position).fields, field.name ∉ Entries.names extras
  floats : ∀ type number, Live schema shape value (.number type) (.number number) →
    number.ReadsBack

theorem Faithful.inside {shape inner : Shape} {value part : Value}
    (faithful : Faithful schema shape value)
    (wider : ∀ last rest, Live schema inner part last rest → Live schema shape value last rest) :
    Faithful schema inner part where
  noNull item rest live := faithful.noNull item rest (wider _ _ live)
  noClash position members presence extras live :=
    faithful.noClash position members presence extras (wider _ _ live)
  floats type number live := faithful.floats type number (wider _ _ live)

theorem HasShape.restorable (distinct : schema.NamesDistinct) {shape : Shape} {value : Value}
    (typed : HasShape schema shape value) (faithful : Faithful schema shape value) :
    Restorable schema shape value := by
  induction typed with
  | null => exact .null
  | bool value => exact .bool value
  | string text => exact .string text
  | number typed => exact .number typed (faithful.floats _ _ (.here _ _))
  | list _ ih =>
    apply Restorable.list
    intro value among
    apply ih value among
    exact faithful.inside fun _ _ live => .item among live
  | unset => exact .unset
  | held _ ih =>
    apply Restorable.held
    apply ih
    exact faithful.inside fun _ _ live => .held live
  | absent item => exact .absent item
  | @present item value typed ih =>
    apply Restorable.present
    · apply ih
      exact faithful.inside fun _ _ live => .present live
    · rw [← Bool.not_eq_true]
      intro null
      apply faithful.noNull item value (.here _ _)
      rw [writeValue_eq_ok_iff]
      exact typed.written_null null
  | box _ ih =>
    apply Restorable.box
    apply ih
    exact faithful.inside fun _ _ live => .box live
  | @object shape table members presence extras declared complete unique _ ih =>
    apply Restorable.object declared complete unique
    · intro index field value here _ _
      exact Table.lookup?_of_distinct (distinct.table declared) here
    · intro item extra name among
      refine Schema.lookup?_of_noClash declared ?_ among
      intro position isRecord
      subst isRecord
      exact faithful.noClash position members presence extras (.here _ _)
    · intro member among
      apply ih member among
      exact faithful.inside fun _ _ live => .member declared among live

theorem Restorable.parse {shape : Shape} {value : Value} {out : List UInt8}
    (restorable : Restorable schema shape value) (written : Written schema shape value out) :
    IncrementalJson.parse schema shape out = .ok (value.restored schema shape) := by
  obtain ⟨chars, json, bytes, spells, means⟩ := restorable.restores out written
  rw [parse_eq_ok_iff]
  refine ⟨chars, json, bytes, ⟨⟨[], chars, json, []⟩, Blank.nil, Blank.nil, spells, ?_, rfl⟩, means⟩
  simp [Element.padded]

/-- The text of a value is read as the value restored: provided that no option that is there holds
what is written as null, no extra member has the name of a declared one, and the text of a float
reads back. -/
theorem parse_writeValue (distinct : schema.NamesDistinct) {shape : Shape} {value : Value}
    {text : String} (typed : HasShape schema shape value)
    (noNull : ∀ item part, Live schema shape value (.option item) (.present part) →
      writeValue schema item part ≠ .ok "null")
    (noClash : ∀ position members presence extras,
      Live schema shape value (.record position) (.object members presence extras) →
        ∀ field ∈ (schema.record position).fields, field.name ∉ Entries.names extras)
    (floats : ∀ type number, Live schema shape value (.number type) (.number number) →
      number.ReadsBack)
    (written : writeValue schema shape value = .ok text) :
    parse schema shape (Utf8.encodeString text) = .ok (value.restored schema shape) := by
  have restorable := typed.restorable distinct ⟨noNull, noClash, floats⟩
  exact restorable.parse ((writeValue_eq_ok_iff _ _ _).mp written)

def sensorSchema : Schema :=
  ⟨[⟨[⟨"id", .number .any⟩, ⟨"label", .option .string⟩, ⟨"value", .number .double⟩,
    ⟨"spare", .bool⟩], some .variant⟩], by decide⟩

/-- A record whose last declared member is not there. -/
def sensorReading : Value :=
  .object [.number (.any (.uint 7)), .present (.string "a\n"),
    .number (.double 0x3FF8000000000000), .bool true] ⟨[5]⟩ [("x", .held .null)]

theorem mem_sensorMembers {member : String × Shape × Value}
    (among : member ∈ (sensorSchema.record 0).liveMembers [.number (.any (.uint 7)),
      .present (.string "a\n"), .number (.double 0x3FF8000000000000), .bool true] ⟨[5]⟩
      [("x", .held .null)]) :
    member = ("id", .number .any, .number (.any (.uint 7))) ∨
      member = ("label", .option .string, .present (.string "a\n")) ∨
      member = ("value", .number .double, .number (.double 0x3FF8000000000000)) ∨
      member = ("x", .variant, .held .null) := by
  have members : member ∈ [("id", .number .any, .number (.any (.uint 7))),
      ("label", .option .string, .present (.string "a\n")),
      ("value", .number .double, .number (.double 0x3FF8000000000000)),
      ("x", .variant, .held .null)] := among
  simpa only [List.mem_cons, List.not_mem_nil, or_false] using members

theorem live_sensorReading {inner : Shape} {part : Value}
    (live : Live sensorSchema (.record 0) sensorReading inner part) :
    (inner, part) = (.record 0, sensorReading) ∨
      (inner, part) = (.number .any, .number (.any (.uint 7))) ∨
      (inner, part) = (.option .string, .present (.string "a\n")) ∨
      (inner, part) = (.string, .string "a\n") ∨
      (inner, part) = (.number .double, .number (.double 0x3FF8000000000000)) ∨
      (inner, part) = (.variant, .held .null) ∨ (inner, part) = (.null, .null) := by
  cases live with
  | here => exact .inl rfl
  | member declared among inside =>
    cases declared
    rcases mem_sensorMembers among with rfl | rfl | rfl | rfl
    · cases inside
      exact .inr (.inl rfl)
    · cases inside with
      | here => exact .inr (.inr (.inl rfl))
      | present inside =>
        cases inside
        exact .inr (.inr (.inr (.inl rfl)))
    · cases inside
      exact .inr (.inr (.inr (.inr (.inl rfl))))
    · cases inside with
      | here => exact .inr (.inr (.inr (.inr (.inr (.inl rfl)))))
      | held inside =>
        cases inside
        exact .inr (.inr (.inr (.inr (.inr (.inr rfl)))))

theorem sensorSchema_distinct : sensorSchema.NamesDistinct := by
  intro position
  cases position with
  | zero => decide
  | succ position => exact List.nodup_nil

theorem sensorReading_typed : HasShape sensorSchema (.record 0) sensorReading := by
  refine .object rfl rfl (by decide) ?_
  intro member among
  rcases mem_sensorMembers among with rfl | rfl | rfl | rfl
  · exact .number (show IntegerKind.unsigned64.holds 7 by decide)
  · exact .present (.string _)
  · exact .number trivial
  · exact .held .null

theorem sensorReading_noClash (position : Nat) (members : List Value) (presence : PresenceBits 64)
    (extras : Entries Value)
    (live : Live sensorSchema (.record 0) sensorReading (.record position)
      (.object members presence extras)) :
    ∀ field ∈ (sensorSchema.record position).fields, field.name ∉ Entries.names extras := by
  rcases live_sensorReading live with here | here | here | here | here | here | here <;>
    cases here
  decide

theorem sensorReading_floats (type : NumberType) (number : NumberValue)
    (live : Live sensorSchema (.record 0) sensorReading (.number type) (.number number)) :
    number.ReadsBack := by
  rcases live_sensorReading live with here | here | here | here | here | here | here <;>
    cases here
  · trivial
  · intro text written
    have known : binary64.text? .double (0x3FF8000000000000 : BitVec 64).toNat =
        some ['1', '.', '5'] := rfl
    rw [known] at written
    cases written
    rfl

theorem write_sensorReading :
    writeValue sensorSchema (.record 0) sensorReading =
      .ok "\x7b\"id\":7,\"label\":\"a\\n\",\"value\":1.5,\"x\":null\x7d" := by
  decide +kernel

theorem parse_sensorReading :
    writeValue sensorSchema (.record 0) sensorReading =
      .ok "\x7b\"id\":7,\"label\":\"a\\n\",\"value\":1.5,\"x\":null\x7d" ∧
    parse sensorSchema (.record 0) (Utf8.encodeString
        "\x7b\"id\":7,\"label\":\"a\\n\",\"value\":1.5,\"x\":null\x7d") =
      .ok (.object [.number (.any (.int 7)), .present (.string "a\n"),
        .number (.double 0x3FF8000000000000), .bool false] ⟨[5]⟩ [("x", .held .null)]) := by
  have noNull : ∀ item part,
      Live sensorSchema (.record 0) sensorReading (.option item) (.present part) →
        writeValue sensorSchema item part ≠ .ok "null" := by
    intro item part live
    have written : writeValue sensorSchema .string (.string "a\n") = .ok "\"a\\n\"" := by
      decide +kernel
    rcases live_sensorReading live with here | here | here | here | here | here | here <;>
      cases here
    rw [written]
    simp
  exact ⟨write_sensorReading, parse_writeValue sensorSchema_distinct sensorReading_typed noNull
    sensorReading_noClash sensorReading_floats write_sensorReading⟩

/-- A record whose members have one name. -/
def twinSchema : Schema :=
  ⟨[⟨[⟨"x", .number (.integer .signed64)⟩, ⟨"x", .number (.integer .signed64)⟩], none⟩],
    by decide⟩

def twins : Value :=
  .object [.number (.integer 1), .number (.integer 2)] ⟨[3]⟩ []

theorem mem_twinMembers {member : String × Shape × Value}
    (among : member ∈ (twinSchema.record 0).liveMembers
      [.number (.integer 1), .number (.integer 2)] ⟨[3]⟩ []) :
    member = ("x", .number (.integer .signed64), .number (.integer 1)) ∨
      member = ("x", .number (.integer .signed64), .number (.integer 2)) := by
  have members : member ∈ [("x", .number (.integer .signed64), .number (.integer 1)),
      ("x", .number (.integer .signed64), .number (.integer 2))] := among
  simpa only [List.mem_cons, List.not_mem_nil, or_false] using members

theorem live_twins {inner : Shape} {part : Value}
    (live : Live twinSchema (.record 0) twins inner part) :
    (inner, part) = (.record 0, twins) ∨
      ∃ value, (inner, part) = (.number (.integer .signed64), .number (.integer value)) := by
  cases live with
  | here => exact .inl rfl
  | member declared among inside =>
    cases declared
    rcases mem_twinMembers among with rfl | rfl <;> cases inside <;> exact .inr ⟨_, rfl⟩

theorem twins_typed : HasShape twinSchema (.record 0) twins := by
  refine .object rfl rfl (by decide) ?_
  intro member among
  rcases mem_twinMembers among with rfl | rfl
  · exact .number (show IntegerKind.signed64.holds 1 by decide)
  · exact .number (show IntegerKind.signed64.holds 2 by decide)

theorem twins_faithful : Faithful twinSchema (.record 0) twins where
  noNull item part live := by
    rcases live_twins live with here | ⟨value, here⟩ <;> cases here
  noClash position members presence extras live := by
    rcases live_twins live with here | ⟨value, here⟩ <;> cases here
    decide
  floats type number live := by
    rcases live_twins live with here | ⟨value, here⟩ <;> cases here
    trivial

theorem write_twins :
    writeValue twinSchema (.record 0) twins = .ok "\x7b\"x\":1,\"x\":2\x7d" := by
  decide +kernel

def spareBit : Value :=
  (sensorSchema.initial (.record 0)).setPresenceBit 1 true

theorem live_spareBit {inner : Shape} {part : Value}
    (live : Live sensorSchema (.record 0) spareBit inner part) :
    (inner, part) = (.record 0, spareBit) := by
  cases live with
  | here => rfl
  | member declared among =>
    cases declared
    cases among

theorem spareBit_typed : HasShape sensorSchema (.record 0) spareBit :=
  .object rfl rfl (by decide) nofun

theorem spareBit_faithful : Faithful sensorSchema (.record 0) spareBit where
  noNull item part live := by cases live_spareBit live
  noClash position members presence extras live := by
    cases live_spareBit live
    decide
  floats type number live := by cases live_spareBit live

/-- Of members with one name the first takes what was written of both, and a bit that no member
owns is not written. -/
theorem parse_writeValue_twins :
    (HasShape twinSchema (.record 0) twins ∧ Faithful twinSchema (.record 0) twins ∧
      writeValue twinSchema (.record 0) twins = .ok "\x7b\"x\":1,\"x\":2\x7d" ∧
      parse twinSchema (.record 0) (Utf8.encodeString "\x7b\"x\":1,\"x\":2\x7d") =
        .ok (.object [.number (.integer 2), .number (.integer 0)] ⟨[1]⟩ [])) ∧
    HasShape sensorSchema (.record 0) spareBit ∧ Faithful sensorSchema (.record 0) spareBit ∧
      spareBit.presenceBit 1 = true ∧
      writeValue sensorSchema (.record 0) spareBit = .ok "\x7b\x7d" ∧
      ∃ copy, parse sensorSchema (.record 0) (Utf8.encodeString "\x7b\x7d") = .ok copy ∧
        copy.presenceBit 1 = false := by
  constructor
  · exact ⟨twins_typed, twins_faithful, write_twins, rfl⟩
  · exact ⟨spareBit_typed, spareBit_faithful, rfl, by decide +kernel, _, rfl, rfl⟩

end IncrementalJson
