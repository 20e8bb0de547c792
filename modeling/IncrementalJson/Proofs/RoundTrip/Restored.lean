import IncrementalJson.Generator
import IncrementalJson.Number.Literal

/-!
# Values of a shape, and what reading makes of them

`HasShape` says that a value is one of a shape, and `Live` which values are part
of it as it is written: nothing is said of members that are not there, whatever
is stored in them.  `Value.restored` is what a value becomes when it is written
and read again.
-/

set_option autoImplicit false

namespace IncrementalJson

/-! ## Values of a shape -/

def NumberType.Holds : NumberType → NumberValue → Prop
  | .any, .any (.int value) => IntegerKind.signed64.holds value
  | .any, .any (.uint value) => IntegerKind.unsigned64.holds value
  | .any, .any (.float _) => True
  | .integer kind, .integer value => kind.holds value
  | .single, .single _ => True
  | .double, .double _ => True
  | _, _ => False

def FloatFormat.ReadsBack (format : FloatFormat) (layout : FloatLayout) (bits : Nat) : Prop :=
  ∀ text, format.text? layout bits = some text →
    format.readFinite (Utf8.encode text) = .ok bits

def NumberValue.ReadsBack : NumberValue → Prop
  | .any (.float bits) => binary64.ReadsBack .double bits.toNat
  | .single bits => binary32.ReadsBack .single bits.toNat
  | .double bits => binary64.ReadsBack .double bits.toNat
  | _ => True

/-- A value is one of a shape, as far as it is written. -/
inductive HasShape (schema : Schema) : Shape → Value → Prop where
  | null : HasShape schema .null .null
  | bool (value : Bool) : HasShape schema .bool (.bool value)
  | string (text : String) : HasShape schema .string (.string text)
  | number {type : NumberType} {value : NumberValue} (typed : type.Holds value) :
      HasShape schema (.number type) (.number value)
  | list {item : Shape} {items : List Value} (typed : ∀ value ∈ items, HasShape schema item value) :
      HasShape schema (.list item) (.list items)
  | unset : HasShape schema .variant .unset
  | held {value : Value} (typed : HasShape schema value.heldShape value) :
      HasShape schema .variant (.held value)
  | absent (item : Shape) : HasShape schema (.option item) .absent
  | present {item : Shape} {value : Value} (typed : HasShape schema item value) :
      HasShape schema (.option item) (.present value)
  | box {item : Shape} {value : Value} (typed : HasShape schema item value) :
      HasShape schema (.box item) value
  | object {shape : Shape} {table : Table} {members : List Value} {presence : PresenceBits 64}
      {extras : Entries Value} (declared : schema.table? shape = some table)
      (complete : members.length = table.fields.length) (distinct : extras.names.Nodup)
      (typed : ∀ member ∈ table.liveMembers members presence extras,
        HasShape schema member.2.1 member.2.2) :
      HasShape schema shape (.object members presence extras)

/-- `Live schema shape value inner part` says that `part`, of shape `inner`, is written when
`value` is. -/
inductive Live (schema : Schema) : Shape → Value → Shape → Value → Prop where
  | here (shape : Shape) (value : Value) : Live schema shape value shape value
  | item {item inner : Shape} {items : List Value} {value part : Value} (among : value ∈ items)
      (inside : Live schema item value inner part) :
      Live schema (.list item) (.list items) inner part
  | held {value part : Value} {inner : Shape}
      (inside : Live schema value.heldShape value inner part) :
      Live schema .variant (.held value) inner part
  | present {item inner : Shape} {value part : Value} (inside : Live schema item value inner part) :
      Live schema (.option item) (.present value) inner part
  | box {item inner : Shape} {value part : Value} (inside : Live schema item value inner part) :
      Live schema (.box item) value inner part
  | member {shape inner : Shape} {table : Table} {members : List Value}
      {presence : PresenceBits 64} {extras : Entries Value} {member : String × Shape × Value}
      {part : Value} (declared : schema.table? shape = some table)
      (among : member ∈ table.liveMembers members presence extras)
      (inside : Live schema member.2.1 member.2.2 inner part) :
      Live schema shape (.object members presence extras) inner part

/-! ## What reading restores -/

def NumberValue.restored : NumberValue → NumberValue
  | .any (.uint value) => .any (.ofInteger value)
  | value => value

def Table.markLive (bits : PresenceBits 64) :
    List Field → List Value → Nat → PresenceBits 64 → PresenceBits 64
  | field :: fields, value :: values, index, marked =>
    markLive bits fields values (index + 1)
      (if field.isLive index value bits then
        if field.shape.tellsPresence then marked else marked.set index true
      else marked)
  | _, _, _, marked => marked

mutual

/-- A value as it is read again once it was written: members that are not there are as their
shape starts, and no presence bit is left over. -/
def Value.restored (schema : Schema) (shape : Shape) : Value → Value
  | .number value => .number value.restored
  | .list items =>
    match shape.unbox with
    | .list item => .list (restoredItems schema item items)
    | _ => .list items
  | .object members presence extras =>
    match schema.table? shape.unbox with
    | some table =>
      .object (restoredFields schema presence table.fields members 0)
        (Table.markLive presence table.fields members 0 (.forMembers table.fields.length))
        (restoredEntries schema table.extra extras)
    | none => .object members presence extras
  | .held value => .held (value.restored schema value.heldShape)
  | .present value =>
    match shape.unbox with
    | .option item => .present (value.restored schema item)
    | _ => .present value
  | value => value

def restoredItems (schema : Schema) (item : Shape) : List Value → List Value
  | [] => []
  | value :: rest => value.restored schema item :: restoredItems schema item rest

def restoredFields (schema : Schema) (bits : PresenceBits 64) (fields : List Field) :
    List Value → Nat → List Value
  | [], _ => []
  | value :: values, index =>
    match fields with
    | [] => []
    | field :: fields =>
      (if field.isLive index value bits then value.restored schema field.shape
        else schema.initial field.shape) ::
          restoredFields schema bits fields values (index + 1)

def restoredEntries (schema : Schema) (extra : Option Shape) :
    List (String × Value) → List (String × Value)
  | [] => []
  | (name, value) :: rest =>
    match extra with
    | some item => (name, value.restored schema item) :: restoredEntries schema extra rest
    | none => []

end

end IncrementalJson
