import IncrementalJson.Text.Quoted
import IncrementalJson.Value.Members

/-!
# Records in hand

What a program does with a record or a free-form object that it holds: ask which
members are there, say which are, store values in declared members and among the
extras.  Storing a value in a declared member does not touch its presence bit,
and an optional member takes no notice of being called present.
-/

set_option autoImplicit false

namespace IncrementalJson

def Presence.description : Presence → String
  | .bit index => "Bit(" ++ toString index ++ ")"
  | .pointer => "Pointer"

def Field.description (field : Field) (index : Nat) : String :=
  "Field \x7b name: " ++ Text.quote field.name ++ ", presence: " ++
    (field.presence index).description ++ " \x7d"

namespace Value

def presenceBit : Value → Nat → Bool
  | .object _ bits _, index => bits.get index
  | _, _ => false

def setPresenceBit : Value → Nat → Bool → Value
  | .object members bits extras, index, isThere =>
    .object members (bits.set index isThere) extras
  | value, _, _ => value

/-- The value of a declared member, there or not. -/
def stored? : Value → Nat → Option Value
  | .object members _ _, index => members[index]?
  | _, _ => none

def store : Value → Nat → Value → Value
  | .object members bits extras, index, item => .object (members.set index item) bits extras
  | value, _, _ => value

def extras : Value → Entries Value
  | .object _ _ entries => entries
  | _ => []

def setExtras : Value → Entries Value → Value
  | .object members bits _, entries => .object members bits entries
  | value, _ => value

end Value

namespace Table

def has (table : Table) (value : Value) (name : String) : Bool :=
  match value with
  | .object members bits extras =>
    match table.lookup? name with
    | some (index, field) =>
      match members[index]? with
      | some value => field.isLive index value bits
      | none => false
    | none => table.extra.isSome && (Entries.names extras).contains name
  | _ => false

/-- Says whether a declared member is there; the answer tells whether the name is declared. -/
def setPresent (table : Table) (value : Value) (name : String) (present : Bool) : Value × Bool :=
  match table.lookup? name with
  | some (index, field) =>
    match field.presence index with
    | .bit bit => (value.setPresenceBit bit present, true)
    | .pointer => (value, true)
  | none => (value, false)

def markAllPresent (table : Table) (value : Value) : Value :=
  table.fields.zipIdx.foldl (fun value (field, index) =>
    match field.presence index with
    | .bit bit => value.setPresenceBit bit true
    | .pointer => value) value

end Table

end IncrementalJson
