import IncrementalJson.Error
import IncrementalJson.Number.Basic

/-!
# Shapes and schemas

A `Shape` is the type of the values that a document is read into and written
from.  Records are declared in a `Schema` and named by their position there, so
that a record can hold others, and itself, at any depth.  A `Table` lists what a
record, or a free-form object, may have for members.
-/

set_option autoImplicit false

namespace IncrementalJson

inductive NumberType where
  /-- Whatever the literal calls for. -/
  | any
  | integer (kind : IntegerKind)
  | single
  | double
  deriving DecidableEq, Repr

inductive Shape where
  | null
  | bool
  | string
  | number (type : NumberType)
  /-- A value of any JSON type, which says itself which it is. -/
  | variant
  | list (item : Shape)
  /-- A value that may be absent, which is written as null. -/
  | option (item : Shape)
  /-- A value held indirectly. -/
  | box (item : Shape)
  /-- An object whose members have any names and one shape. -/
  | extras (item : Shape)
  /-- The record declared at a position of the schema. -/
  | record (position : Nat)
  deriving DecidableEq, Repr, Inhabited

namespace Shape

abbrev map : Shape := .extras .variant

def unbox : Shape → Shape
  | box item => item.unbox
  | shape => shape

def jsonType : Shape → JsonType
  | null => .null
  | bool => .bool
  | string => .string
  | number _ => .number
  | variant => .variant
  | list _ => .array
  | option item => item.jsonType
  | box item => item.jsonType
  | extras _ => .object
  | record _ => .object

/-- Whether a member of the shape needs no presence bit, because its value says whether it is
there. -/
def tellsPresence : Shape → Bool
  | option _ => true
  | _ => false

/-- The record that every value of the shape holds, if there is one. -/
def nested? : Shape → Option Nat
  | record position => some position
  | box item => item.nested?
  | _ => none

end Shape

structure Field where
  name : String
  shape : Shape
  deriving DecidableEq, Repr

/-- The declared members of an object, and the shape of further ones if they are admitted. -/
structure Table where
  fields : List Field
  extra : Option Shape
  deriving DecidableEq, Repr

namespace Table

def ofExtra (item : Shape) : Table := ⟨[], some item⟩

def find? (table : Table) (name : String) : Option Nat :=
  table.fields.findIdx? fun field => field.name = name

def lookup? (table : Table) (name : String) : Option (Nat × Field) :=
  (table.find? name).bind fun index => table.fields[index]?.map fun field => (index, field)

end Table

/-- No record holds itself: what a record holds with every value of it is declared before. -/
def Grounded (records : List Table) : Prop :=
  ∀ entry ∈ records.zipIdx, ∀ field ∈ entry.1.fields, ∀ held ∈ field.shape.nested?,
    held < entry.2

instance (records : List Table) : Decidable (Grounded records) :=
  inferInstanceAs (Decidable (∀ _ ∈ _, _))

/-- The records that shapes may name, in an order in which each has a value to start from.  A record
may name any other, and itself, inside a list, an option or extras. -/
structure Schema where
  records : List Table
  grounded : Grounded records
  deriving DecidableEq, Repr

def Schema.empty : Schema := ⟨[], by decide⟩

def Schema.ofRecords? (records : List Table) : Option Schema :=
  if grounded : Grounded records then some ⟨records, grounded⟩ else none

/-- The record declared at a position; a position beyond the declarations counts as a record
without members. -/
def Schema.record (schema : Schema) (position : Nat) : Table :=
  (schema.records[position]?).getD ⟨[], none⟩

theorem Schema.nested_lt {schema : Schema} {position held : Nat} {field : Field}
    (declared : field ∈ (schema.record position).fields)
    (holds : field.shape.nested? = some held) : held < position := by
  rw [record] at declared
  cases found : schema.records[position]? with
  | none =>
    rw [found] at declared
    cases declared
  | some table =>
    rw [found] at declared
    have entry : (table, position) ∈ schema.records.zipIdx := by
      rw [List.mk_mem_zipIdx_iff_getElem?]
      exact found
    exact schema.grounded _ entry field declared held holds

def Schema.table? (schema : Schema) : Shape → Option Table
  | .extras item => some (.ofExtra item)
  | .record position => some (schema.record position)
  | _ => none

end IncrementalJson
