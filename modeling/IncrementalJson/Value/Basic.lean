import IncrementalJson.Entries
import IncrementalJson.Presence
import IncrementalJson.Shape

/-!
# Values

A `Value` is what a document is read into.  It does not carry its shape: a record
holds the values of its declared members in the order of their declaration, with
the bits that say which of them are present, and its extras by name.  Indirection
leaves no trace in a value.  A variant is `unset` or holds a value of whatever
JSON type it was given.

`Shape.initial` is the value a shape starts from.
-/

set_option autoImplicit false

namespace IncrementalJson

inductive NumberValue where
  | any (number : Number)
  | integer (value : Int)
  | single (bits : BitVec 32)
  | double (bits : BitVec 64)
  deriving DecidableEq, Repr

inductive Value where
  | null
  | bool (value : Bool)
  | string (text : String)
  | number (value : NumberValue)
  | list (items : List Value)
  | object (members : List Value) (presence : PresenceBits 64) (extras : List (String × Value))
  /-- A variant that was never given a value. -/
  | unset
  /-- A variant that holds a value. -/
  | held (value : Value)
  /-- An option without a value. -/
  | absent
  /-- An option with a value. -/
  | present (value : Value)
  deriving Repr

instance : Inhabited Value := ⟨.null⟩

namespace NumberValue

def zero : NumberType → NumberValue
  | .any => .any (.int 0)
  | .integer _ => .integer 0
  | .single => .single 0
  | .double => .double 0

/-- The value as a number of open type; single precision widens exactly. -/
def toNumber : NumberValue → Number
  | .any number => number
  | .integer value => .ofInteger value
  | .single bits => .float (BitVec.ofNat 64 (binary32.convert binary64 bits.toNat))
  | .double bits => .float bits

end NumberValue

def Value.heldShape : Value → Shape
  | .bool _ => .bool
  | .string _ => .string
  | .number _ => .number .any
  | .list _ => .list .variant
  | .object .. => .map
  | _ => .null

/-- The value that a shape starts from, given those that the records start from. -/
def Shape.initialWith (record : Nat → Value) : Shape → Value
  | .null => .null
  | .bool => .bool false
  | .string => .string ""
  | .number type => .number (.zero type)
  | .variant => .unset
  | .list _ => .list []
  | .option _ => .absent
  | .box item => item.initialWith record
  | .extras _ => .object [] (.forMembers 0) []
  | .record position => record position

theorem Shape.initialWith_congr {record record' : Nat → Value} (shape : Shape)
    (same : ∀ held, shape.nested? = some held → record held = record' held) :
    shape.initialWith record = shape.initialWith record' := by
  induction shape with
  | box item ih => exact ih same
  | record position => exact same position rfl
  | _ => rfl

def Table.initialWith (record : Nat → Value) (table : Table) : Value :=
  .object (table.fields.map fun field => field.shape.initialWith record)
    (.forMembers table.fields.length) []

namespace Schema

/-- The values that the first records start from.  Each needs none but those before it. -/
def initials (schema : Schema) : Nat → List Value
  | 0 => []
  | count + 1 =>
    let before := schema.initials count
    before ++ [(schema.record count).initialWith fun position => before[position]?.getD .null]

def initialRecord (schema : Schema) (position : Nat) : Value :=
  (schema.initials (position + 1))[position]?.getD .null

def initial (schema : Schema) (shape : Shape) : Value :=
  shape.initialWith schema.initialRecord

theorem length_initials (schema : Schema) (count : Nat) :
    (schema.initials count).length = count := by
  induction count with
  | zero => rfl
  | succ count ih => simp [initials, ih]

theorem getElem?_initials (schema : Schema) {position count : Nat} (inside : position < count) :
    (schema.initials count)[position]? = some (schema.initialRecord position) := by
  induction count with
  | zero => exact absurd inside (Nat.not_lt_zero _)
  | succ count ih =>
    have length := schema.length_initials count
    rcases Nat.lt_succ_iff_lt_or_eq.mp inside with before | rfl
    · rw [initials, List.getElem?_append_left (by omega)]
      exact ih before
    · simp [initialRecord, initials, length]

theorem initialRecord_eq (schema : Schema) (position : Nat) :
    schema.initialRecord position =
      (schema.record position).initialWith schema.initialRecord := by
  have last : schema.initialRecord position = (schema.record position).initialWith
      fun held => (schema.initials position)[held]?.getD .null := by
    simp [initialRecord, initials, schema.length_initials position]
  rw [last, Table.initialWith, Table.initialWith]
  congr 1
  apply List.map_congr_left
  intro field declared
  apply Shape.initialWith_congr
  intro held holds
  rw [schema.getElem?_initials (nested_lt declared holds), Option.getD_some]

end Schema

namespace Value

mutual

/-- Equality of values: numbers as `Number.same` compares them, and extras without regard to
their order. -/
def same : Value → Value → Bool
  | .null, .null => true
  | .bool a, .bool b => a == b
  | .string a, .string b => a == b
  | .number (.any a), .number (.any b) => a.same b
  | .number (.integer a), .number (.integer b) => a == b
  | .number (.single a), .number (.single b) =>
    (binary32.decode a.toNat).sameNumber (binary32.decode b.toNat)
  | .number (.double a), .number (.double b) =>
    (binary64.decode a.toNat).sameNumber (binary64.decode b.toNat)
  | .list a, .list b => sameList a b
  | .object a p x, .object b q y =>
    sameList a b && p == q && x.length == y.length && sameEntries x y
  | .unset, .unset => true
  | .held a, .held b => same a b
  | .absent, .absent => true
  | .present a, .present b => same a b
  | _, _ => false

def sameList : List Value → List Value → Bool
  | [], [] => true
  | a :: as, b :: bs => same a b && sameList as bs
  | _, _ => false

def sameEntries : List (String × Value) → List (String × Value) → Bool
  | [], _ => true
  | (name, value) :: rest, entries =>
    (match Entries.find? entries name with
      | some other => same value other
      | none => false) && sameEntries rest entries

end

end Value

end IncrementalJson
