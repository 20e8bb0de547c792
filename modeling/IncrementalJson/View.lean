import IncrementalJson.Path
import IncrementalJson.Value.Members

/-!
# Views

A `View` looks at a value through a shape.  It sees through boxes, variants and
options that hold something, finds members by name and items by their decimal
index, and lists what is there.  If the shape is not the one the value was made
with, nothing is found, but the value can still be asked what it is.
-/

set_option autoImplicit false

namespace IncrementalJson

/-- A value, the shape it was made with, and the shape it is looked at through. -/
structure View where
  schema : Schema
  shape : Shape
  made : Shape
  value : Value

def Value.concrete (shape : Shape) (value : Value) : Shape × Value :=
  match value, shape.unbox with
  | .held value, .variant => Value.concrete value.heldShape value
  | .present value, .option item => Value.concrete item value
  | value, shape => (shape, value)

/-- The index that a text is the decimal form of: no sign, no leading zero, below `2 ^ 64`. -/
def indexOfName? (name : String) : Option Nat :=
  match name.toList with
  | [] => none
  | ['0'] => some 0
  | '0' :: _ => none
  | chars =>
    if chars.all fun char => '0' ≤ char && char ≤ '9' then
      let index := chars.foldl (fun value char => value * 10 + (char.toNat - '0'.toNat)) 0
      if index < 2 ^ 64 then some index else none
    else none

namespace View

def ofValue (schema : Schema) (shape : Shape) (value : Value) : View :=
  ⟨schema, shape, shape, value⟩

def matched (view : View) : Bool := view.shape = view.made

def resolve (view : View) : View :=
  if view.matched then
    let (shape, value) := view.value.concrete view.shape
    ofValue view.schema shape value
  else view

/-- The kind of the value; only of an unset variant it is `variant`. -/
def jsonType (view : View) : JsonType := view.resolve.shape.jsonType

def members (view : View) : List (String × View) :=
  let seen := view.resolve
  if seen.matched then
    match seen.value, seen.shape with
    | .list items, .list item =>
      items.zipIdx.map fun (value, index) => (toString index, ofValue view.schema item value)
    | .object members bits extras, shape =>
      match view.schema.table? shape with
      | some table =>
        (table.liveMembers members bits extras).map fun (name, shape, value) =>
          (name, ofValue view.schema shape value)
      | none => []
    | _, _ => []
  else []

def size (view : View) : Nat :=
  let seen := view.resolve
  if seen.matched then
    match seen.value, seen.shape with
    | .list items, .list _ => items.length
    | .object members bits extras, shape =>
      match view.schema.table? shape with
      | some table => table.memberCount members bits extras
      | none => 0
    | _, _ => 0
  else 0

def get? (view : View) (name : String) : Option View :=
  let seen := view.resolve
  if seen.matched then
    match seen.value, seen.shape with
    | .list items, .list item =>
      (indexOfName? name).bind fun index =>
        items[index]?.map fun value => ofValue view.schema item value
    | .object members bits extras, shape =>
      (view.schema.table? shape).bind fun table =>
        (table.member? members bits extras name).map fun (shape, value) =>
          ofValue view.schema shape value
    | _, _ => none
  else none

def follow? (view : View) (names : List String) : Option View :=
  names.foldlM (fun place name => place.get? name) view

def find? (view : View) (path : String) : Option View :=
  view.follow? (Path.names path)

def holds (view : View) (shape : Shape) : Bool :=
  view.resolve.made = shape

def string? (view : View) : Option String :=
  match view.resolve with
  | ⟨_, _, .string, .string text⟩ => some text
  | _ => none

def bool? (view : View) : Option Bool :=
  match view.resolve with
  | ⟨_, _, .bool, .bool value⟩ => some value
  | _ => none

def number? (view : View) : Option Number :=
  let seen := view.resolve
  if seen.matched then
    match seen.value with
    | .number value => some value.toNumber
    | _ => none
  else none

def float64? (view : View) : Option (BitVec 64) :=
  view.number?.map Number.toFloat64

def int64? (view : View) : Option Int :=
  view.number?.bind Number.toInt64?

def isPresent (view : View) : Bool :=
  view.matched &&
    match view.shape, view.value with
    | .option _, .absent => false
    | _, _ => true

def isNull (view : View) : Bool :=
  !view.isPresent || view.jsonType = .null

/-- The value brought back to where its shape starts from, if it is looked at through its own
shape; another value is left alone. -/
def reset (view : View) : Value :=
  if view.matched then view.schema.initial view.shape else view.value

end View

end IncrementalJson
