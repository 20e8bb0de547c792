import IncrementalJson.Frame
import IncrementalJson.Proofs.Grammar.Syntax

/-!
# What a syntax tree means as a value of a shape

`Json.readAs` reads a syntax tree as a value of a shape, if it has one: by
recursion on the tree, without states, bytes or a stack.  Members are taken in
the order of the text, so that the last of several with one name counts.
-/

set_option autoImplicit false

namespace IncrementalJson

/-- The text that a string stands for, if its surrogates are paired. -/
def textOf? (items : List StringItem) : Option String :=
  if surrogatesPaired items then some (String.ofList (unescape items)) else none

def Literal.bytes (literal : Literal) : List UInt8 := Utf8.encode literal.text

def Literal.float? (literal : Literal) (format : FloatFormat) : Option Nat :=
  (format.readFinite literal.bytes).toOption

/-- The number of open type that a literal names. -/
def Literal.number? (literal : Literal) : Option Number :=
  let double := (literal.float? binary64).map fun bits => .float (BitVec.ofNat 64 bits)
  match literal.integer? with
  | some value =>
    if IntegerKind.signed64.holds value then some (.int value)
    else if IntegerKind.unsigned64.holds value then some (.uint value.toNat)
    else double
  | none => double

def Literal.readAs (literal : Literal) : NumberType → Option NumberValue
  | .any => literal.number?.map .any
  | .integer kind => (literal.integer?.filter kind.holds).map .integer
  | .single => (literal.float? binary32).map fun bits => .single (BitVec.ofNat 32 bits)
  | .double => (literal.float? binary64).map fun bits => .double (BitVec.ofNat 64 bits)

structure MembersRead where
  members : List Value
  presence : PresenceBits 64
  extras : Entries Value

def MembersRead.start (schema : Schema) (table : Table) : MembersRead where
  members := table.fields.map fun field => schema.initial field.shape
  presence := .forMembers table.fields.length
  extras := []

inductive MemberSlot where
  | field (index : Nat) (field : Field)
  | extra (name : String) (shape : Shape)

def MemberSlot.shape : MemberSlot → Shape
  | .field _ declared => declared.shape
  | .extra _ shape => shape

def MembersRead.take (read : MembersRead) (value : Value) : MemberSlot → MembersRead
  | .field index field =>
    { read with
      members := read.members.set index value
      presence :=
        if field.shape.tellsPresence then read.presence else read.presence.set index true }
  | .extra name _ => { read with extras := read.extras.insert name value }

def Table.memberSlot? (table : Table) (name : String) : Option MemberSlot :=
  match table.lookup? name with
  | some (index, field) => some (.field index field)
  | none => table.extra.map fun shape => .extra name shape

namespace Shape

def item? : Shape → Option Shape
  | .list item => some item
  | _ => none

def core : Shape → Shape
  | option item => item.core
  | box item => item.core
  | shape => shape

def hasOption : Shape → Bool
  | option _ => true
  | box item => item.hasOption
  | _ => false

def wrap : Shape → Value → Value
  | option item, value => .present (item.wrap value)
  | box item, value => item.wrap value
  | _, value => value

end Shape

namespace Json

/-- The shape that a value of any type is held in. -/
def heldShape : Json → Shape
  | null => .null
  | bool _ => .bool
  | number _ => .number .any
  | string _ => .string
  | array _ => .list .variant
  | object _ => .map

/-- The shape behind options, boxes and variants that a value is read in. -/
def innerShape (json : Json) (shape : Shape) : Shape :=
  if shape.core = .variant then json.heldShape else shape.core

def wrap (shape : Shape) (value : Value) : Value :=
  shape.wrap (if shape.core = .variant then .held value else value)

mutual

def readAs (schema : Schema) (shape : Shape) (json : Json) : Option Value :=
  match json with
  | null =>
    if shape.hasOption then some .absent
    else if innerShape null shape = .null then some (wrap shape .null) else none
  | bool value =>
    if innerShape (bool value) shape = .bool then some (wrap shape (.bool value)) else none
  | number literal =>
    match innerShape (number literal) shape with
    | .number type => (literal.readAs type).map fun value => wrap shape (.number value)
    | _ => none
  | string items =>
    if innerShape (string items) shape = .string then
      (textOf? items).map fun text => wrap shape (.string text)
    else none
  | array items =>
    match (innerShape (array items) shape).item? with
    | some item => (readItems schema item items).map fun items => wrap shape (.list items)
    | none => none
  | object members =>
    match schema.table? (innerShape (object members) shape) with
    | some table =>
      (readMembers schema table members (.start schema table)).map fun read =>
        wrap shape (.object read.members read.presence read.extras)
    | none => none

def readItems (schema : Schema) (item : Shape) (items : List Json) : Option (List Value) :=
  match items with
  | [] => some []
  | json :: rest =>
    match json.readAs schema item with
    | some value => (readItems schema item rest).map (value :: ·)
    | none => none

def readMembers (schema : Schema) (table : Table) (members : List (List StringItem × Json))
    (read : MembersRead) : Option MembersRead :=
  match members with
  | [] => some read
  | (name, json) :: rest =>
    match (textOf? name).bind table.memberSlot? with
    | some slot =>
      match json.readAs schema slot.shape with
      | some value => readMembers schema table rest (read.take value slot)
      | none => none
    | none => none

end

end Json

end IncrementalJson
