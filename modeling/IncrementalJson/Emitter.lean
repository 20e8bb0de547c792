import IncrementalJson.Output
import IncrementalJson.Value.Members
import IncrementalJson.Value.Text

/-!
# Frames that write

An `Emitter` writes one value.  It looks for room before every token and pauses
where there is none; a plain run of a string is cut to the room that is left, and
whatever else does not fit is spilled.  Items and members are written by emitters
of their own, which their container calls.  Options, boxes and variants add no
frame.
-/

set_option autoImplicit false

namespace IncrementalJson

open Ascii

/-! ## Strings -/

inductive StringPhase where
  | opening
  | body
  | closing
  deriving DecidableEq, Repr

structure StringWriter where
  phase : StringPhase := .opening
  rest : List UInt8 := []
  deriving DecidableEq, Repr

namespace StringWriter

def ofText (text : String) : StringWriter where
  rest := Utf8.encodeString text

/-- Whether an octet is written as it is. -/
def isPlain (octet : UInt8) : Bool := (Escape.escape? octet).isNone

def emitClosing (rest : List UInt8) (out : Output) : StringWriter × Output × Bool :=
  if out.isFull then (⟨.closing, rest⟩, out, false)
  else (⟨.closing, rest⟩, out.token [quote], true)

def emitBody (rest : List UInt8) (out : Output) : StringWriter × Output × Bool :=
  if _full : out.isFull then (⟨.body, rest⟩, out, false)
  else match rest with
    | [] => emitClosing [] out
    | first :: later =>
      match Escape.escape? first with
      | some sequence => emitBody later (out.token sequence)
      | none =>
        let run := first :: later.takeWhile isPlain
        emitBody ((first :: later).drop (min run.length out.room)) (out.put run)
termination_by rest.length
decreasing_by
  · simp
  · have room := Output.room_pos _full
    simp only [List.length_drop, List.length_cons]
    omega

/-- Writes as much as there is room for, and tells whether the closing quote is out. -/
def emit (writer : StringWriter) (out : Output) : StringWriter × Output × Bool :=
  match writer.phase with
  | .opening =>
    if out.isFull then (writer, out, false) else emitBody writer.rest (out.token [quote])
  | .body => emitBody writer.rest out
  | .closing => emitClosing writer.rest out

end StringWriter

/-! ## Containers -/

inductive ItemsPhase where
  | opening
  /-- In front of an item, or of the closing bracket if there is none left. -/
  | next
  | closing
  deriving DecidableEq, Repr

inductive MembersPhase where
  | opening
  /-- In front of a member, or of the closing brace if there is none left. -/
  | next
  /-- Inside a name. -/
  | name
  | colon
  | closing
  deriving DecidableEq, Repr

structure MembersWriter where
  phase : MembersPhase := .opening
  presence : PresenceBits 64
  fields : List Field
  values : List Value
  /-- The position of the next declared member. -/
  index : Nat := 0
  extra : Option Shape
  extras : Entries Value
  /-- Whether a member was written, so that the next has a comma in front. -/
  wroteMember : Bool := false
  name : StringWriter := {}
  /-- The value of the member whose name is being written. -/
  pending : Option (Shape × Value) := none

inductive Emitter where
  /-- A number or a literal, which is a single token. -/
  | token (bytes : List UInt8)
  | string (writer : StringWriter)
  /-- The items still to come; `begun` tells whether there was one before. -/
  | array (item : Shape) (phase : ItemsPhase) (begun : Bool) (items : List Value)
  | object (writer : MembersWriter)

abbrev Emitted := Emitter × Output × Except GenerateError (Step Emitter)

namespace Emitter

def ofString (text : String) : Emitter := .string (.ofText text)

def ofItems (item : Shape) (items : List Value) : Emitter := .array item .opening false items

def ofObject (table : Table) (members : List Value) (presence : PresenceBits 64)
    (extras : Entries Value) : Emitter :=
  .object
    { presence
      fields := table.fields
      values := members
      extra := table.extra
      extras }

def start (schema : Schema) (shape : Shape) (value : Value) : Except GenerateError Emitter :=
  match value, shape.unbox with
  | .null, .null => .ok (.token nullText)
  | .bool value, .bool => .ok (.token (boolText value))
  | .string text, .string => .ok (ofString text)
  | .number value, .number _ =>
    match value.text? with
    | some text => .ok (.token (Utf8.encode text))
    | none => .error .nonFiniteNumber
  | .list items, .list item => .ok (ofItems item items)
  | .unset, .variant => .error .unsetVariant
  | .held value, .variant => start schema value.heldShape value
  | .absent, .option _ => .ok (.token nullText)
  | .present value, .option item => start schema item value
  | .object members presence extras, shape =>
    match schema.table? shape with
    | some table => .ok (ofObject table members presence extras)
    | none => .error (.unexpected .slotTypeMismatch)
  | _, _ => .error (.unexpected .slotTypeMismatch)

def resumeToken (bytes : List UInt8) (out : Output) : Emitted :=
  if out.isFull then (.token bytes, out, .ok .pause)
  else (.token bytes, out.token bytes, .ok .complete)

def resumeString (writer : StringWriter) (out : Output) : Emitted :=
  match writer.emit out with
  | (writer, out, false) => (.string writer, out, .ok .pause)
  | (writer, out, true) => (.string writer, out, .ok .complete)

/-! ### Arrays -/

def arrayClosing (item : Shape) (begun : Bool) (items : List Value) (out : Output) : Emitted :=
  if out.isFull then (.array item .closing begun items, out, .ok .pause)
  else (.array item .closing begun items, out.token [rightBracket], .ok .complete)

/-- An array in front of an item.  The comma goes out together with the call. -/
def arrayNext (schema : Schema) (item : Shape) (begun : Bool) (items : List Value)
    (out : Output) : Emitted :=
  if out.isFull then (.array item .next begun items, out, .ok .pause)
  else match items with
    | [] => arrayClosing item begun [] out
    | value :: rest =>
      (.array item .next true rest, if begun then out.token [comma] else out,
        (start schema item value).map .call)

def resumeArray (schema : Schema) (item : Shape) (phase : ItemsPhase) (begun : Bool)
    (items : List Value) (out : Output) : Emitted :=
  match phase with
  | .opening =>
    if out.isFull then (.array item .opening begun items, out, .ok .pause)
    else arrayNext schema item begun items (out.token [leftBracket])
  | .next => arrayNext schema item begun items out
  | .closing => arrayClosing item begun items out

end Emitter

/-! ### Objects -/

namespace MembersWriter

/-- The next declared member that is there, from a position on, and what comes behind it. -/
def nextField? (presence : PresenceBits 64) : List Field → List Value → Nat →
    Option (Field × Value × List Field × List Value × Nat)
  | field :: fields, value :: values, index =>
    if field.isLive index value presence then some (field, value, fields, values, index + 1)
    else nextField? presence fields values (index + 1)
  | _, _, _ => none

def advance? (writer : MembersWriter) : Option MembersWriter :=
  match nextField? writer.presence writer.fields writer.values writer.index with
  | some (field, value, fields, values, index) =>
    some { writer with
      fields, values, index
      name := .ofText field.name
      pending := some (field.shape, value) }
  | none =>
    match writer.extra, writer.extras with
    | some item, (name, value) :: extras =>
      some { writer with
        fields := []
        values := []
        extras
        name := .ofText name
        pending := some (item, value) }
    | _, _ => none

def resumeClosing (writer : MembersWriter) (out : Output) : Emitted :=
  if out.isFull then (.object { writer with phase := .closing }, out, .ok .pause)
  else (.object { writer with phase := .closing }, out.token [rightBrace], .ok .complete)

/-- An object behind a name.  The colon goes out together with the call. -/
def resumeColon (schema : Schema) (writer : MembersWriter) (out : Output) : Emitted :=
  if out.isFull then (.object { writer with phase := .colon }, out, .ok .pause)
  else
    let later : MembersWriter :=
      { writer with
        phase := .next
        wroteMember := true
        pending := none }
    (.object later, out.token [colon],
      match writer.pending with
      | some (shape, value) => (Emitter.start schema shape value).map .call
      | none => .error (.unexpected .resumedAfterCompletion))

def resumeName (schema : Schema) (writer : MembersWriter) (out : Output) : Emitted :=
  match writer.name.emit out with
  | (name, out, false) => (.object { writer with phase := .name, name }, out, .ok .pause)
  | (name, out, true) => resumeColon schema { writer with name } out

def resumeNext (schema : Schema) (writer : MembersWriter) (out : Output) : Emitted :=
  if out.isFull then (.object { writer with phase := .next }, out, .ok .pause)
  else match writer.advance? with
    | none => resumeClosing writer out
    | some writer =>
      resumeName schema writer (if writer.wroteMember then out.token [comma] else out)

def resume (schema : Schema) (writer : MembersWriter) (out : Output) : Emitted :=
  match writer.phase with
  | .opening =>
    if out.isFull then (.object writer, out, .ok .pause)
    else resumeNext schema writer (out.token [leftBrace])
  | .next => resumeNext schema writer out
  | .name => resumeName schema writer out
  | .colon => resumeColon schema writer out
  | .closing => resumeClosing writer out

end MembersWriter

def Emitter.resume (schema : Schema) (emitter : Emitter) (out : Output) : Emitted :=
  match emitter with
  | .token bytes => resumeToken bytes out
  | .string writer => resumeString writer out
  | .array item phase begun items => resumeArray schema item phase begun items out
  | .object writer => writer.resume schema out

end IncrementalJson
