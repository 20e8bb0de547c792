import IncrementalJson.Scan
import IncrementalJson.Stack.Basic
import IncrementalJson.Value.Basic

/-!
# Frames that read

A `Frame` reads one value of a shape, and can wait between any two bytes.  It is
offered an input and takes from it what belongs to its value, until it calls a
frame for a part of the value, or completes, or the input runs out.  A number
that lies in one input is read from there; the bytes of one that does not are
collected in the scratch region, and so are the octets of a member name.  A
number completes only in front of a byte that is not part of it, which it leaves
alone, or at the end of the document.  Options and boxes add no frame of their
own: the frame of an option decides at its first byte whether it reads null or
its item.
-/

set_option autoImplicit false

namespace IncrementalJson

open Ascii

inductive ArrayPhase where
  /-- In front of the opening bracket. -/
  | opening
  /-- In front of an element, or of the closing bracket if there is no element yet. -/
  | element
  /-- An element is being read. -/
  | pending
  /-- Behind an element. -/
  | comma
  deriving DecidableEq, Repr

inductive ObjectPhase where
  /-- In front of the opening brace. -/
  | opening
  /-- In front of a name, or of the closing brace if it would be the first name. -/
  | name (first : Bool)
  /-- Inside a name, whose octets from earlier inputs are in the scratch region. -/
  | inName (lexer : StringLexer)
  /-- Behind a name. -/
  | colon
  /-- A member is being read. -/
  | pending
  /-- Behind a member. -/
  | comma
  deriving DecidableEq, Repr

/-- Where the member that is being read belongs. -/
inductive Target where
  | field (index : Nat)
  | extra (index : Nat)
  deriving DecidableEq, Repr

/-- A value part way through.  Literals keep the bytes still to come, once they have begun; a
number is spilled while its bytes so far are in the scratch region. -/
inductive FrameBody where
  | null (rest : Option (List UInt8))
  | bool (value : Bool) (rest : Option (List UInt8))
  | string (lexer : Option StringLexer) (octets : Array UInt8)
  | number (type : NumberType) (lexer : NumberLexer) (spilled : Bool) (result : Option NumberValue)
  | array (item : Shape) (phase : ArrayPhase) (items : Array Value)
  | object (table : Table) (phase : ObjectPhase) (target : Option Target)
      (members : List Value) (presence : PresenceBits 64) (extras : Entries Value)
  | variant (held : Option Value)

/-- A value of a shape part way through.  The frame of a box or an option has the frame of its
item inside and forwards to it; an option has one only when its first byte has turned out not to
begin null. -/
inductive Frame where
  | core (shape : Shape) (body : FrameBody)
  | box (item : Shape) (inner : Frame)
  /-- An option whose first byte has not come. -/
  | undecided (item : Shape)
  /-- An option that reads null, whose bytes still to come are known. -/
  | absent (item : Shape) (rest : List UInt8)
  | present (item : Shape) (inner : Frame)

def Frame.shape : Frame → Shape
  | .core shape _ => shape
  | .box item _ => .box item
  | .undecided item | .absent item _ | .present item _ => .option item

def FrameBody.start (schema : Schema) : Shape → FrameBody
  | .bool => .bool false none
  | .string => .string none #[]
  | .number type => .number type {} false none
  | .variant => .variant none
  | .list item => .array item .opening #[]
  | .extras item => .object (.ofExtra item) .opening none [] (.forMembers 0) []
  | .record position =>
    let table := schema.record position
    .object table .opening none (table.fields.map fun field => schema.initial field.shape)
      (.forMembers table.fields.length) []
  | _ => .null none

def Frame.start (schema : Schema) : Shape → Frame
  | .box item => .box item (start schema item)
  | .option item => .undecided item
  | shape => .core shape (.start schema shape)

structure Advance (β : Type) where
  body : β
  input : Input
  scratch : Scratch
  step : Step Frame

def literalStep (rest : List UInt8) : Step Frame :=
  if rest.isEmpty then .complete else .pause

def NumberType.read (type : NumberType) (lexer : NumberLexer) (text : List UInt8) :
    Except ParseError NumberValue :=
  if !lexer.canEnd then .error .invalidNumber
  else match type with
    | .any => (lexer.readNumber text).map .any
    | .integer kind => (lexer.readInteger kind).map .integer
    | .single => (binary32.readFinite text).map fun bits => .single (BitVec.ofNat 32 bits)
    | .double => (binary64.readFinite text).map fun bits => .double (BitVec.ofNat 64 bits)

def heldShapeOf? (byte : UInt8) : Option Shape :=
  if byte = Ascii.quote then some .string
  else if byte = leftBrace then some .map
  else if byte = leftBracket then some (.list .variant)
  else if byte = Ascii.minus ∨ isDigit byte then some (.number .any)
  else if byte = lowerT ∨ byte = lowerF then some .bool
  else if byte = lowerN then some .null
  else none

def Table.findSplit? (table : Table) (front back : List UInt8) : Option Nat :=
  table.fields.findIdx? fun field =>
    let name := Utf8.encodeString field.name
    name.length = front.length + back.length ∧
      name.take front.length = front ∧ name.drop front.length = back

/-- Where the member of a name belongs, and the entries with a place for it: a name that comes for
the first time stands for the value that its shape starts from until then. -/
def Table.resolve (schema : Schema) (table : Table) (extras : Entries Value)
    (front back : List UInt8) : Except ParseError (Target × Entries Value) :=
  match table.findSplit? front back with
  | some index => .ok (.field index, extras)
  | none =>
    match Utf8.decodeString (front ++ back) with
    | .error error => .error (.invalidUtf8 error)
    | .ok name =>
      match table.extra with
      | some shape =>
        .ok (.extra (extras.position name), extras.reserve name (schema.initial shape))
      | none => .error (.unknownMember name)

/-- The shape of a member; without extras it is never asked for that of an extra one. -/
def Table.memberShape? (table : Table) : Target → Option Shape
  | .field index => table.fields[index]?.map Field.shape
  | .extra _ => some (table.extra.getD .null)

namespace FrameBody

def endNumber (type : NumberType) (lexer : NumberLexer) (text : Array UInt8) (rest : Input)
    (scratch : Scratch) : Except ParseError (Advance FrameBody) :=
  (type.read lexer text.toList).map fun value =>
    ⟨.number type lexer false (some value), rest, scratch, .complete⟩

def resumeNumber (type : NumberType) (lexer : NumberLexer) (spilled : Bool)
    (result : Option NumberValue) (input : Input) (scratch : Scratch) :
    Except ParseError (Advance FrameBody) :=
  match lexer.scan input with
  | .error error => .error error
  | .ok ⟨lexer, text, rest, false⟩ =>
    .ok ⟨.number type lexer true result, rest, scratch ++ text, .pause⟩
  | .ok ⟨lexer, text, rest, true⟩ =>
    if spilled then endNumber type lexer (scratch ++ text) rest #[]
    else endNumber type lexer text rest scratch

def startNumber (type : NumberType) (lexer : NumberLexer) (spilled : Bool)
    (result : Option NumberValue) (input : Input) (scratch : Scratch) :
    Except ParseError (Advance FrameBody) :=
  if lexer.part = .nothing then
    input.significant (fun rest => ⟨.number type lexer spilled result, rest, scratch, .pause⟩)
      fun byte here =>
        if byte = Ascii.minus ∨ isDigit byte then
          resumeNumber type lexer spilled result here scratch
        else .error (.typeMismatch .number here.offset)
  else resumeNumber type lexer spilled result input scratch

def resumeNull (rest : List UInt8) (input : Input) (scratch : Scratch) :
    Except ParseError (Advance FrameBody) :=
  (input.matchLiteral rest).map fun (rest, input) =>
    ⟨.null (some rest), input, scratch, literalStep rest⟩

def resumeBool (value : Bool) (rest : List UInt8) (input : Input) (scratch : Scratch) :
    Except ParseError (Advance FrameBody) :=
  (input.matchLiteral rest).map fun (rest, input) =>
    ⟨.bool value (some rest), input, scratch, literalStep rest⟩

def resumeString (lexer : StringLexer) (octets : Array UInt8) (input : Input)
    (scratch : Scratch) : Except ParseError (Advance FrameBody) :=
  match lexer.scan octets input with
  | .error error => .error error
  | .ok (.pending lexer octets rest) => .ok ⟨.string (some lexer) octets, rest, scratch, .pause⟩
  | .ok (.closed octets tail rest) =>
    .ok ⟨.string (some {}) (octets ++ tail), rest, scratch, .complete⟩

def arrayElement (schema : Schema) (item : Shape) (items : Array Value) (input : Input)
    (scratch : Scratch) : Except ParseError (Advance FrameBody) :=
  input.significant (fun rest => ⟨.array item .element items, rest, scratch, .pause⟩)
    fun byte here =>
      if byte = rightBracket ∧ items.isEmpty then
        .ok ⟨.array item .element items, here.next, scratch, .complete⟩
      else .ok ⟨.array item .pending items, here, scratch, .call (.start schema item)⟩

def resumeArray (schema : Schema) (item : Shape) (phase : ArrayPhase) (items : Array Value)
    (input : Input) (scratch : Scratch) : Except ParseError (Advance FrameBody) :=
  let wait (rest : Input) : Advance FrameBody := ⟨.array item phase items, rest, scratch, .pause⟩
  match phase with
  | .opening =>
    input.significant wait fun byte here =>
      if byte = leftBracket then arrayElement schema item items here.next scratch
      else .error (.typeMismatch .array here.offset)
  | .element => arrayElement schema item items input scratch
  | .comma =>
    input.significant wait fun byte here =>
      if byte = comma then arrayElement schema item items here.next scratch
      else if byte = rightBracket then
        .ok ⟨.array item .comma items, here.next, scratch, .complete⟩
      else .error (.unexpectedByte byte here.offset)
  | .pending =>
    input.significant wait fun _ _ => .error (.unexpected .resumedAfterCompletion)

/-- An object behind a name; behind the colon it calls the frame of the member. -/
def objectColon (schema : Schema) (table : Table) (target : Option Target)
    (members : List Value) (presence : PresenceBits 64) (extras : Entries Value)
    (input : Input) (scratch : Scratch) : Except ParseError (Advance FrameBody) :=
  input.significant
    (fun rest => ⟨.object table .colon target members presence extras, rest, scratch, .pause⟩)
    fun byte here =>
      if byte = colon then
        match target with
        | some target =>
          match table.memberShape? target with
          | some shape =>
            .ok ⟨.object table .pending (some target) members presence extras, here.next, scratch,
              .call (.start schema shape)⟩
          | none => .error (.unexpected .slotTypeMismatch)
        | none => .error (.unexpected .resumedAfterCompletion)
      else .error (.unexpectedByte byte here.offset)

def objectInName (schema : Schema) (table : Table) (lexer : StringLexer) (target : Option Target)
    (members : List Value) (presence : PresenceBits 64) (extras : Entries Value)
    (input : Input) (scratch : Scratch) : Except ParseError (Advance FrameBody) :=
  match lexer.scan scratch input with
  | .error error => .error error
  | .ok (.pending lexer scratch rest) =>
    .ok ⟨.object table (.inName lexer) target members presence extras, rest, scratch, .pause⟩
  | .ok (.closed scratch tail rest) =>
    match table.resolve schema extras scratch.toList tail.toList with
    | .error error => .error error
    | .ok (target, extras) =>
      objectColon schema table (some target) members presence extras rest #[]

def objectName (schema : Schema) (table : Table) (first : Bool) (target : Option Target)
    (members : List Value) (presence : PresenceBits 64) (extras : Entries Value)
    (input : Input) (scratch : Scratch) : Except ParseError (Advance FrameBody) :=
  input.significant
    (fun rest =>
      ⟨.object table (.name first) target members presence extras, rest, scratch, .pause⟩)
    fun byte here =>
      if byte = Ascii.quote then
        objectInName schema table {} target members presence extras here.next scratch
      else if byte = rightBrace ∧ first then
        .ok ⟨.object table (.name first) target members presence extras, here.next, scratch,
          .complete⟩
      else .error (.unexpectedByte byte here.offset)

def resumeObject (schema : Schema) (table : Table) (phase : ObjectPhase) (target : Option Target)
    (members : List Value) (presence : PresenceBits 64) (extras : Entries Value)
    (input : Input) (scratch : Scratch) : Except ParseError (Advance FrameBody) :=
  let wait (rest : Input) : Advance FrameBody :=
    ⟨.object table phase target members presence extras, rest, scratch, .pause⟩
  match phase with
  | .opening =>
    input.significant wait fun byte here =>
      if byte = leftBrace then
        objectName schema table true target members presence extras here.next scratch
      else .error (.typeMismatch .object here.offset)
  | .name first => objectName schema table first target members presence extras input scratch
  | .inName lexer => objectInName schema table lexer target members presence extras input scratch
  | .colon => objectColon schema table target members presence extras input scratch
  | .comma =>
    input.significant wait fun byte here =>
      if byte = comma then
        objectName schema table false target members presence extras here.next scratch
      else if byte = rightBrace then
        .ok ⟨.object table .comma target members presence extras, here.next, scratch, .complete⟩
      else .error (.unexpectedByte byte here.offset)
  | .pending =>
    input.significant wait fun _ _ => .error (.unexpected .resumedAfterCompletion)

def resume (schema : Schema) (input : Input) (scratch : Scratch) :
    FrameBody → Except ParseError (Advance FrameBody)
  | .null none =>
    input.significant (fun rest => ⟨.null none, rest, scratch, .pause⟩) fun byte here =>
      if byte = lowerN then resumeNull nullText here scratch
      else .error (.typeMismatch .null here.offset)
  | .null (some rest) => resumeNull rest input scratch
  | .bool value none =>
    input.significant (fun rest => ⟨.bool value none, rest, scratch, .pause⟩) fun byte here =>
      if byte = lowerT then resumeBool true trueText here scratch
      else if byte = lowerF then resumeBool false falseText here scratch
      else .error (.typeMismatch .bool here.offset)
  | .bool value (some rest) => resumeBool value rest input scratch
  | .string none octets =>
    input.significant (fun rest => ⟨.string none octets, rest, scratch, .pause⟩) fun byte here =>
      if byte = Ascii.quote then resumeString {} octets here.next scratch
      else .error (.typeMismatch .string here.offset)
  | .string (some lexer) octets => resumeString lexer octets input scratch
  | .number type lexer spilled result => startNumber type lexer spilled result input scratch
  | .array item phase items => resumeArray schema item phase items input scratch
  | .object table phase target members presence extras =>
    resumeObject schema table phase target members presence extras input scratch
  | .variant (some value) => .ok ⟨.variant (some value), input, scratch, .complete⟩
  | .variant none =>
    input.significant (fun rest => ⟨.variant none, rest, scratch, .pause⟩) fun byte here =>
      match heldShapeOf? byte with
      | some shape =>
        .ok ⟨.variant (some (schema.initial shape)), here, scratch, .call (.start schema shape)⟩
      | none => .error (.unexpectedByte byte here.offset)

def result : FrameBody → Except ParseError Value
  | .null _ => .ok .null
  | .bool value _ => .ok (.bool value)
  | .string _ octets =>
    match Utf8.decodeString octets.toList with
    | .ok text => .ok (.string text)
    | .error error => .error (.invalidUtf8 error)
  | .number _ _ _ (some value) => .ok (.number value)
  | .number _ _ _ none => .error .endOfData
  | .array _ _ items => .ok (.list items.toList)
  | .object _ _ _ members presence extras => .ok (.object members presence extras)
  | .variant (some value) => .ok (.held value)
  | .variant none => .error (.unexpected .resumedAfterCompletion)

end FrameBody

def Advance.map {β γ : Type} (f : β → γ) (advance : Advance β) : Advance γ :=
  ⟨f advance.body, advance.input, advance.scratch, advance.step⟩

namespace Frame

def resumeAbsent (item : Shape) (rest : List UInt8) (input : Input) (scratch : Scratch) :
    Except ParseError (Advance Frame) :=
  (input.matchLiteral rest).map fun (rest, input) =>
    ⟨.absent item rest, input, scratch, literalStep rest⟩

def begin (schema : Schema) (shape : Shape) (input : Input) (scratch : Scratch) :
    Except ParseError (Advance Frame) :=
  match shape with
  | .box item => (begin schema item input scratch).map (.map (.box item))
  | .option item =>
    input.significant (fun rest => ⟨.undecided item, rest, scratch, .pause⟩) fun byte here =>
      if byte = lowerN then resumeAbsent item nullText here scratch
      else (begin schema item here scratch).map (.map (.present item))
  | shape => ((FrameBody.start schema shape).resume schema input scratch).map (.map (.core shape))

def resume (schema : Schema) (input : Input) (scratch : Scratch) :
    Frame → Except ParseError (Advance Frame)
  | .core shape body => (body.resume schema input scratch).map (.map (.core shape))
  | .box item inner => (inner.resume schema input scratch).map (.map (.box item))
  | .undecided item => begin schema (.option item) input scratch
  | .absent item rest => resumeAbsent item rest input scratch
  | .present item inner => (inner.resume schema input scratch).map (.map (.present item))

/-- Puts a value of a shape into a slot, which has to be of the same shape. -/
def deliverInto (slot shape : Shape) (value : Value) : Except ParseError Value :=
  if shape = slot then .ok value else .error (.unexpected .slotTypeMismatch)

def deliver (slot : Shape) : Frame → Except ParseError Value
  | .core shape body =>
    match body.result with
    | .ok value => deliverInto slot shape value
    | .error error => .error error
  | .box item inner =>
    match inner.deliver item with
    | .ok value => deliverInto slot (.box item) value
    | .error error => .error error
  | .undecided item | .absent item _ => deliverInto slot (.option item) .absent
  | .present item inner =>
    match inner.deliver item with
    | .ok value => deliverInto slot (.option item) (.present value)
    | .error error => .error error

end Frame

def FrameBody.accept (child : Frame) : FrameBody → Except ParseError FrameBody
  | .array item _ items =>
    (child.deliver item).map fun value => .array item .comma (items.push value)
  | .object table _ (some (.field index)) members presence extras =>
    match table.fields[index]? with
    | some field =>
      (child.deliver field.shape).map fun value =>
        let presence :=
          if field.shape.tellsPresence then presence else presence.set index true
        .object table .comma none (members.set index value) presence extras
    | none => .error (.unexpected .slotTypeMismatch)
  | .object table _ (some (.extra index)) members presence extras =>
    match table.extra, extras[index]? with
    | some shape, some (name, _) =>
      (child.deliver shape).map fun value =>
        .object table .comma none members presence (extras.set index (name, value))
    | _, _ => .error (.unexpected .slotTypeMismatch)
  | .variant (some held) =>
    (child.deliver held.heldShape).map fun value => .variant (some value)
  | _ => .error (.unexpected .strayChild)

def Frame.accept (parent child : Frame) : Except ParseError Frame :=
  match parent with
  | .core shape body => (body.accept child).map (.core shape)
  | .box item inner => (inner.accept child).map (.box item)
  | .undecided _ | .absent _ _ => .error (.unexpected .strayChild)
  | .present item inner => (inner.accept child).map (.present item)

end IncrementalJson
