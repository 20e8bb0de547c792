import IncrementalJson.Text.Quoted
import IncrementalJson.Text.Utf8

/-!
# What can go wrong

Reading fails with a `ParseError` and writing with a `GenerateError`.  Each names
a cause; `kind` sorts the causes into five classes and `message` puts one into
words.  The causes under `unexpected` report a broken invariant of the engine
and not a fault of the document or of the value.
-/

set_option autoImplicit false

namespace IncrementalJson

inductive JsonType where
  | string
  | object
  | array
  | number
  | bool
  | null
  | variant
  deriving DecidableEq, Repr

def JsonType.name : JsonType → String
  | .string => "String"
  | .object => "Object"
  | .array => "Array"
  | .number => "Number"
  | .bool => "Bool"
  | .null => "Null"
  | .variant => "Variant"

inductive ErrorKind where
  /-- The document does not fit its target. -/
  | syntactic
  /-- A number does not fit its target. -/
  | overflow
  /-- A limit was reached. -/
  | resource
  /-- The value has no JSON text. -/
  | unrepresentable
  /-- An invariant of the engine is broken. -/
  | internal
  deriving DecidableEq, Repr

inductive UnexpectedState where
  /-- A completed frame held a value of another shape than its slot. -/
  | slotTypeMismatch
  /-- A frame was handed a value that it never asked for. -/
  | strayChild
  /-- A frame was asked to go on after its end. -/
  | resumedAfterCompletion
  /-- A unicode escape was read before its four digits had come. -/
  | invalidUnicodeEscape
  /-- The text written was not UTF-8. -/
  | invalidOutput
  /-- A run took more steps than any document or value calls for. -/
  | stalled
  deriving DecidableEq, Repr

def UnexpectedState.name : UnexpectedState → String
  | .slotTypeMismatch => "SlotTypeMismatch"
  | .strayChild => "StrayChild"
  | .resumedAfterCompletion => "ResumedAfterCompletion"
  | .invalidUnicodeEscape => "InvalidUnicodeEscape"
  | .invalidOutput => "InvalidOutput"
  | .stalled => "Stalled"

inductive ParseError where
  /-- A byte that can neither begin nor continue what is being read. -/
  | unexpectedByte (byte : UInt8) (offset : Nat)
  /-- The input ended inside a value. -/
  | endOfData
  /-- A control character stands unescaped inside a string. -/
  | unescapedControlCharacter (byte : UInt8) (offset : Nat)
  /-- No escape begins with this character. -/
  | invalidEscapeSequence
  /-- A unicode escape holds something else than a hexadecimal digit. -/
  | invalidUnicodeHex
  /-- Surrogates that do not pair up. -/
  | invalidUnicodeCodepoint
  /-- A string that is not UTF-8. -/
  | invalidUtf8 (error : Utf8Error)
  /-- The target record has no member of this name and no room for extras. -/
  | unknownMember (name : String)
  /-- A number literal outside the grammar. -/
  | invalidNumber
  /-- A fraction or an exponent where an integer is wanted. -/
  | floatNotAllowed
  /-- A value of another kind than its target. -/
  | typeMismatch (expected : JsonType) (offset : Nat)
  /-- The number is outside the range of its target. -/
  | numericOverflow
  /-- The document nests deeper than the stack may grow. -/
  | maxDepthReached (limit : Nat)
  /-- Memory could not be had. -/
  | allocationFailed
  /-- An invariant of the engine is broken. -/
  | unexpected (state : UnexpectedState)
  deriving DecidableEq, Repr

namespace ParseError

def kind : ParseError → ErrorKind
  | .numericOverflow => .overflow
  | .maxDepthReached _ | .allocationFailed => .resource
  | .unexpected _ => .internal
  | _ => .syntactic

def message : ParseError → String
  | .unexpectedByte byte offset =>
    "unexpected byte 0x" ++ Text.hexOctet byte ++ " at offset " ++ toString offset
  | .endOfData => "unexpected end of input"
  | .unescapedControlCharacter byte offset =>
    "unescaped control character 0x" ++ Text.hexOctet byte ++ " at offset " ++ toString offset
  | .invalidEscapeSequence => "invalid escape sequence"
  | .invalidUnicodeHex => "invalid hex digit in unicode escape"
  | .invalidUnicodeCodepoint => "invalid unicode codepoint"
  | .invalidUtf8 error => "invalid UTF-8: " ++ error.message
  | .unknownMember name => "unknown member " ++ Text.quote name
  | .invalidNumber => "invalid number"
  | .floatNotAllowed => "floating point value not allowed here"
  | .typeMismatch expected offset =>
    "expected " ++ expected.name ++ " at offset " ++ toString offset
  | .numericOverflow => "numeric overflow"
  | .maxDepthReached limit => "maximum nesting depth of " ++ toString limit ++ " reached"
  | .allocationFailed => "allocation failed"
  | .unexpected state => "unexpected internal state: " ++ state.name

end ParseError

inductive GenerateError where
  /-- A variant that was never given a value has no text. -/
  | unsetVariant
  /-- Infinities and what is not a number have no text. -/
  | nonFiniteNumber
  /-- The value nests deeper than the stack may grow. -/
  | maxDepthReached (limit : Nat)
  /-- Memory could not be had. -/
  | allocationFailed
  /-- An invariant of the engine is broken. -/
  | unexpected (state : UnexpectedState)
  deriving DecidableEq, Repr

namespace GenerateError

def kind : GenerateError → ErrorKind
  | .unsetVariant | .nonFiniteNumber => .unrepresentable
  | .maxDepthReached _ | .allocationFailed => .resource
  | .unexpected _ => .internal

def message : GenerateError → String
  | .unsetVariant => "cannot generate an unset variant"
  | .nonFiniteNumber => "cannot generate a non-finite number"
  | .maxDepthReached limit => "maximum nesting depth of " ++ toString limit ++ " reached"
  | .allocationFailed => "allocation failed"
  | .unexpected state => "unexpected internal state: " ++ state.name

end GenerateError

/-! ## Results -/

/-- A result that was mapped is a value exactly if it was one. -/
theorem map_eq_ok_iff {ε α β : Type} {f : α → β} {result : Except ε α} {mapped : β} :
    result.map f = .ok mapped ↔ ∃ value, result = .ok value ∧ f value = mapped := by
  cases result with
  | error error => exact iff_of_false nofun nofun
  | ok value => simp [Except.map]

end IncrementalJson
