import IncrementalJson.Error
import IncrementalJson.Text.Ascii

/-!
# Input

An `Input` is the part of a document that is at hand: the bytes that were not
read yet, the offset of the first of them in the document, and whether the
document ends behind them.  An input that runs out is no fault as long as the
document goes on; behind its end it is.
-/

set_option autoImplicit false

namespace IncrementalJson

open Ascii

structure Input where
  bytes : List UInt8
  /-- The offset of the first of the bytes. -/
  offset : Nat
  /-- Nothing follows the bytes. -/
  closed : Bool
  deriving DecidableEq, Repr

namespace Input

def next (input : Input) : Input :=
  { input with bytes := input.bytes.tail, offset := input.offset + 1 }

def limit (input : Input) : Nat := input.offset + input.bytes.length

def spent (input : Input) : Input := { input with bytes := [], offset := input.limit }

def extend (input : Input) (bytes : List UInt8) (closed : Bool) : Input :=
  ⟨input.bytes ++ bytes, input.offset, closed⟩

def advance (input : Input) (count : Nat) : Input :=
  { input with bytes := input.bytes.drop count, offset := input.offset + count }

def behindSpaces (closed : Bool) : Nat → List UInt8 → Input
  | offset, [] => ⟨[], offset, closed⟩
  | offset, byte :: rest =>
    if isSpace byte then behindSpaces closed (offset + 1) rest
    else ⟨byte :: rest, offset, closed⟩

def skipSpaces (input : Input) : Input :=
  behindSpaces input.closed input.offset input.bytes

/-- Passes over whitespace; gives `act` the byte behind it and the input that begins with that
byte, or `wait` the input that ran out. -/
@[inline] def significant {α : Type} (input : Input) (wait : Input → α)
    (act : UInt8 → Input → Except ParseError α) : Except ParseError α :=
  match input.skipSpaces with
  | ⟨byte :: rest, offset, closed⟩ => act byte ⟨byte :: rest, offset, closed⟩
  | ⟨[], _, true⟩ => .error .endOfData
  | ⟨[], offset, false⟩ => .ok (wait ⟨[], offset, false⟩)

theorem behindSpaces_append (closed more : Bool) (offset : Nat) (front back : List UInt8) :
    behindSpaces more offset (front ++ back) =
      match behindSpaces closed offset front with
      | ⟨[], position, _⟩ => behindSpaces more position back
      | ⟨byte :: rest, position, _⟩ => ⟨byte :: rest ++ back, position, more⟩ := by
  induction front generalizing offset with
  | nil => rfl
  | cons byte rest ih =>
    by_cases space : isSpace byte
    · simp only [List.cons_append, behindSpaces, if_pos space]
      exact ih (offset + 1)
    · simp [behindSpaces, space]

@[simp] theorem limit_behindSpaces (closed : Bool) (offset : Nat) (bytes : List UInt8) :
    (behindSpaces closed offset bytes).limit = offset + bytes.length := by
  induction bytes generalizing offset with
  | nil => rfl
  | cons byte rest ih =>
    by_cases space : isSpace byte
    · simp only [behindSpaces, if_pos space, ih, List.length_cons]
      omega
    · simp [behindSpaces, space, limit]

@[simp] theorem closed_behindSpaces (closed : Bool) (offset : Nat) (bytes : List UInt8) :
    (behindSpaces closed offset bytes).closed = closed := by
  induction bytes generalizing offset with
  | nil => rfl
  | cons byte rest ih =>
    by_cases space : isSpace byte
    · simp only [behindSpaces, if_pos space, ih]
    · simp [behindSpaces, space]

@[simp] theorem limit_skipSpaces (input : Input) : input.skipSpaces.limit = input.limit :=
  limit_behindSpaces ..

@[simp] theorem closed_skipSpaces (input : Input) : input.skipSpaces.closed = input.closed :=
  closed_behindSpaces ..

/-- Goes on with a literal byte by byte: the bytes still to come, and the input left. -/
def matchBytes (closed : Bool) : List UInt8 → Nat → List UInt8 →
    Except ParseError (List UInt8 × Input)
  | [], offset, bytes => .ok ([], ⟨bytes, offset, closed⟩)
  | expected :: more, offset, byte :: bytes =>
    if byte = expected then matchBytes closed more (offset + 1) bytes
    else .error (.unexpectedByte byte offset)
  | expected :: more, offset, [] =>
    if closed then .error .endOfData else .ok (expected :: more, ⟨[], offset, closed⟩)

/-- Goes on with a literal, at once if all that is to come is at hand. -/
def matchLiteral (input : Input) (rest : List UInt8) : Except ParseError (List UInt8 × Input) :=
  if rest.isPrefixOf input.bytes then .ok ([], input.advance rest.length)
  else matchBytes input.closed rest input.offset input.bytes

end Input

end IncrementalJson
