/-!
# UTF-8

Text travels as octets.  `Utf8.decode` reads a list of octets one at a time and
either gives the characters they spell or says where and how the sequence goes
wrong: the fault is at the first octet of the first broken character, and its
length is the number of octets that could still have begun a character there
(the *maximal subpart*).  `Utf8.encode` is the opposite direction.
-/

set_option autoImplicit false

namespace IncrementalJson

inductive Utf8Error where
  /-- The `length` octets from `index` on begin no character. -/
  | illFormed (length index : Nat)
  /-- The octets end inside the character that begins at `index`. -/
  | incomplete (index : Nat)
  deriving DecidableEq, Repr

namespace Utf8

structure Partial where
  /-- Octets read so far, at least one. -/
  read : Nat
  /-- Continuation octets still to come, at least one. -/
  due : Nat
  /-- Least and greatest value of the next octet. -/
  low : Nat
  high : Nat
  /-- Payload bits read so far. -/
  bits : Nat
  deriving DecidableEq, Repr

/-- Reader state: the characters read, newest first, the position of the character
being read, and that character if it has begun. -/
structure Reader where
  chars : List Char := []
  index : Nat := 0
  current : Option Partial := none
  deriving DecidableEq, Repr

/-- What the first octet of a character of two or more octets announces. -/
def Partial.lead? (octet : Nat) : Option Partial :=
  if 0xC2 ≤ octet ∧ octet ≤ 0xDF then some ⟨1, 1, 0x80, 0xBF, octet - 0xC0⟩
  else if octet = 0xE0 then some ⟨1, 2, 0xA0, 0xBF, 0⟩
  else if octet = 0xED then some ⟨1, 2, 0x80, 0x9F, 0xD⟩
  else if 0xE1 ≤ octet ∧ octet ≤ 0xEF then some ⟨1, 2, 0x80, 0xBF, octet - 0xE0⟩
  else if octet = 0xF0 then some ⟨1, 3, 0x90, 0xBF, 0⟩
  else if 0xF1 ≤ octet ∧ octet ≤ 0xF3 then some ⟨1, 3, 0x80, 0xBF, octet - 0xF0⟩
  else if octet = 0xF4 then some ⟨1, 3, 0x80, 0x8F, 4⟩
  else none

def Reader.step (reader : Reader) (octet : UInt8) : Except Utf8Error Reader :=
  let value := octet.toNat
  match reader.current with
  | none =>
    if value < 0x80 then
      .ok { chars := Char.ofNat value :: reader.chars, index := reader.index + 1 }
    else match Partial.lead? value with
      | some lead => .ok { reader with current := some lead }
      | none => .error (.illFormed 1 reader.index)
  | some part =>
    if part.low ≤ value ∧ value ≤ part.high then
      let bits := part.bits * 64 + (value - 0x80)
      if part.due ≤ 1 then
        .ok { chars := Char.ofNat bits :: reader.chars, index := reader.index + part.read + 1 }
      else
        .ok { reader with current := some ⟨part.read + 1, part.due - 1, 0x80, 0xBF, bits⟩ }
    else .error (.illFormed part.read reader.index)

def Reader.finish (reader : Reader) : Except Utf8Error (List Char) :=
  match reader.current with
  | none => .ok reader.chars.reverse
  | some _ => .error (.incomplete reader.index)

def decode (octets : List UInt8) : Except Utf8Error (List Char) := do
  let reader ← octets.foldlM Reader.step {}
  reader.finish

def decodeString (octets : List UInt8) : Except Utf8Error String :=
  (decode octets).map String.ofList

def encodeChar (char : Char) : List UInt8 :=
  String.utf8EncodeChar char

def encode (chars : List Char) : List UInt8 :=
  chars.flatMap encodeChar

def encodeString (text : String) : List UInt8 :=
  encode text.toList

end Utf8

def Utf8Error.message : Utf8Error → String
  | .illFormed length index =>
    "invalid utf-8 sequence of " ++ toString length ++ " bytes from index " ++ toString index
  | .incomplete index =>
    "incomplete utf-8 byte sequence from index " ++ toString index

end IncrementalJson
