import IncrementalJson.Error
import IncrementalJson.Text.Ascii
import IncrementalJson.Text.Escape

/-!
# Inside a string

`StringLexer` stands behind the opening quote of a string or of a member name
and takes one byte at a time.  Each byte adds some octets to the text, or closes
it, or is refused.  A high surrogate adds nothing until its partner has come;
while it waits, only the backslash of the next escape is admitted.
-/

set_option autoImplicit false

namespace IncrementalJson

/-- Where inside a string the next byte stands. -/
inductive StringPart where
  /-- Among plain bytes. -/
  | body
  /-- Behind a backslash. -/
  | escape
  /-- Among the digits of a unicode escape: how many have come and what they spell. -/
  | unicode (count value : Nat)
  deriving DecidableEq, Repr

structure StringLexer where
  part : StringPart := .body
  /-- A high surrogate that waits for its partner. -/
  pending : Option Nat := none
  deriving DecidableEq, Repr

/-- What a byte does to a string. -/
inductive Unescaped where
  /-- The byte stands for itself. -/
  | plain
  /-- The string goes on, longer by some octets. -/
  | more (lexer : StringLexer) (octets : List UInt8)
  /-- The byte was the closing quote. -/
  | closed
  deriving DecidableEq, Repr

namespace StringLexer

def takeUnit (pending : Option Nat) (unit : Nat) : Except ParseError Unescaped :=
  match pending with
  | some high =>
    if Escape.isLowSurrogate unit then
      .ok (.more {} (Utf8.encodeChar (Char.ofNat (Escape.combine high unit))))
    else .error .invalidUnicodeCodepoint
  | none =>
    if Escape.isHighSurrogate unit then .ok (.more { pending := some unit } [])
    else if Escape.isLowSurrogate unit then .error .invalidUnicodeCodepoint
    else .ok (.more {} (Utf8.encodeChar (Char.ofNat unit)))

def step (lexer : StringLexer) (byte : UInt8) (offset : Nat) : Except ParseError Unescaped :=
  match lexer.part with
  | .body =>
    if byte = Ascii.backslash then .ok (.more { lexer with part := .escape } [])
    else if lexer.pending.isSome then .error .invalidUnicodeCodepoint
    else if byte = Ascii.quote then .ok .closed
    else if byte < 0x20 then .error (.unescapedControlCharacter byte offset)
    else .ok .plain
  | .escape =>
    if byte = Ascii.lowerU then .ok (.more { lexer with part := .unicode 0 0 } [])
    else if lexer.pending.isSome then .error .invalidUnicodeCodepoint
    else match Escape.unescape? byte with
      | some octet => .ok (.more {} [octet])
      | none => .error .invalidEscapeSequence
  | .unicode count value =>
    match Escape.hexValue? byte with
    | none => .error .invalidUnicodeHex
    | some digit =>
      if count < 3 then
        .ok (.more { lexer with part := .unicode (count + 1) (value * 16 + digit) } [])
      else if count = 3 then takeUnit lexer.pending (value * 16 + digit)
      else .error (.unexpected .invalidUnicodeEscape)

end StringLexer

end IncrementalJson
