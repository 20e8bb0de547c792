import IncrementalJson.Text.Utf8

/-!
# Escapes in JSON strings

A backslash and a letter stand for one octet; a backslash, `u` and four
hexadecimal digits stand for a UTF-16 unit, and two such units in a row for a
character beyond the first plane.  Reading admits every escape; writing uses the
letter where there is one, a unicode escape for the other controls, and writes
every other octet as it is.
-/

set_option autoImplicit false

namespace IncrementalJson.Escape

/-- The octet that a letter behind the backslash stands for: the quote, the backslash and the
slash themselves, and `b`, `f`, `n`, `r`, `t` the controls backspace, form feed, line feed,
carriage return and tab. -/
def unescape? (letter : UInt8) : Option UInt8 :=
  if letter = 0x22 then some 0x22
  else if letter = 0x5C then some 0x5C
  else if letter = 0x2F then some 0x2F
  else if letter = 0x62 then some 0x08
  else if letter = 0x66 then some 0x0C
  else if letter = 0x6E then some 0x0A
  else if letter = 0x72 then some 0x0D
  else if letter = 0x74 then some 0x09
  else none

def hexValue? (byte : UInt8) : Option Nat :=
  if 0x30 ≤ byte ∧ byte ≤ 0x39 then some (byte.toNat - 0x30)
  else if 0x61 ≤ byte ∧ byte ≤ 0x66 then some (byte.toNat - 0x61 + 10)
  else if 0x41 ≤ byte ∧ byte ≤ 0x46 then some (byte.toNat - 0x41 + 10)
  else none

def isHighSurrogate (unit : Nat) : Bool :=
  0xD800 ≤ unit && unit ≤ 0xDBFF

def isLowSurrogate (unit : Nat) : Bool :=
  0xDC00 ≤ unit && unit ≤ 0xDFFF

def combine (high low : Nat) : Nat :=
  0x10000 + (high - 0xD800) * 0x400 + (low - 0xDC00)

def hexDigit (value : UInt8) : UInt8 :=
  if value < 10 then 0x30 + value else 0x57 + value

/-- How an octet is written where it cannot be written as it is: the quote, the backslash and
the five controls that have a letter with that letter, the other controls by their number. -/
def escape? (octet : UInt8) : Option (List UInt8) :=
  if octet = 0x22 then some [0x5C, 0x22]
  else if octet = 0x5C then some [0x5C, 0x5C]
  else if octet = 0x08 then some [0x5C, 0x62]
  else if octet = 0x0C then some [0x5C, 0x66]
  else if octet = 0x0A then some [0x5C, 0x6E]
  else if octet = 0x0D then some [0x5C, 0x72]
  else if octet = 0x09 then some [0x5C, 0x74]
  else if octet < 0x20 then
    some [0x5C, 0x75, 0x30, 0x30, hexDigit (octet / 16), hexDigit (octet % 16)]
  else none

end IncrementalJson.Escape
