import IncrementalJson.Text.Ascii
import IncrementalJson.Text.Escape
import IncrementalJson.Value.Basic

/-!
# Text of scalars

How a literal, a number and a string are written.  A string is written as tokens
that may not be torn apart except by a full buffer: the quotes, each escape, and
each octet that stands for itself.
-/

set_option autoImplicit false

namespace IncrementalJson

/-- The text of a number of open type; infinities and what is not a number have none. -/
def Number.text? : Number → Option (List Char)
  | .int value => some (toString value).toList
  | .uint value => some (toString value).toList
  | .float bits => binary64.text? .double bits.toNat

def NumberValue.text? : NumberValue → Option (List Char)
  | .any number => number.text?
  | .integer value => some (toString value).toList
  | .single bits => binary32.text? .single bits.toNat
  | .double bits => binary64.text? .double bits.toNat

def boolText (value : Bool) : List UInt8 :=
  if value then Ascii.trueText else Ascii.falseText

def octetToken (octet : UInt8) : List UInt8 :=
  (Escape.escape? octet).getD [octet]

def stringTokens (text : String) : List (List UInt8) :=
  [Ascii.quote] :: (Utf8.encodeString text).map octetToken ++ [[Ascii.quote]]

end IncrementalJson
