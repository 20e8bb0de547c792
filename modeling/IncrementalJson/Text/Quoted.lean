import IncrementalJson.Text.Unprintable

/-!
# Quoted text in messages

A name inside an error message stands between double quotes.  What would end the
quotation or could not be seen is written with a backslash: short forms for the
common controls, the shortest lower-case hexadecimal form for all else.
-/

set_option autoImplicit false

namespace IncrementalJson.Text

def hex (value : Nat) : String :=
  String.ofList (Nat.toDigits 16 value)

def hexOctet (octet : UInt8) : String :=
  String.ofList [Nat.digitChar (octet.toNat / 16), Nat.digitChar (octet.toNat % 16)]

/-- How one character is written between the quotes. -/
def quoteChar (char : Char) : String :=
  if char = '\x00' then "\\0"
  else if char = '\t' then "\\t"
  else if char = '\n' then "\\n"
  else if char = '\r' then "\\r"
  else if char = '"' then "\\\""
  else if char = '\\' then "\\\\"
  else if isPrintable char then char.toString
  else "\\u\x7b" ++ hex char.toNat ++ "\x7d"

def quote (text : String) : String :=
  "\"" ++ String.join (text.toList.map quoteChar) ++ "\""

end IncrementalJson.Text
