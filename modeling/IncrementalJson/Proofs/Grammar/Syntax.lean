import IncrementalJson.Text.Utf8

/-!
# The grammar of JSON text

What RFC 8259 says a JSON text is, over characters and apart from any machine
that reads it.  Strings and numbers are kept as they are spelled: a `StringItem`
is one character or one escape, a `Literal` holds the digits of a number.
`Spells` relates a text to the syntax tree of the value it spells, and
`Document` adds the whitespace around it.

The meaning of the parts that the RFC leaves open stands here too: what a string
stands for once surrogates are put together, and which number a literal names.
-/

set_option autoImplicit false

namespace IncrementalJson

abbrev Digit := Fin 10

def Digit.char (digit : Digit) : Char := Char.ofNat (0x30 + digit.val)

def digitsValue (digits : List Digit) : Nat :=
  digits.foldl (fun value digit => value * 10 + digit.val) 0

structure HexDigit where
  value : Fin 16
  upper : Bool
  deriving DecidableEq, Repr

def HexDigit.char (digit : HexDigit) : Char :=
  if digit.value.val < 10 then Char.ofNat (0x30 + digit.value.val)
  else if digit.upper then Char.ofNat (0x41 + (digit.value.val - 10))
  else Char.ofNat (0x61 + (digit.value.val - 10))

inductive ShortEscape where
  | quote
  | backslash
  | slash
  | backspace
  | formFeed
  | lineFeed
  | carriageReturn
  | tab
  deriving DecidableEq, Repr

def ShortEscape.letter : ShortEscape → Char
  | .quote => '"'
  | .backslash => '\\'
  | .slash => '/'
  | .backspace => 'b'
  | .formFeed => 'f'
  | .lineFeed => 'n'
  | .carriageReturn => 'r'
  | .tab => 't'

def ShortEscape.char : ShortEscape → Char
  | .quote => '"'
  | .backslash => '\\'
  | .slash => '/'
  | .backspace => '\x08'
  | .formFeed => '\x0C'
  | .lineFeed => '\n'
  | .carriageReturn => '\r'
  | .tab => '\t'

/-- Whether a character may stand in a string as it is. -/
def isUnescaped (char : Char) : Bool :=
  0x20 ≤ char.toNat && char != '"' && char != '\\'

inductive StringItem where
  | plain (char : Char) (unescaped : isUnescaped char)
  | short (escape : ShortEscape)
  /-- A UTF-16 unit by its four digits. -/
  | unit (first second third fourth : HexDigit)
  deriving DecidableEq, Repr

namespace StringItem

def text : StringItem → List Char
  | plain char _ => [char]
  | short escape => ['\\', escape.letter]
  | unit first second third fourth =>
    ['\\', 'u', first.char, second.char, third.char, fourth.char]

def unitValue (first second third fourth : HexDigit) : Nat :=
  ((first.value.val * 16 + second.value.val) * 16 + third.value.val) * 16 + fourth.value.val

/-- The UTF-16 unit that a piece spells by its number. -/
def unit? : StringItem → Option Nat
  | unit first second third fourth => some (unitValue first second third fourth)
  | _ => none

end StringItem

def isLeading (unit : Nat) : Bool := 0xD800 ≤ unit && unit ≤ 0xDBFF

def isTrailing (unit : Nat) : Bool := 0xDC00 ≤ unit && unit ≤ 0xDFFF

def pairedChar (leading trailing : Nat) : Char :=
  Char.ofNat (0x10000 + (leading - 0xD800) * 0x400 + (trailing - 0xDC00))

/-- Every first half of a surrogate pair is directly followed by a second half, and no second
half stands alone. -/
def surrogatesPaired : List StringItem → Bool
  | [] => true
  | item :: rest =>
    match item.unit? with
    | none => surrogatesPaired rest
    | some unit =>
      if isLeading unit then
        match rest with
        | [] => false
        | next :: rest =>
          match next.unit? with
          | some trailing => isTrailing trailing && surrogatesPaired rest
          | none => false
      else !isTrailing unit && surrogatesPaired rest

def unescape : List StringItem → List Char
  | [] => []
  | .plain char _ :: rest => char :: unescape rest
  | .short escape :: rest => escape.char :: unescape rest
  | .unit first second third fourth :: rest =>
    let unit := StringItem.unitValue first second third fourth
    if isLeading unit then
      match rest with
      | [] => []
      | next :: rest => pairedChar unit (next.unit?.getD 0) :: unescape rest
    else Char.ofNat unit :: unescape rest

/-- The whole part of a number: no zero in front of another digit. -/
inductive WholePart where
  | zero
  /-- A first digit from one to nine, counted from one. -/
  | digits (first : Fin 9) (rest : List Digit)
  deriving DecidableEq, Repr

def WholePart.toDigits : WholePart → List Digit
  | .zero => [0]
  | .digits first rest => ⟨first.val + 1, by omega⟩ :: rest

/-- The exponent of a number: the mark, the sign if there is one, and at least one digit. -/
structure ExponentPart where
  upper : Bool
  /-- Whether there is a sign, and then whether it is the minus sign. -/
  sign : Option Bool
  first : Digit
  rest : List Digit
  deriving DecidableEq, Repr

def ExponentPart.text (part : ExponentPart) : List Char :=
  (if part.upper then 'E' else 'e') ::
    (match part.sign with
      | none => []
      | some true => ['-']
      | some false => ['+']) ++ (part.first :: part.rest).map Digit.char

def ExponentPart.value (part : ExponentPart) : Int :=
  let magnitude : Int := ↑(digitsValue (part.first :: part.rest))
  if part.sign = some true then -magnitude else magnitude

structure Literal where
  negative : Bool
  whole : WholePart
  /-- The digits behind the point, at least one. -/
  fraction : Option (Digit × List Digit)
  exponent : Option ExponentPart
  deriving DecidableEq, Repr

namespace Literal

def fractionDigits (literal : Literal) : List Digit :=
  match literal.fraction with
  | some (first, rest) => first :: rest
  | none => []

def text (literal : Literal) : List Char :=
  (if literal.negative then ['-'] else []) ++ literal.whole.toDigits.map Digit.char ++
    (match literal.fraction with
      | some (first, rest) => '.' :: (first :: rest).map Digit.char
      | none => []) ++
    match literal.exponent with
    | some part => part.text
    | none => []

def integer? (literal : Literal) : Option Int :=
  match literal.fraction, literal.exponent with
  | none, none =>
    let magnitude : Int := ↑(digitsValue literal.whole.toDigits)
    some (if literal.negative then -magnitude else magnitude)
  | _, _ => none

def digits (literal : Literal) : Nat :=
  digitsValue (literal.whole.toDigits ++ literal.fractionDigits)

/-- The power of ten that the last digit in front of the exponent counts. -/
def scale (literal : Literal) : Int :=
  (match literal.exponent with
    | some part => part.value
    | none => 0) - literal.fractionDigits.length

end Literal

/-- A JSON value as it is spelled, but for whitespace. -/
inductive Json where
  | null
  | bool (value : Bool)
  | number (literal : Literal)
  | string (items : List StringItem)
  | array (items : List Json)
  | object (members : List (List StringItem × Json))
  deriving Repr

def quotedText (items : List StringItem) : List Char :=
  '"' :: items.flatMap StringItem.text ++ ['"']

def isBlank (char : Char) : Bool :=
  char == ' ' || char == '\t' || char == '\n' || char == '\r'

def Blank (text : List Char) : Prop := ∀ char ∈ text, isBlank char

structure Element where
  before : List Char
  text : List Char
  json : Json
  after : List Char

def Element.padded (element : Element) : List Char :=
  element.before ++ element.text ++ element.after

structure Member where
  beforeName : List Char
  name : List StringItem
  afterName : List Char
  value : Element

def Member.padded (member : Member) : List Char :=
  member.beforeName ++ quotedText member.name ++ member.afterName ++ ':' :: member.value.padded

def commaSeparated : List (List Char) → List Char
  | [] => []
  | [text] => text
  | text :: next :: rest => text ++ ',' :: commaSeparated (next :: rest)

/-- The text of a JSON value. -/
inductive Spells : List Char → Json → Prop where
  | null : Spells ['n', 'u', 'l', 'l'] .null
  | trueText : Spells ['t', 'r', 'u', 'e'] (.bool true)
  | falseText : Spells ['f', 'a', 'l', 's', 'e'] (.bool false)
  | number (literal : Literal) : Spells literal.text (.number literal)
  | string (items : List StringItem) : Spells (quotedText items) (.string items)
  | emptyArray {blank : List Char} (isBlank : Blank blank) :
      Spells ('[' :: blank ++ [']']) (.array [])
  | array {elements : List Element} (filled : elements ≠ [])
      (blank : ∀ element ∈ elements, Blank element.before ∧ Blank element.after)
      (spelled : ∀ element ∈ elements, Spells element.text element.json) :
      Spells ('[' :: commaSeparated (elements.map Element.padded) ++ [']'])
        (.array (elements.map Element.json))
  | emptyObject {blank : List Char} (isBlank : Blank blank) :
      Spells ('{' :: blank ++ ['}']) (.object [])
  | object {members : List Member} (filled : members ≠ [])
      (blank : ∀ member ∈ members, Blank member.beforeName ∧ Blank member.afterName ∧
        Blank member.value.before ∧ Blank member.value.after)
      (spelled : ∀ member ∈ members, Spells member.value.text member.value.json) :
      Spells ('{' :: commaSeparated (members.map Member.padded) ++ ['}'])
        (.object (members.map fun member => (member.name, member.value.json)))

def Document (text : List Char) (json : Json) : Prop :=
  ∃ element : Element, Blank element.before ∧ Blank element.after ∧
    Spells element.text element.json ∧ text = element.padded ∧ json = element.json

end IncrementalJson
