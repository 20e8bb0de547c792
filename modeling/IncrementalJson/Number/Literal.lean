import IncrementalJson.Error
import IncrementalJson.Number.Basic
import IncrementalJson.Text.Ascii

/-!
# Number literals

`NumberLexer` recognises a literal one byte at a time and folds the digits of its
integer part into 64 bits as they come, with a flag that stays up once they no
longer fit.  A byte that cannot go on with a literal that could end there ends
it; anywhere else it makes the literal invalid.

`Decimal.ofUnsigned` reads the text of a finished literal as a decimal number,
with an exponent that is exact below `exponentReach`.  The readers say what a
literal becomes: an integer of fixed width, a number of open type, or a number in
single or double precision.
-/

set_option autoImplicit false

namespace IncrementalJson

open Ascii

inductive LiteralPart where
  | nothing
  | minus
  | zero
  | integer
  | point
  | fraction
  | exponentMark
  | exponentSign
  | exponent
  deriving DecidableEq, Repr

structure NumberLexer where
  part : LiteralPart := .nothing
  negative : Bool := false
  /-- The integer part as long as `overflow` is not set. -/
  mantissa : Nat := 0
  /-- The integer part no longer fits 64 bits. -/
  overflow : Bool := false
  deriving DecidableEq, Repr

inductive Lexed where
  /-- The byte belongs to the literal. -/
  | more (lexer : NumberLexer)
  /-- The literal ended before the byte. -/
  | finished
  /-- No literal goes on like this. -/
  | invalid
  deriving DecidableEq, Repr

namespace NumberLexer

def addDigit (lexer : NumberLexer) (byte : UInt8) : NumberLexer :=
  let mantissa := lexer.mantissa * 10 + digitValue byte
  if mantissa < 2 ^ 64 then { lexer with part := .integer, mantissa }
  else { lexer with part := .integer, overflow := true }

def canEnd (lexer : NumberLexer) : Bool :=
  match lexer.part with
  | .zero | .integer | .fraction | .exponent => true
  | _ => false

def isFloat (lexer : NumberLexer) : Bool :=
  match lexer.part with
  | .point | .fraction | .exponentMark | .exponentSign | .exponent => true
  | _ => false

def next? (lexer : NumberLexer) (byte : UInt8) : Option NumberLexer :=
  match lexer.part with
  | .nothing =>
    if byte = Ascii.minus then some { lexer with part := .minus, negative := true }
    else if byte = Ascii.zero then some { lexer with part := .zero }
    else if isDigit byte then some (lexer.addDigit byte)
    else none
  | .minus =>
    if byte = Ascii.zero then some { lexer with part := .zero }
    else if isDigit byte then some (lexer.addDigit byte)
    else none
  | .zero =>
    if byte = Ascii.point then some { lexer with part := .point }
    else if byte = lowerE ∨ byte = upperE then some { lexer with part := .exponentMark }
    else none
  | .integer =>
    if isDigit byte then some (lexer.addDigit byte)
    else if byte = Ascii.point then some { lexer with part := .point }
    else if byte = lowerE ∨ byte = upperE then some { lexer with part := .exponentMark }
    else none
  | .point =>
    if isDigit byte then some { lexer with part := .fraction } else none
  | .fraction =>
    if isDigit byte then some { lexer with part := .fraction }
    else if byte = lowerE ∨ byte = upperE then some { lexer with part := .exponentMark }
    else none
  | .exponentMark =>
    if byte = plus ∨ byte = Ascii.minus then some { lexer with part := .exponentSign }
    else if isDigit byte then some { lexer with part := .exponent }
    else none
  | .exponentSign | .exponent =>
    if isDigit byte then some { lexer with part := .exponent } else none

def step (lexer : NumberLexer) (byte : UInt8) : Lexed :=
  match lexer.next? byte with
  | some lexer => .more lexer
  | none => if lexer.canEnd then .finished else .invalid

def integer (lexer : NumberLexer) : Except ParseError Int :=
  if lexer.isFloat then .error .floatNotAllowed
  else if lexer.overflow then .error .numericOverflow
  else .ok (if lexer.negative then -↑lexer.mantissa else ↑lexer.mantissa)

end NumberLexer

def appendDigits (value : Nat) (digits : List UInt8) : Nat :=
  digits.foldl (fun value byte => value * 10 + digitValue byte) value

theorem appendDigits_eq (value : Nat) (digits : List UInt8) :
    appendDigits value digits = value * 10 ^ digits.length + appendDigits 0 digits := by
  induction digits generalizing value with
  | nil => simp [appendDigits]
  | cons byte rest ih =>
    have step (value : Nat) :
        appendDigits value (byte :: rest) = appendDigits (value * 10 + digitValue byte) rest := rfl
    rw [step, step, ih, ih (0 * 10 + digitValue byte), List.length_cons, Nat.pow_succ]
    grind

def natOfHalves : Nat → List UInt8 → Nat
  | 0, digits => appendDigits 0 digits
  | halvings + 1, digits =>
    let front := digits.take (digits.length / 2)
    let back := digits.drop (digits.length / 2)
    natOfHalves halvings front * 10 ^ back.length + natOfHalves halvings back

/-- The number that decimal digits spell.  Long texts are halved down to pieces of some hundred
digits, since reading one digit after another takes time in the square of their number. -/
def natOfDigits (digits : List UInt8) : Nat :=
  natOfHalves (digits.length.log2 - 6) digits

theorem natOfHalves_eq (halvings : Nat) (digits : List UInt8) :
    natOfHalves halvings digits = appendDigits 0 digits := by
  induction halvings generalizing digits with
  | zero => rfl
  | succ halvings ih =>
    let front := digits.take (digits.length / 2)
    let back := digits.drop (digits.length / 2)
    calc natOfHalves (halvings + 1) digits
      _ = appendDigits 0 front * 10 ^ back.length + appendDigits 0 back := by
        simp only [natOfHalves, ih, front, back]
      _ = appendDigits (appendDigits 0 front) back := (appendDigits_eq _ back).symm
      _ = appendDigits 0 (front ++ back) := List.foldl_append.symm
      _ = appendDigits 0 digits := by rw [List.take_append_drop]

theorem natOfDigits_eq (digits : List UInt8) : natOfDigits digits = appendDigits 0 digits :=
  natOfHalves_eq _ digits

def exponentReach : Nat := 65536

/-- The magnitude of an exponent from its digits: they are read up to the one with which it
comes to `exponentReach`, and those after that one are passed over. -/
def exponentOfDigits (digits : List UInt8) : Nat :=
  digits.foldl
    (fun value byte => if value < exponentReach then value * 10 + digitValue byte else value) 0

/-- The exponent that a literal names, read from behind the fraction: a mark, perhaps a sign,
and digits, or nothing. -/
def literalExponent : List UInt8 → Int
  | [] => 0
  | _ :: sign :: digits =>
    if sign = Ascii.minus then -↑(exponentOfDigits digits)
    else if sign = plus then ↑(exponentOfDigits digits)
    else ↑(exponentOfDigits (sign :: digits))
  | [_] => 0

def Decimal.ofUnsigned (text : List UInt8) : Decimal :=
  let whole := text.takeWhile isDigit
  match text.dropWhile isDigit with
  | [] => ⟨natOfDigits whole, 0⟩
  | mark :: rest =>
    if mark = Ascii.point then
      let fraction := rest.takeWhile isDigit
      ⟨natOfDigits (whole ++ fraction),
        literalExponent (rest.dropWhile isDigit) - fraction.length⟩
    else ⟨natOfDigits whole, literalExponent (mark :: rest)⟩

def FloatFormat.ofLiteral (format : FloatFormat) (text : List UInt8) : Nat :=
  let negative := text.head? = some Ascii.minus
  let decimal := Decimal.ofUnsigned (if negative then text.drop 1 else text)
  format.ofDecimal negative decimal.digits decimal.exponent

def FloatFormat.readFinite (format : FloatFormat) (text : List UInt8) : Except ParseError Nat :=
  let bits := format.ofLiteral text
  if (format.decode bits).isFinite then .ok bits else .error .numericOverflow

def readDouble (text : List UInt8) : Except ParseError Number :=
  (binary64.readFinite text).map fun bits => .float (BitVec.ofNat 64 bits)

namespace NumberLexer

def readInteger (lexer : NumberLexer) (kind : IntegerKind) : Except ParseError Int := do
  let value ← lexer.integer
  if kind.holds value then .ok value else .error .numericOverflow

/-- A number of open type from a finished literal and its text: in double precision where no
integer of 64 bits will do. -/
def readNumber (lexer : NumberLexer) (text : List UInt8) : Except ParseError Number :=
  match lexer.integer with
  | .ok value =>
    if IntegerKind.signed64.holds value then .ok (.int value)
    else if IntegerKind.unsigned64.holds value then .ok (.uint value.toNat)
    else readDouble text
  | .error _ => readDouble text

end NumberLexer

end IncrementalJson
