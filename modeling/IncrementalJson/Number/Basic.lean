import IncrementalJson.Float.Text

/-!
# Numbers

A `Number` is a JSON number whose type is open: an integer of 64 bits with or
without sign, or a number in double precision.  `IntegerKind` names the integer
types of fixed width and their ranges.
-/

set_option autoImplicit false

namespace IncrementalJson

/-- A JSON number of open type.  Integers that fit 64 bits with a sign are `int`, larger ones
that fit without a sign are `uint`, and all else is `float`. -/
inductive Number where
  | int (value : Int)
  | uint (value : Nat)
  | float (bits : BitVec 64)
  deriving DecidableEq, Repr

inductive IntegerWidth where
  | w8
  | w16
  | w32
  | w64
  deriving DecidableEq, Repr

def IntegerWidth.bits : IntegerWidth → Nat
  | .w8 => 8
  | .w16 => 16
  | .w32 => 32
  | .w64 => 64

structure IntegerKind where
  signed : Bool
  width : IntegerWidth
  deriving DecidableEq, Repr

namespace IntegerKind

def least (kind : IntegerKind) : Int :=
  if kind.signed then -2 ^ (kind.width.bits - 1) else 0

def greatest (kind : IntegerKind) : Int :=
  if kind.signed then 2 ^ (kind.width.bits - 1) - 1 else 2 ^ kind.width.bits - 1

def holds (kind : IntegerKind) (value : Int) : Bool :=
  kind.least ≤ value && value ≤ kind.greatest

def signed64 : IntegerKind := ⟨true, .w64⟩

def unsigned64 : IntegerKind := ⟨false, .w64⟩

end IntegerKind

namespace Number

instance : Inhabited Number := ⟨.int 0⟩

def ofInteger (value : Int) : Number :=
  if value ≤ IntegerKind.signed64.greatest then .int value else .uint value.toNat

/-- The number in double precision, rounded to nearest. -/
def toFloat64 : Number → BitVec 64
  | .int value => BitVec.ofNat 64 (binary64.ofInt value)
  | .uint value => BitVec.ofNat 64 (binary64.ofInt value)
  | .float bits => bits

/-- The integer that the number is, if it is one and fits 64 bits with a sign. -/
def toInt64? : Number → Option Int
  | .int value => some value
  | .uint value => if IntegerKind.signed64.holds value then some value else none
  | .float bits =>
    (binary64.decode bits.toNat).toInt?.filter IntegerKind.signed64.holds

def isFloat : Number → Bool
  | .float _ => true
  | _ => false

/-- Equality of numbers: of integers in the same arm, and numeric for double precision. -/
def same : Number → Number → Bool
  | .int a, .int b => a == b
  | .uint a, .uint b => a == b
  | .float a, .float b => (binary64.decode a.toNat).sameNumber (binary64.decode b.toNat)
  | _, _ => false

end Number

end IncrementalJson
