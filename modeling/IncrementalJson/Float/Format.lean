/-!
# Binary interchange formats

A floating-point number is held as its bit pattern.  `FloatFormat.decode` says
which number a pattern stands for, exactly, as `significand * 2 ^ exponent`;
`FloatFormat.ofRatio` and `FloatFormat.ofDecimal` give the pattern nearest to a
quotient or to a decimal number, ties to the even significand, with infinity
beyond the largest finite magnitude.

The magnitude of a pattern counts the representable magnitudes below it, so
rounding is one rounded quotient added to the count of the binades below.
-/

set_option autoImplicit false

-- Powers are those of the core library, whatever algebra is in scope as well.
attribute [instance (high), default_instance 20000] instPowNat

namespace IncrementalJson

structure FloatFormat where
  precision : Nat
  exponentWidth : Nat
  deriving DecidableEq, Repr

def binary32 : FloatFormat := ⟨24, 8⟩

def binary64 : FloatFormat := ⟨53, 11⟩

inductive FloatDatum where
  | finite (negative : Bool) (significand : Nat) (exponent : Int)
  | infinite (negative : Bool)
  | nan
  deriving DecidableEq, Repr

namespace FloatFormat

/-- Exponent of the smallest positive number, which every finite number is a multiple of. -/
def minExponent (format : FloatFormat) : Int :=
  3 - 2 ^ (format.exponentWidth - 1) - format.precision

def fieldUnit (format : FloatFormat) : Nat :=
  2 ^ (format.precision - 1)

def topField (format : FloatFormat) : Nat :=
  2 ^ format.exponentWidth - 1

def signUnit (format : FloatFormat) : Nat :=
  2 ^ format.exponentWidth * format.fieldUnit

def decode (format : FloatFormat) (bits : Nat) : FloatDatum :=
  let fraction := bits % format.fieldUnit
  let field := bits / format.fieldUnit % 2 ^ format.exponentWidth
  let negative := bits / format.signUnit % 2 = 1
  if field = format.topField then
    if fraction = 0 then .infinite negative else .nan
  else if field = 0 then
    .finite negative fraction format.minExponent
  else
    .finite negative (format.fieldUnit + fraction) (format.minExponent + field - 1)

def withSign (format : FloatFormat) (negative : Bool) (magnitude : Nat) : Nat :=
  if negative then format.signUnit + magnitude else magnitude

end FloatFormat

/-- The natural number nearest to a quotient, the even one of two. -/
def roundHalfEven (num den : Nat) : Nat :=
  let quotient := num / den
  let twice := 2 * (num % den)
  if twice < den then quotient
  else if den < twice then quotient + 1
  else quotient + quotient % 2

def binaryExponent (num den : Nat) : Int :=
  let estimate : Int := num.log2 - den.log2
  if den * 2 ^ estimate.toNat ≤ num * 2 ^ (-estimate).toNat then estimate else estimate - 1

def decimalLength (value : Nat) : Nat :=
  (Nat.toDigits 10 value).length

namespace FloatFormat

def roundMagnitude (format : FloatFormat) (num den : Nat) : Nat :=
  if num = 0 then 0
  else
    let exponent := max format.minExponent (binaryExponent num den - (format.precision - 1))
    let significand := roundHalfEven (num * 2 ^ (-exponent).toNat) (den * 2 ^ exponent.toNat)
    min ((exponent - format.minExponent).toNat * format.fieldUnit + significand)
      (format.topField * format.fieldUnit)

def ofRatio (format : FloatFormat) (negative : Bool) (num den : Nat) : Nat :=
  format.withSign negative (format.roundMagnitude num den)

def ofInt (format : FloatFormat) (value : Int) : Nat :=
  format.ofRatio (value < 0) value.natAbs 1

/-- The bit pattern nearest to `digits * 10 ^ exponent` with a sign.  Because `2 ^ 3 ≤ 10`, the
number is at least `2 ^ reach` if the exponent is not negative, and below `2 ^ (reach + 1)` if it
is: that settles infinities and zeros without a power of ten. -/
def ofDecimal (format : FloatFormat) (negative : Bool) (digits : Nat) (exponent : Int) : Nat :=
  let reach := digits.log2 + 3 * exponent
  if digits = 0 ∨ exponent < 0 ∧ reach + 2 ≤ format.minExponent then format.withSign negative 0
  else if 0 ≤ exponent ∧ 2 ^ (format.exponentWidth - 1) ≤ reach then
    format.withSign negative (format.topField * format.fieldUnit)
  else
    format.ofRatio negative (digits * 10 ^ exponent.toNat) (10 ^ (-exponent).toNat)

def convert (source target : FloatFormat) (bits : Nat) : Nat :=
  match source.decode bits with
  | .finite negative significand exponent =>
    target.ofRatio negative (significand * 2 ^ exponent.toNat) (2 ^ (-exponent).toNat)
  | .infinite negative => target.withSign negative (target.topField * target.fieldUnit)
  | .nan => target.topField * target.fieldUnit + 1

end FloatFormat

namespace FloatDatum

def isFinite : FloatDatum → Bool
  | .finite .. => true
  | _ => false

def isNaN : FloatDatum → Bool
  | .nan => true
  | _ => false

def toInt? : FloatDatum → Option Int
  | .finite negative significand exponent =>
    let unit := 2 ^ (-exponent).toNat
    if significand % unit = 0 then
      let magnitude : Int := ↑(significand / unit * 2 ^ exponent.toNat)
      some (if negative then -magnitude else magnitude)
    else none
  | _ => none

def sameNumber : FloatDatum → FloatDatum → Bool
  | .finite s m q, .finite s' m' q' => (m == 0 && m' == 0) || (s == s' && m == m' && q == q')
  | .infinite s, .infinite s' => s == s'
  | _, _ => false

end FloatDatum

end IncrementalJson
